import Mathlib.Data.List.Basic
import SceLibcPosix.Lib.Programs

namespace SceLibcPosix.CrtModule

open Programs

structure Image where
  tlsRegionInfo : Bool
  preinitArray : List ℕ
  initArray : List ℕ

inductive Ask
  | sceLdTlsRegisterModuleInfo
  | sceLdTlsUnregisterModuleInfo
  | call (f : ℕ)
  | moduleStart
  | moduleStop
  | moduleExit
  | cxaFinalize
deriving DecidableEq, Repr

abbrev Ask.Answer : Ask → Type
  | .call _ | .moduleExit | .cxaFinalize => Unit
  | _ => BitVec 32

abbrev Calls := Program Ask Ask.Answer

abbrev Asked := (q : Ask) × q.Answer

def callEach (fs : List ℕ) : Calls Unit := Program.forEach .call fs

/-- `(_tls_region_info != 0) && (ret = _sceLdTlsUnregisterModuleInfo(..), ret != 0)`. -/
def unregisterFails (i : Image) : Calls Bool :=
  if i.tlsRegionInfo then
    .ask .sceLdTlsUnregisterModuleInfo fun (ret : BitVec 32) ↦ pure (decide (ret ≠ 0))
  else pure false

/-- `(_tls_region_info != 0) && (ret = _sceLdTlsRegisterModuleInfo(..), ret != 0)`. -/
def registerFails (i : Image) : Calls Bool :=
  if i.tlsRegionInfo then
    .ask .sceLdTlsRegisterModuleInfo fun (ret : BitVec 32) ↦ pure (decide (ret ≠ 0))
  else pure false

def moduleStartMain (i : Image) : Calls (BitVec 32) := do
  if (← registerFails i) then pure 2
  else
    callEach i.preinitArray
    callEach i.initArray
    .ask .moduleStart fun (status : BitVec 32) ↦
      if status = 2 ∨ status = 1 then
        .ask .cxaFinalize fun _ ↦ do
          if (← unregisterFails i) then pure 2 else pure 0
      else pure 0

def moduleStopMain (i : Image) : Calls (BitVec 32) :=
  .ask .moduleStop fun (status : BitVec 32) ↦
    if status ≠ 1 then
      .ask .cxaFinalize fun _ ↦ do
        if (← unregisterFails i) then pure 2 else pure status
    else pure status

def moduleExitMain (i : Image) : Calls Unit :=
  .ask .moduleExit fun _ ↦ .ask .cxaFinalize fun _ ↦ do
    let _ ← unregisterFails i
    pure ()

/-- What comes after the start: the module is stopped, which it may put off, or the process ends. -/
inductive Rest (i : Image) : List Asked → Prop
  | stopped {tr : List Asked} {status : BitVec 32} (h : Program.Path (moduleStopMain i) tr status)
    (hstatus : status ≠ 1) : Rest i tr
  | cancelled {tr tr' : List Asked} (h : Program.Path (moduleStopMain i) tr 1) (h' : Rest i tr') :
    Rest i (tr ++ tr')
  | exited {tr : List Asked} {u : Unit} (h : Program.Path (moduleExitMain i) tr u) : Rest i tr

/-- The code of a module with a thread-local region wants it to be registered; it is so, or not. -/
def registration : Rules Ask Ask.Answer Bool where
  may s
    | .sceLdTlsRegisterModuleInfo => s = false
    | _ => s = true
  can _ _ _ := True
  next s
    | .sceLdTlsRegisterModuleInfo, (ret : BitVec 32) => if ret = 0 then true else s
    | .sceLdTlsUnregisterModuleInfo, (ret : BitVec 32) => if ret = 0 then false else s
    | _, _ => s

def finalized (tr : List Asked) : ℕ := (tr.map Sigma.fst).count .cxaFinalize

/-- `module_start` has asked to be taken out again. -/
def Declined (tr : List Asked) : Prop :=
  (⟨.moduleStart, (1 : BitVec 32)⟩ : Asked) ∈ tr ∨ (⟨.moduleStart, (2 : BitVec 32)⟩ : Asked) ∈ tr

def called (fs : List ℕ) : List Asked := fs.map fun f ↦ ⟨.call f, ()⟩

variable {i : Image} {tr tr' : List Asked} {status : BitVec 32}

theorem callEach_path {fs : List ℕ} {u : Unit} (h : Program.Path (callEach fs) tr u) :
    tr = called fs := Program.forEach_path (fun _ _ ↦ rfl) h

theorem called_append (fs fs' : List ℕ) : called (fs ++ fs') = called fs ++ called fs' :=
  List.map_append

theorem unregisterFails_path (htls : i.tlsRegionInfo = true) {b : Bool}
    (h : Program.Path (unregisterFails i) tr b) :
    ∃ ret : BitVec 32, tr = [⟨.sceLdTlsUnregisterModuleInfo, ret⟩] ∧ (b ↔ ret ≠ 0) := by
  rw [unregisterFails, if_pos htls] at h
  cases h with
  | ask _ _ ret h =>
    cases h
    exact ⟨ret, rfl, decide_eq_true_iff⟩

theorem moduleStartMain_path (htls : i.tlsRegionInfo = true)
    (h : Program.Path (moduleStartMain i) tr status) :
    (∃ ret : BitVec 32, ret ≠ 0 ∧ status = 2 ∧ tr = [⟨.sceLdTlsRegisterModuleInfo, ret⟩]) ∨
    ∃ x : BitVec 32, ∃ back, tr = ⟨.sceLdTlsRegisterModuleInfo, (0 : BitVec 32)⟩ ::
        (called (i.preinitArray ++ i.initArray) ++ ⟨.moduleStart, x⟩ :: back) ∧
      (x ≠ 1 ∧ x ≠ 2 ∧ status = 0 ∧ back = [] ∨
      (x = 1 ∨ x = 2) ∧ ∃ ret : BitVec 32, (status = 0 ↔ ret = 0) ∧
        back = [⟨.cxaFinalize, ()⟩, ⟨.sceLdTlsUnregisterModuleInfo, ret⟩]) := by
  obtain ⟨tr₁, b, tr₂, rfl, hreg, h⟩ := h.of_bind
  rw [registerFails, if_pos htls] at hreg
  cases hreg with
  | ask _ _ ret hreg =>
    cases hreg
    by_cases hret : ret = (0 : BitVec 32)
    · subst hret
      rw [if_neg (by decide)] at h
      obtain ⟨tr₃, _, tr₄, rfl, hpre, hinits⟩ := h.of_bind
      obtain ⟨tr₅, _, tr₆, rfl, hinit, hstart⟩ := hinits.of_bind
      cases callEach_path hpre
      cases callEach_path hinit
      cases hstart with
      | ask _ _ x h =>
        refine .inr ⟨x, _, by rw [called_append, List.append_assoc]; rfl, ?_⟩
        dsimp only at h
        split at h
        · next hx =>
          cases h with
          | ask _ _ _ h =>
            obtain ⟨tr₇, b, tr₈, rfl, hunreg, hreturn⟩ := h.of_bind
            obtain ⟨ret, rfl, hb⟩ := unregisterFails_path htls hunreg
            split at hreturn
            · next hret =>
              cases hreturn
              exact .inr ⟨hx.symm, ret, iff_of_false (by decide) (hb.mp hret), rfl⟩
            · next hret =>
              cases hreturn
              exact .inr ⟨hx.symm, ret, iff_of_true rfl (not_not.mp (mt hb.mpr hret)), rfl⟩
        · next hx =>
          cases h
          exact .inl ⟨fun h ↦ hx (.inr h), fun h ↦ hx (.inl h), rfl, rfl⟩
    · have hfails : decide (ret ≠ (0 : BitVec 32)) = true := decide_eq_true hret
      rw [if_pos hfails] at h
      cases h
      exact .inl ⟨ret, hret, rfl, rfl⟩

theorem moduleStopMain_path (htls : i.tlsRegionInfo = true)
    (h : Program.Path (moduleStopMain i) tr status) :
    status = 1 ∧ tr = [⟨.moduleStop, (1 : BitVec 32)⟩] ∨
    ∃ x ret : BitVec 32, x ≠ 1 ∧ status ≠ 1 ∧
      tr = [⟨.moduleStop, x⟩, ⟨.cxaFinalize, ()⟩, ⟨.sceLdTlsUnregisterModuleInfo, ret⟩] := by
  cases h with
  | ask _ _ x h =>
    dsimp only at h
    split at h
    · next hx =>
      cases h with
      | ask _ _ _ h =>
        obtain ⟨tr₁, b, tr₂, rfl, hunreg, hret⟩ := h.of_bind
        obtain ⟨ret, rfl, -⟩ := unregisterFails_path htls hunreg
        split at hret
        · cases hret
          exact .inr ⟨x, ret, hx, by decide, rfl⟩
        · cases hret
          exact .inr ⟨_, ret, hx, hx, rfl⟩
    · next hx =>
      cases h
      cases not_not.mp hx
      exact .inl ⟨rfl, rfl⟩

theorem moduleExitMain_path (htls : i.tlsRegionInfo = true) {u : Unit}
    (h : Program.Path (moduleExitMain i) tr u) : ∃ ret : BitVec 32,
      tr = [⟨.moduleExit, ()⟩, ⟨.cxaFinalize, ()⟩, ⟨.sceLdTlsUnregisterModuleInfo, ret⟩] := by
  cases h with
  | ask _ _ _ h =>
    cases h with
    | ask _ _ _ h =>
      obtain ⟨tr₁, b, tr₂, rfl, hunreg, hret⟩ := h.of_bind
      obtain ⟨ret, rfl, -⟩ := unregisterFails_path htls hunreg
      cases hret
      exact ⟨ret, rfl⟩

theorem Rest.follows (htls : i.tlsRegionInfo = true) (h : Rest i tr) (s : Bool) :
    (registration.Follows s tr ↔ s = true) ∧ finalized tr = 1 := by
  induction h with
  | stopped h hstatus =>
    obtain ⟨rfl, -⟩ | ⟨x, ret, -, -, rfl⟩ := moduleStopMain_path htls h
    · exact absurd rfl hstatus
    · exact ⟨by simp [Rules.Follows, registration], rfl⟩
  | cancelled h _ ih =>
    obtain ⟨-, rfl⟩ | ⟨x, ret, -, hne, -⟩ := moduleStopMain_path htls h
    · exact ⟨(and_congr_right fun _ ↦ ih.1).trans and_self_iff, ih.2⟩
    · exact absurd rfl hne
  | exited h =>
    obtain ⟨ret, rfl⟩ := moduleExitMain_path htls h
    exact ⟨by simp [Rules.Follows, registration], rfl⟩

theorem called_follows (fs : List ℕ) (tr : List Asked) :
    (registration.Follows true (called fs ++ tr) ↔ registration.Follows true tr) ∧
      registration.after true (called fs ++ tr) = registration.after true tr ∧
      finalized (called fs ++ tr) = finalized tr ∧
      (Declined (called fs ++ tr) ↔ Declined tr) := by
  induction fs with
  | nil => exact ⟨Iff.rfl, rfl, rfl, Iff.rfl⟩
  | cons f fs ih =>
    obtain ⟨hfollows, hafter, hfinal, hdeclined⟩ := ih
    refine ⟨(and_iff_right rfl).trans hfollows, hafter, hfinal, Iff.trans ?_ hdeclined⟩
    simp [Declined, called]

theorem started_follows (fs : List ℕ) (x : BitVec 32) (back : List Asked) :
    let tr : List Asked := ⟨.sceLdTlsRegisterModuleInfo, (0 : BitVec 32)⟩ ::
      (called fs ++ ⟨.moduleStart, x⟩ :: back)
    (registration.Follows false tr ↔ registration.Follows true back) ∧
      registration.after false tr = registration.after true back ∧
      finalized tr = finalized back ∧
      (Declined tr ↔ x = 1 ∨ x = 2 ∨ Declined back) := by
  obtain ⟨hfollows, hafter, hfinal, hdeclined⟩ := called_follows fs (⟨.moduleStart, x⟩ :: back)
  refine ⟨?_, hafter, hfinal, ?_⟩
  · exact (and_iff_right rfl).trans (hfollows.trans (and_iff_right rfl))
  · refine Iff.trans ?_ (hdeclined.trans ?_)
    · simp [Declined]
    · grind [Declined]

theorem finalized_append : finalized (tr ++ tr') = finalized tr + finalized tr' := by
  rw [finalized, List.map_append, List.count_append]
  rfl

/-- A module that has been started has its thread-local region registered whenever its code runs,
until it has been stopped, and runs its handlers of `atexit` once, if and only if `module_start` has
not declined: then `__module_start_main` takes all of it back, and still says that all is well. A
start that does say otherwise keeps to the registration in any case. -/
theorem module_registered (htls : i.tlsRegionInfo = true)
    (h : Program.Path (moduleStartMain i) tr status) :
    registration.Follows false tr ∧
    ∀ tr', status = 0 → Rest i tr' →
      (registration.Follows false (tr ++ tr') ↔ ¬ Declined tr) ∧
      (finalized (tr ++ tr') = 1 ↔ ¬ Declined tr) := by
  obtain ⟨ret, hret, rfl, rfl⟩ | ⟨x, back, rfl, hback⟩ := moduleStartMain_path htls h
  · exact ⟨⟨rfl, trivial⟩, fun _ hstatus ↦ absurd hstatus (by decide)⟩
  · obtain ⟨hfollows, hafter, hfinal, hdeclined⟩ :=
      started_follows (i.preinitArray ++ i.initArray) x back
    obtain ⟨h1, h2, -, rfl⟩ | ⟨hx, ret, hret, rfl⟩ := hback
    · have hnot := hdeclined.not.mpr (by simpa [Declined] using ⟨h1, h2⟩)
      refine ⟨hfollows.mpr trivial, fun tr' _ hrest ↦ ?_⟩
      obtain ⟨hiff, hcount⟩ := hrest.follows htls (registration.after false _)
      rw [Rules.follows_append, hiff, hafter, finalized_append, hfinal, hcount]
      exact ⟨iff_of_true ⟨hfollows.mpr trivial, rfl⟩ hnot, iff_of_true rfl hnot⟩
    · have hyes := hdeclined.mpr (hx.imp_right .inl)
      refine ⟨hfollows.mpr ⟨rfl, rfl, trivial⟩, fun tr' hstatus hrest ↦ ?_⟩
      obtain ⟨hiff, hcount⟩ := hrest.follows htls (registration.after false _)
      cases hret.mp hstatus
      rw [Rules.follows_append, hiff, hafter, finalized_append, hfinal, hcount]
      exact ⟨iff_of_false (fun h ↦ absurd h.2 (by decide)) (not_not.mpr hyes),
        iff_of_false (by decide) (not_not.mpr hyes)⟩

def oneConstructor : Image where
  tlsRegionInfo := true
  preinitArray := []
  initArray := [4096]

def declinedStart : List Asked :=
  [⟨.sceLdTlsRegisterModuleInfo, (0 : BitVec 32)⟩, ⟨.call 4096, ()⟩,
    ⟨.moduleStart, (1 : BitVec 32)⟩, ⟨.cxaFinalize, ()⟩,
    ⟨.sceLdTlsUnregisterModuleInfo, (0 : BitVec 32)⟩]

def plainStop : List Asked :=
  [⟨.moduleStop, (0 : BitVec 32)⟩, ⟨.cxaFinalize, ()⟩,
    ⟨.sceLdTlsUnregisterModuleInfo, (0 : BitVec 32)⟩]

theorem module_registered_declined :
    ¬ registration.Follows false (declinedStart ++ plainStop) ∧
      finalized (declinedStart ++ plainStop) ≠ 1 := by
  have hregister : Program.Path (registerFails oneConstructor)
      [⟨.sceLdTlsRegisterModuleInfo, (0 : BitVec 32)⟩] false := .ask _ _ _ (.ret _)
  have hunregister : Program.Path (unregisterFails oneConstructor)
      [⟨.sceLdTlsUnregisterModuleInfo, (0 : BitVec 32)⟩] false := .ask _ _ _ (.ret _)
  have hreturn : Program.Path
      (do if (← unregisterFails oneConstructor) then pure (2 : BitVec 32) else pure 0)
      [⟨.sceLdTlsUnregisterModuleInfo, (0 : BitVec 32)⟩] 0 := by
    refine hunregister.bind ?_
    rw [if_neg (by decide)]
    exact .ret _
  have hcall : Program.Path (callEach oneConstructor.initArray) [⟨.call 4096, ()⟩] () :=
    .ask _ _ _ (.ret _)
  have hstart : Program.Path (moduleStartMain oneConstructor) declinedStart 0 := by
    refine hregister.bind ?_
    rw [if_neg (by decide)]
    refine Program.Path.bind (.ret ()) (hcall.bind (.ask _ _ _ ?_))
    rw [if_pos (by decide)]
    exact .ask _ _ _ hreturn
  have hstop : Program.Path (moduleStopMain oneConstructor) plainStop 0 := by
    refine .ask _ _ _ ?_
    rw [if_pos (by decide)]
    exact .ask _ _ _ hreturn
  have hdeclined : Declined declinedStart := .inl (by simp [declinedStart])
  obtain ⟨-, hrest⟩ := module_registered rfl hstart
  obtain ⟨hfollows, hcount⟩ := hrest plainStop rfl (.stopped hstop (by decide))
  exact ⟨fun h ↦ hfollows.mp h hdeclined, fun h ↦ hcount.mp h hdeclined⟩

end SceLibcPosix.CrtModule
