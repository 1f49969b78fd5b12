import Mathlib.Algebra.Group.Nat.Defs
import SceLibcPosix.Mman.Reservations

namespace SceLibcPosix.Mman

open Relation

def finiLoop (m : State) (passed : List Region) : List Region → State
  | [] => m
  | r :: t =>
    if r.uid < 0 then finiLoop m (passed ++ [r]) t
    else
      let m := m.call (.decommit r.addr r.len)
      let m := if uidListed passed r.uid then m else m.call (.free r.uid)
      finiLoop m (passed ++ [r]) t

/-- `__fini_mman`. The calls on the VM domain are not logged. -/
def finiMman (m : State) : State :=
  if !m.ready then m
  else
    let m := finiLoop m.lock [] m.regions
    { m with
      regions := []
      vmUid := if 0 ≤ m.vmUid then -1 else m.vmUid
      ready := false
      held := m.held - 1 }

def KuCall.isDecommit : KuCall → Bool
  | .decommit _ _ => true
  | .reserve _ _ _ | .commit _ _ | .free _ => false

/-- The calls that a table gives rise to, first call first. -/
def finiLog (passed : List Region) : List Region → List KuCall
  | [] => []
  | r :: t => .decommit r.addr r.len ::
    ((if uidListed passed r.uid then [] else [.free r.uid]) ++ finiLog (passed ++ [r]) t)

/-- No reservation is freed while an entry of it is still to be decommitted. The entries are
decommitted in the order of the table. -/
def FreedLast (t : List Region) (log : List KuCall) : Prop :=
  ∀ before uid after, log = before ++ .free uid :: after →
    ∀ r ∈ t.drop (before.countP KuCall.isDecommit), r.uid ≠ uid

section

variable {m : State} {t passed : List Region} {log : List KuCall} {r : Region}

theorem finiLoop_log (howned : ∀ r ∈ t, 0 ≤ r.uid) :
    (finiLoop m passed t).calls = (finiLog passed t).reverse ++ m.calls := by
  induction t generalizing m passed with
  | nil => rfl
  | cons r t ih =>
    obtain ⟨hr, ht⟩ := List.forall_mem_cons.mp howned
    rw [finiLoop, if_neg (not_lt.mpr hr), finiLog]
    dsimp only
    rw [ih ht]
    split
    · simp
    · simp

theorem finiMman_log (hready : m.ready = true) (howned : ∀ r ∈ m.regions, 0 ≤ r.uid) :
    (finiMman m).calls = (finiLog [] m.regions).reverse ++ m.calls := by
  have hlog : (finiLoop m.lock [] m.regions).calls = (finiLog [] m.regions).reverse ++ m.calls :=
    finiLoop_log howned
  simp [finiMman, hready, hlog]

/-- Each reservation is freed at its first entry, unless the loop has passed one before. -/
theorem count_free_finiLog (uid : ℤ) : (finiLog passed t).count (.free uid) =
    if uidListed t uid ∧ ¬ uidListed passed uid then 1 else 0 := by
  induction t generalizing passed with
  | nil => simp [finiLog, uidListed]
  | cons r t ih =>
    have hne : KuCall.decommit r.addr r.len ≠ .free uid := by simp
    rw [finiLog, List.count_cons_of_ne hne, List.count_append, ih]
    have happ : uidListed (passed ++ [r]) uid = (uidListed passed uid || decide (r.uid = uid)) := by
      simp [uidListed]
    have hcons : uidListed (r :: t) uid = (decide (r.uid = uid) || uidListed t uid) := by
      simp [uidListed]
    rw [happ, hcons]
    by_cases hu : r.uid = uid
    · subst hu
      by_cases hp : uidListed passed r.uid = true
      · simp [hp]
      · simp [hp]
    · split
      · simp [hu]
      · simp [hu]

theorem finiLog_decommits :
    (finiLog passed t).filter KuCall.isDecommit = t.map fun r ↦ .decommit r.addr r.len := by
  induction t generalizing passed with
  | nil => rfl
  | cons r t ih =>
    rw [finiLog, List.filter_cons_of_pos rfl, List.filter_append, ih, List.map_cons]
    split <;> rfl

theorem freedLast_decommit {addr len : ℕ} :
    FreedLast (r :: t) (.decommit addr len :: log) ↔ FreedLast t log := by
  constructor
  · intro h before uid after heq
    have hlast := h (.decommit addr len :: before) uid after (congrArg _ heq)
    rwa [List.countP_cons_of_pos rfl, List.drop_succ_cons] at hlast
  · intro h before uid after heq
    cases before with
    | nil => cases heq
    | cons c before =>
      obtain ⟨hc, heq⟩ := List.cons.inj heq
      rw [← hc, List.countP_cons_of_pos rfl, List.drop_succ_cons]
      exact h before uid after heq

theorem freedLast_free {uid : ℤ} :
    FreedLast t (.free uid :: log) ↔ (∀ r ∈ t, r.uid ≠ uid) ∧ FreedLast t log := by
  constructor
  · intro h
    refine ⟨h [] uid log rfl, fun before u after heq ↦ ?_⟩
    have hlast := h (.free uid :: before) u after (congrArg _ heq)
    rwa [List.countP_cons_of_neg Bool.false_ne_true] at hlast
  · rintro ⟨hnone, h⟩ before u after heq
    cases before with
    | nil =>
      obtain ⟨hu, -⟩ := List.cons.inj heq
      cases hu
      exact hnone
    | cons c before =>
      obtain ⟨hc, heq⟩ := List.cons.inj heq
      rw [← hc, List.countP_cons_of_neg Bool.false_ne_true]
      exact h before u after heq

theorem freedLast_finiLog : FreedLast t (finiLog passed t) ↔
    t.Pairwise fun a b ↦ a.uid = b.uid → Listed passed a.uid := by
  induction t generalizing passed with
  | nil => simp [FreedLast, finiLog]
  | cons r t ih =>
    rw [finiLog, freedLast_decommit, List.pairwise_cons]
    have hrest : (∀ a ∈ t, r.uid = a.uid → Listed passed r.uid) →
        (FreedLast t (finiLog (passed ++ [r]) t) ↔
          t.Pairwise fun a b ↦ a.uid = b.uid → Listed passed a.uid) := by
      intro hr
      rw [ih]
      refine List.Pairwise.iff_of_mem fun {a b} ha _ ↦ forall_congr' fun _ ↦ ?_
      simp only [listed_append, listed_cons, listed_nil, or_false]
      refine ⟨fun h ↦ h.elim id fun heq ↦ ?_, .inl⟩
      exact heq ▸ hr a ha heq
    by_cases hp : Listed passed r.uid
    · rw [if_pos (uidListed_iff.mpr hp), List.nil_append, hrest fun _ _ _ ↦ hp]
      exact (and_iff_right fun _ _ _ ↦ hp).symm
    · rw [if_neg (fun h ↦ hp (uidListed_iff.mp h)), List.singleton_append, freedLast_free]
      constructor
      · rintro ⟨hnone, h⟩
        have hr : ∀ a ∈ t, r.uid = a.uid → Listed passed r.uid := fun a ha heq ↦
          absurd heq.symm (hnone a ha)
        exact ⟨hr, (hrest hr).mp h⟩
      · rintro ⟨hr, h⟩
        exact ⟨fun a ha heq ↦ hp (hr a ha heq.symm), (hrest hr).mpr h⟩

end

/-- What `__fini_mman` does to the table of every run with kubridge: it frees each reservation once
and decommits each entry once, and it does so in the right order if and only if no reservation has
two entries. -/
theorem finiMman_order {mem : ℕ → UInt8} {m : State}
    (h : ReflTransGen FreshStep (initMman true mem) m) :
    ∃ log, (finiMman m).calls = log.reverse ++ m.calls ∧
      (∀ uid, log.count (.free uid) = if uidListed m.regions uid then 1 else 0) ∧
      (log.filter KuCall.isDecommit = m.regions.map fun r ↦ .decommit r.addr r.len) ∧
      (FreedLast m.regions log ↔ m.regions.Pairwise fun a b ↦ a.uid ≠ b.uid) := by
  obtain ⟨hready, -, hb⟩ := freshRun_balanced h
  refine ⟨finiLog [] m.regions, finiMman_log hready fun r hr ↦ hb.owned r.uid ⟨r, hr, rfl⟩,
    fun uid ↦ ?_, finiLog_decommits, ?_⟩
  · rw [count_free_finiLog]
    simp [uidListed]
  · rw [freedLast_finiLog]
    simp only [listed_nil, ne_eq, imp_false]

theorem finiMman_order_kuTwo :
    ∃ log, (finiMman kuTwo).calls = log.reverse ++ kuTwo.calls ∧
      FreedLast kuTwo.regions log := by
  have hfresh : (Request.map 0 0x1000 1).Fresh kuPages kuSecond := by
    have hres : reserved kuPages.calls = [⟨1, 0x90000000, 0x2000⟩] := by decide
    simp [Request.Fresh, Held, hres, kuSecond]
  obtain ⟨log, hcalls, -, -, horder⟩ := finiMman_order
    (.tail (.single (fresh_map 0x2000)) (.call kuPages kuSecond (.map 0 0x1000 1) hfresh))
  refine ⟨log, hcalls, horder.mpr ?_⟩
  change kuTwo.regions.Pairwise fun a b ↦ a.uid ≠ b.uid
  rw [kuTwo_regions]
  decide

def splitPages : State :=
  Request.run (Request.run (initMman true fun _ ↦ 0) kuAnswers (.map 0 0x3000 3)) kuAnswers
    (.unmap 0x90001000 0x1000)

/-- The reservation is freed at the first of its two entries, before the second is decommitted. -/
theorem finiMman_frees_early :
    ReflTransGen FreshStep (initMman true fun _ ↦ 0) splitPages ∧
    splitPages.regions = [⟨0x90000000, 0x1000, 1, 3⟩, ⟨0x90002000, 0x1000, 1, 3⟩] ∧
    (finiMman splitPages).calls = .decommit 0x90002000 0x1000 :: .free 1 ::
      .decommit 0x90000000 0x1000 :: splitPages.calls := by
  refine ⟨.tail (.single (fresh_map 0x3000))
    (.call _ kuAnswers (.unmap 0x90001000 0x1000) trivial), ?_, ?_⟩
  · decide +kernel
  · decide +kernel

end SceLibcPosix.Mman
