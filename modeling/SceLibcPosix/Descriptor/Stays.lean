import SceLibcPosix.Descriptor.OpenFiles
import SceLibcPosix.Descriptor.Polling

namespace SceLibcPosix.Descriptor

open Errno VitaError References

/-- The slots but those named stand for the entries that they have stood for, and these are of the
types that they were of. -/
def Keeps (named : Slot → Prop) (t t' : Table) : Prop :=
  ∀ sl i, ¬ named sl → t.fdmap sl = some i →
    t'.fdmap sl = some i ∧ (t'.pool i).type = (t.pool i).type

/-- What a call on `t` comes to that closes no descriptor of those named by `named`. -/
structure Stays (named : Slot → Prop) (t t' : Table) : Prop where
  covers : Covers t' fun _ ↦ 0
  keeps : Keeps named t t'

def SessionCall.closes : SessionCall → Option ℤ
  | dup2 _ newfd _ => some newfd
  | close fd _ => some fd
  | open' _ _ _ | socket _ | accept _ _ | pipe _ | dup _ | use _ => none

/-- A call that creates an object has found a free slot for it, or has left the descriptors as they
were. -/
inductive InstallOutcome (t : Table) : Except ℤ Slot × Table → Prop
  | failed (e : ℤ) (t' : Table) (hfdmap : t'.fdmap = t.fdmap) (hpool : t'.pool = t.pool) :
    InstallOutcome t (.error e, t')
  | installed (sl : Slot) (i : Entry) (t₁ : Table) (e : DescriptorTranslation)
    (hfdmap : t₁.fdmap = t.fdmap) (hpool : t₁.pool = t.pool) (hsl : t.fdmap sl = none)
    (hi : (t.pool i).refCount = 0) (he : e.refCount = 1) :
    InstallOutcome t (.ok sl, (t₁.setSlot sl (some i)).setEntry i e)

section

variable {net : NetErrno → ℤ} {t t' t'' : Table} {k : Answers} {fd r : ℤ} {s s' : Session}
  {named named' : Slot → Prop} {sl : Slot} {i : Entry} {res : Except ℤ Slot × Table}

theorem keeps_of_eq (hfdmap : t'.fdmap = t.fdmap) (hpool : t'.pool = t.pool) :
    Keeps named t t' := fun _ i _ hs ↦ ⟨hfdmap ▸ hs, by rw [hpool]⟩

theorem Keeps.trans (h : Keeps named t t') (h' : Keeps named t' t'') : Keeps named t t'' := by
  intro sl i hsl hs
  obtain ⟨hs', htype⟩ := h sl i hsl hs
  obtain ⟨hs'', htype'⟩ := h' sl i hsl hs'
  exact ⟨hs'', htype'.trans htype⟩

theorem Keeps.mono (h : Keeps named t t') (hsub : ∀ sl, named sl → named' sl) :
    Keeps named' t t' :=
  fun sl i hsl hs ↦ h sl i (fun hn ↦ hsl (hsub sl hn)) hs

theorem keeps_release (hc : Covers t fun _ ↦ 0) {res : ℤ × Table}
    (h : ReleaseOutcome net t fd r res) : Keeps (fun sl ↦ fd = sl.val) t res.2 := by
  have hframe : Frame (fun sl ↦ fd = sl.val) (fun _ ↦ False) t res.2 :=
    frame_release hc h fun _ hsl ↦ hsl
  intro sl i hsl hs
  have hslot := hframe.slot sl hsl (by rw [hs]; exact Option.some_ne_none i)
  rw [hs] at hslot
  exact ⟨hslot, (hframe.object sl i hslot).2⟩

theorem keeps_taken (hc : Covers t fun _ ↦ 0) (hsl : t.fdmap sl = none)
    (hi : (t.pool i).refCount = 0) (e : DescriptorTranslation) :
    Keeps named t ((t.setSlot sl (some i)).setEntry i e) := by
  intro sl' j hsl' hs
  have hpos := hc.slot_pos hs
  have hji : j ≠ i := by
    rintro rfl
    omega
  have hne : sl' ≠ sl := by
    rintro rfl
    cases hs.symm.trans hsl
  exact ⟨(Function.update_of_ne hne _ _).trans hs, congrArg _ (Function.update_of_ne hji _ _)⟩

theorem keeps_share (hsl : t.fdmap sl = none) :
    Keeps named t ((t.setSlot sl (some i)).addRef i 1) := by
  intro sl' j hsl' hs
  have hne : sl' ≠ sl := by
    rintro rfl
    cases hs.symm.trans hsl
  exact ⟨(Function.update_of_ne hne _ _).trans hs,
    (Table.addRef_object (t := t.setSlot sl (some i)) 1 j).2⟩

theorem keeps_duplicate2 (hc : Covers t fun _ ↦ 0) {newfd : Slot} {res : Option Slot × Table}
    (h : Duplicate2Outcome net t fd newfd r res) :
    Keeps (fun sl ↦ newfd.val = (sl.val : ℤ)) t res.2 := by
  cases h with
  | refused => exact keeps_of_eq rfl rfl
  | same => exact keeps_of_eq rfl rfl
  | busy s i h hs res hres => exact keeps_release hc hres
  | moved s i h hs res hres hfree =>
    exact (keeps_release hc hres).trans (keeps_share hfree)

theorem covers_of_eq (hc : Covers t fun _ ↦ 0) (hfdmap : t'.fdmap = t.fdmap)
    (hpool : t'.pool = t.pool) : Covers t' fun _ ↦ 0 := by
  refine ⟨fun j ↦ ?_, fun j hj ↦ ?_⟩
  · rw [hfdmap, hpool]
    exact hc.count j
  · rw [hpool] at hj ⊢
    exact hc.clear j hj

theorem covers_taken (hc : Covers t fun _ ↦ 0) (hsl : t.fdmap sl = none)
    (hi : (t.pool i).refCount = 0) {e : DescriptorTranslation} (he : e.refCount = 1) :
    Covers ((t.setSlot sl (some i)).setEntry i e) fun _ ↦ 0 := by
  have htaken := hc.taken hsl hi
  have hfill := htaken.refill (i := i) (d := e) (by simp [he]) (by omega)
  have hpool : ((t.setSlot sl (some i)).setEntry i e).pool =
      (((t.setSlot sl (some i)).setEntry i { t.pool i with refCount := 1 }).setEntry i e).pool :=
    (Function.update_idem _ _ _).symm
  exact covers_of_eq hfill rfl hpool

theorem stays_of_eq (hc : Covers t fun _ ↦ 0) (hfdmap : t'.fdmap = t.fdmap)
    (hpool : t'.pool = t.pool) : Stays named t t' :=
  ⟨covers_of_eq hc hfdmap hpool, keeps_of_eq hfdmap hpool⟩

theorem Stays.trans (h : Stays named t t') (h' : Stays named t' t'') : Stays named t t'' :=
  ⟨h'.covers, h.keeps.trans h'.keeps⟩

theorem Stays.mono (h : Stays named t t') (hsub : ∀ sl, named sl → named' sl) :
    Stays named' t t' :=
  ⟨h.covers, h.keeps.mono hsub⟩

theorem stays_release (hc : Covers t fun _ ↦ 0) (net : NetErrno → ℤ) (fd r : ℤ) :
    Stays (fun sl ↦ fd = sl.val) t (releaseDescriptor net t fd r).2 :=
  have hout := releaseDescriptor_outcome net t fd r
  ⟨hc.release hout, keeps_release hc hout⟩

theorem stays_duplicate (hc : Covers t fun _ ↦ 0) (fd minfd : ℤ) :
    Stays named t (duplicateDescriptor t fd minfd).2 := by
  have hout := duplicateDescriptor_outcome t fd minfd
  refine ⟨hc.duplicate hout, ?_⟩
  generalize duplicateDescriptor t fd minfd = res at hout ⊢
  cases hout with
  | refused => exact keeps_of_eq rfl rfl
  | full => exact keeps_of_eq rfl rfl
  | shared sl i h sl' hsl' => exact keeps_share hsl'.free

theorem InstallOutcome.stays (hc : Covers t fun _ ↦ 0) (h : InstallOutcome t res) :
    Stays named t res.2 := by
  cases h with
  | failed e t' hfdmap hpool => exact stays_of_eq hc hfdmap hpool
  | installed sl i t₁ e hfdmap hpool hsl hi he =>
    have hc₁ := covers_of_eq hc hfdmap hpool
    have hsl₁ : t₁.fdmap sl = none := hfdmap ▸ hsl
    have hi₁ : (t₁.pool i).refCount = 0 := hpool ▸ hi
    exact ⟨covers_taken hc₁ hsl₁ hi₁ he,
      (keeps_of_eq hfdmap hpool).trans (keeps_taken hc₁ hsl₁ hi₁ e)⟩

theorem call_same (t : Table) (c : KernelCall) :
    (t.call c).fdmap = t.fdmap ∧ (t.call c).pool = t.pool := ⟨rfl, rfl⟩

theorem install_ends (hcreated : t'.fdmap = t.fdmap ∧ t'.pool = t.pool) (uid : ℤ)
    (type : DescriptorTypes) (undo : Table → Table)
    (hundo : ∀ t, (undo t).fdmap = t.fdmap ∧ (undo t).pool = t.pool) :
    InstallOutcome t (install t' uid type undo) := by
  obtain ⟨hfdmap, hpool⟩ := hcreated
  rcases install_outcome t' uid type with hfull | ⟨sl, i, hsl, hi, hok⟩
  · rw [hfull]
    exact .failed _ _ ((hundo t').1.trans hfdmap) ((hundo t').2.trans hpool)
  · rw [hok]
    exact .installed sl i t' _ hfdmap hpool (hfdmap ▸ hsl) (hpool ▸ hi) rfl

theorem open_installs (net : NetErrno → ℤ) (t : Table) (k : Answers) (fullPath : Except ℤ String)
    (flags : BitVec 32) : InstallOutcome t (open' net t k fullPath flags) := by
  have hend (uid e r : ℤ) (o : KernelObject) (t₁ : Table) (type : DescriptorTypes)
      (hsame : t₁.fdmap = t.fdmap ∧ t₁.pool = t.pool) : InstallOutcome t
        (if uid < 0 then (.error e, t₁) else install t₁ uid type fun t ↦ t.call (.close o r)) := by
    split
    · exact .failed e t₁ hsame.1 hsame.2
    · exact install_ends hsame uid type _ fun _ ↦ ⟨rfl, rfl⟩
  have hopened (ret handle : ℤ) (o : KernelObject) : (opened t ret handle o).2.fdmap = t.fdmap ∧
      (opened t ret handle o).2.pool = t.pool := by
    unfold opened
    split <;> exact ⟨rfl, rfl⟩
  cases fullPath with
  | error e => exact .failed e t rfl rfl
  | ok path =>
    unfold open'
    dsimp only
    split
    · exact .failed _ t rfl rfl
    · split
      · exact hend _ _ _ _ _ _ (hopened _ _ _)
      · exact hend _ _ _ _ _ _ (hopened _ _ _)

theorem socket_installs (net : NetErrno → ℤ) (t : Table) (k : Answers) :
    InstallOutcome t (socket net t k) := by
  unfold socket
  dsimp only
  split
  · exact .failed _ t rfl rfl
  · exact install_ends (call_same t _) _ _ id fun _ ↦ ⟨rfl, rfl⟩

theorem accept_installs (hc : Covers t fun _ ↦ 0) (net : NetErrno → ℤ) (k : Answers) (fd : ℤ) :
    InstallOutcome t (accept net t k fd) := by
  cases hopen : openAt t fd with
  | none =>
    rw [accept, fdGrab_closed hopen]
    exact .failed _ t rfl rfl
  | some p =>
    obtain ⟨sl, i⟩ := p
    have hpos := hc.slot_pos (openAt_eq_some.mp hopen).2
    rw [accept, fdGrab_open hopen]
    dsimp only
    by_cases hres : k.netAccept < 0
    · rw [if_pos hres, if_pos hres, fdDrop_grabbed (by omega)]
      exact .failed _ t rfl rfl
    · rw [if_neg hres, if_neg hres]
      have hdrop : (fdDrop net ((t.call (.created (.socket k.netAccept))).addRef i 1) i k.close).2 =
          t.call (.created (.socket k.netAccept)) :=
        fdDrop_grabbed (t := t.call (.created (.socket k.netAccept))) (by
          change 0 < (t.pool i).refCount
          omega)
      change InstallOutcome t (install (fdDrop net
        ((t.call (.created (.socket k.netAccept))).addRef i 1) i k.close).2 _ _ _)
      rw [hdrop]
      exact install_ends (call_same t _) _ _ id fun _ ↦ ⟨rfl, rfl⟩

theorem pipe_stays (hc : Covers t fun _ ↦ 0) (net : NetErrno → ℤ) (k : Answers) :
    Stays named t (pipe net t k).2 := by
  unfold pipe
  dsimp only
  split
  · exact stays_of_eq hc rfl rfl
  have hins : InstallOutcome t (install (t.call (.created (.msgPipe k.msgPipe))) k.msgPipe .PIPE
      fun t ↦ t.call (.close (.msgPipe k.msgPipe) k.close)) :=
    install_ends (call_same t _) _ _ _ fun _ ↦ ⟨rfl, rfl⟩
  have hfirst : Stays named t _ := hins.stays hc
  generalize install (t.call (.created (.msgPipe k.msgPipe))) k.msgPipe .PIPE
    (fun t ↦ t.call (.close (.msgPipe k.msgPipe) k.close)) = res at hfirst ⊢
  obtain ⟨_ | fd, t'⟩ := res
  · exact hfirst
  · have hsecond : Stays named t' _ := stays_duplicate hfirst.covers fd.val 0
    dsimp only [secondEnd] at hsecond ⊢
    generalize duplicateDescriptor t' fd.val 0 = res at hsecond ⊢
    obtain ⟨_ | fd2, t''⟩ := res
    · exact (hfirst.trans hsecond).trans (stays_of_eq hsecond.covers rfl rfl)
    · exact hfirst.trans hsecond

theorem Kept.stays (hc : Covers t fun _ ↦ 0) (h : Kept t 0 t') : Stays named t t' := by
  have hcount : ∀ j, (t'.pool j).refCount = (t.pool j).refCount := by
    intro j
    rw [h.held.refCount]
    simp
  refine ⟨⟨fun j ↦ ?_, fun j hj ↦ ?_⟩, fun sl j _ hs ↦ ⟨h.held.fdmap ▸ hs, h.type j⟩⟩
  · rw [h.held.fdmap, hcount]
    exact hc.count j
  · rw [hcount] at hj
    rw [h.unused j hj]
    exact hc.clear j hj

theorem use_stays (hc : Covers s.table fun _ ↦ 0) {c : FdCall}
    (hrun : SessionCall.Runs net s (.use c) s') : Stays named s.table s'.table := by
  cases hrun with
  | use c K k k' out s' hrun =>
    by_cases hdup : c.Duplicates
    · obtain ⟨fd, arg, -, htable⟩ := FdCall.dupfd hdup hrun
      rw [htable]
      split
      · exact stays_of_eq hc rfl rfl
      · exact stays_duplicate hc fd arg
    · have hneutral : Neutral (c.steps net) := FdCall.neutral hdup
      exact (hneutral.kept hc.inUse (run_serve hrun)).stays hc

/-- Whatever a call does, the descriptors but the one that it is to close stay what they are. -/
theorem SessionCall.stays (hc : Covers s.table fun _ ↦ 0) {c : SessionCall}
    (hrun : c.Runs net s s') :
    Stays (fun sl ↦ c.closes = some (sl.val : ℤ)) s.table s'.table := by
  cases hrun with
  | open' k fullPath flags => exact (open_installs net s.table k fullPath flags).stays hc
  | socket k => exact (socket_installs net s.table k).stays hc
  | accept k fd => exact (accept_installs hc net k fd).stays hc
  | pipe k => exact pipe_stays hc net k
  | dup fd => exact stays_duplicate hc fd 0
  | dup2 oldfd newfd r =>
    change Stays _ s.table (Descriptor.dup2 net s.table oldfd newfd r).2
    unfold Descriptor.dup2
    cases hslot : slotOf newfd with
    | none => exact stays_of_eq hc rfl rfl
    | some sl =>
      obtain rfl := slotOf_some hslot
      have hout := duplicateDescriptor2_outcome net s.table oldfd sl r
      have hstays : Stays (fun sl' ↦ (sl.val : ℤ) = sl'.val) s.table _ :=
        ⟨hc.duplicate2 hout, keeps_duplicate2 hc hout⟩
      dsimp only
      generalize duplicateDescriptor2 net s.table oldfd sl r = res at hstays ⊢
      obtain ⟨_ | fd, t⟩ := res
      · exact hstays.mono fun _ ↦ congrArg some
      · exact hstays.mono fun _ ↦ congrArg some
  | close fd r => exact (stays_release hc net fd r).mono fun _ ↦ congrArg some
  | use c K k k' out s' hrun => exact use_stays hc (.use c K k k' out s' hrun)

end

end SceLibcPosix.Descriptor
