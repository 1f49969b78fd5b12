import SceLibcPosix.Descriptor.Runs

namespace SceLibcPosix.Descriptor

open Errno VitaError References

/-- What closing a descriptor should do for the result `r` of the close routine: either all of it
is done, or nothing changes. -/
def AllOrNothing (net : NetErrno → ℤ) (t : Table) (s : Slot) (i : Entry) (r : ℤ) : Prop :=
  let res := releaseDescriptor net t s.val r
  (1 < (t.pool i).refCount ∨ 0 ≤ r → res.1 = 0 ∧
    res.2.fdmap = Function.update t.fdmap s none ∧
    (res.2.pool i).refCount = (t.pool i).refCount - 1 ∧ ∀ j ≠ i, res.2.pool j = t.pool j) ∧
  ((t.pool i).refCount = 1 → r < 0 →
    res.1 = -1 ∧ res.2.fdmap = t.fdmap ∧ res.2.pool = t.pool)

/-- No entry is in use while nothing refers to it. -/
def NoLeak (w : World) : Prop :=
  ∀ i, 0 < (w.table.pool i).refCount → (∃ s, w.table.fdmap s = some i) ∨ 0 < w.grabs i

def Leaked (t : Table) (g : Entry → ℕ) (i : Entry) : Prop :=
  0 < (t.pool i).refCount ∧ refs t.fdmap i = 0 ∧ g i = 0

def Op.Answered (op : Op) : Prop := ∀ r ∈ op.result, InInt r

section

variable {net : NetErrno → ℤ} {t : Table} {g : Entry → ℕ} {w : World} {op : Op} {i : Entry}
  {s : Slot} {r : ℤ}

theorem allOrNothing_iff (hs : t.fdmap s = some i) (hr : InInt r) :
    AllOrNothing net t s i r ↔
      ((t.pool i).refCount = 1 → r < 0 → Reported net (t.pool i).type r) := by
  have hopen : openAt t s.val = some (s, i) := openAt_eq_some.mpr ⟨rfl, hs⟩
  have heq : ∀ {s' i'}, openAt t s.val = some (s', i') → s = s' ∧ i = i' := fun h ↦
    Prod.mk.inj (Option.some.inj (hopen.symm.trans h))
  have hout := releaseDescriptor_outcome net t s.val r
  unfold AllOrNothing
  generalize releaseDescriptor net t s.val r = res at hout ⊢
  cases hout with
  | refused h => cases hopen.symm.trans h
  | shared s' i' h href =>
    obtain ⟨rfl, rfl⟩ := heq h
    refine iff_of_true ⟨fun _ ↦ ⟨rfl, rfl, ?_, fun j hj ↦ ?_⟩, fun h ↦ absurd h href⟩
      fun h ↦ absurd h href
    · simp [sub_eq_add_neg]
    · simp [Table.addRef, hj]
  | closed s' i' h href hpos =>
    obtain ⟨rfl, rfl⟩ := heq h
    refine iff_of_true ⟨fun _ ↦ ⟨rfl, rfl, ?_, fun j hj ↦ ?_⟩, fun _ h ↦ by omega⟩
      fun _ h ↦ by omega
    · simp [href]
    · simp [hj]
  | failed s' i' h href hneg hrep =>
    obtain ⟨rfl, rfl⟩ := heq h
    exact iff_of_true ⟨fun h ↦ by omega, fun _ _ ↦ ⟨rfl, rfl, rfl⟩⟩ fun _ _ ↦ hrep hr
  | lost s' i' h href hneg hrep =>
    obtain ⟨rfl, rfl⟩ := heq h
    refine iff_of_false (fun h ↦ ?_) fun h ↦ hrep hr (h href hneg)
    have := (h.2 href hneg).1
    cases this

theorem noLeak_iff : NoLeak w ↔ ∀ i, ¬ Leaked w.table w.grabs i := by
  refine forall_congr' fun i ↦ ?_
  rw [← refs_pos, Leaked]
  omega

theorem Counts.noLeak (hc : Counts w.table w.grabs) : NoLeak w := by
  refine noLeak_iff.mpr fun i hi ↦ ?_
  obtain ⟨hpos, hrefs, hg⟩ := hi
  have := hc i
  omega

/-- A release loses its entry exactly where it does not see that the close routine failed. -/
theorem Counts.lost {res : ℤ × Table} (hc : Counts t g) {fd : ℤ} (hr : InInt r)
    (h : ReleaseOutcome net t fd r res) (hrep : ¬ Reports net t fd r) :
    ∃ i, Leaked res.2 g i := by
  cases h with
  | refused h => exact absurd (fun s i h' ↦ by cases h.symm.trans h') hrep
  | shared s i h href =>
    refine absurd (fun s' i' h' href' ↦ ?_) hrep
    obtain ⟨rfl, rfl⟩ := Prod.mk.inj (Option.some.inj (h.symm.trans h'))
    exact absurd href' href
  | closed s i h href hpos => exact absurd (fun _ _ _ _ hneg ↦ by omega) hrep
  | failed s i h href hneg hyes =>
    refine absurd (fun s' i' h' _ _ ↦ ?_) hrep
    obtain ⟨rfl, rfl⟩ := Prod.mk.inj (Option.some.inj (h.symm.trans h'))
    exact hyes hr
  | lost s i h href hneg hno =>
    have := hc i
    have hrefs := refs_clear (openAt_eq_some.mp h).2 i
    rw [if_pos rfl] at hrefs
    have hrefs' : refs (Function.update t.fdmap s none) i = 0 := by omega
    exact ⟨i, href.symm ▸ Int.one_pos, hrefs', by omega⟩

theorem Counts.lost_duplicate2 {res : Option Slot × Table} (hc : Counts t g) {oldfd : ℤ}
    {newfd sl : Slot} {i : Entry} (hr : InInt r) (h : Duplicate2Outcome net t oldfd newfd r res)
    (hopen : openAt t oldfd = some (sl, i)) (hne : sl ≠ newfd)
    (hrep : ¬ Reports net t newfd.val r) : ∃ j, Leaked res.2 g j := by
  cases h with
  | refused h => cases hopen.symm.trans h
  | same i' h => exact absurd (Prod.mk.inj (Option.some.inj (hopen.symm.trans h))).1 hne
  | busy s' i' h hs' res hres hbusy => exact hc.lost hr hres hrep
  | moved s' i' h hs' res hres hfree =>
    obtain ⟨j, hpos, hrefs, hg⟩ := hc.lost hr hres hrep
    have hne' : (s'.val : ℤ) ≠ newfd.val := fun h ↦ hs' (Fin.ext (by omega))
    have hi' : 0 < refs res.2.fdmap i' := refs_pos.mpr
      ⟨s', (releaseDescriptor_fdmap hres hne').trans (openAt_eq_some.mp h).2⟩
    have hij : i' ≠ j := by
      rintro rfl
      omega
    refine ⟨j, ?_, ?_, hg⟩
    · rw [Table.addRef_refCount, if_neg (Ne.symm hij)]
      exact hpos.trans_eq (add_zero _).symm
    · rw [Table.addRef_fdmap, Table.setSlot_fdmap, refs_set hfree, if_neg hij, hrefs]

theorem Counts.lost_drop {res : ℤ × Table} (hc : Counts t g) {i : Entry} (hi : 0 < g i)
    (h : DropOutcome net t i r res) (href : (t.pool i).refCount = 1) (hneg : ¬ 0 ≤ r) :
    Leaked res.2 (Function.update g i (g i - 1)) i := by
  have hcount := hc i
  cases h with
  | shared h => exact absurd href h
  | closed h hr => exact absurd hr hneg
  | failed ret h hr hret =>
    have hrefs : refs t.fdmap i = 0 := by omega
    refine ⟨href.symm ▸ Int.one_pos, hrefs, ?_⟩
    rw [Function.update_self]
    omega

theorem Counts.noLeak_run (hc : Counts w.table w.grabs) (hm : op.Matched w) (hr : op.Answered) :
    NoLeak (op.run net w) ↔ op.Clean net w := by
  refine ⟨fun h ↦ ?_, fun h ↦ (hc.run hm (fun r hmem _ ↦ hr r hmem) h).noLeak⟩
  have hleak := noLeak_iff.mp h
  by_contra hclean
  cases op with
  | acquire => exact hclean trivial
  | fill i uid type => exact hclean trivial
  | duplicate fd minfd => exact hclean trivial
  | grab fd => exact hclean trivial
  | release fd r =>
    obtain ⟨i, hi⟩ := hc.lost (hr r rfl) (releaseDescriptor_outcome net w.table fd r) hclean
    exact hleak i hi
  | duplicate2 oldfd newfd r =>
    simp only [Op.Clean, not_forall] at hclean
    obtain ⟨s, i, hopen, hs, hrep⟩ := hclean
    obtain ⟨j, hj⟩ := hc.lost_duplicate2 (hr r rfl)
      (duplicateDescriptor2_outcome net w.table oldfd newfd r) hopen hs hrep
    exact hleak j hj
  | drop i r =>
    simp only [Op.Clean, not_forall] at hclean
    obtain ⟨href, hneg⟩ := hclean
    exact hleak i (hc.lost_drop hm (fdDrop_outcome net w.table i r) href hneg)

/-- What closing does for every result of the close routine, at one call and in every run. -/
theorem close_all_or_nothing (net : NetErrno → ℤ) :
    (∀ (t : Table) (s : Slot) (i : Entry) (r : ℤ), t.fdmap s = some i → InInt r →
      (AllOrNothing net t s i r ↔
        ((t.pool i).refCount = 1 → r < 0 → Reported net (t.pool i).type r))) ∧
    ∀ w, Reachable net (fun w op ↦ op.Answered ∧ op.Clean net w) w →
      NoLeak w ∧ ∀ op : Op, op.Matched w → op.Answered →
        (NoLeak (op.run net w) ↔ op.Clean net w) := by
  refine ⟨fun t s i r hs hr ↦ allOrNothing_iff hs hr, fun w hw ↦ ?_⟩
  have hc := hw.counts fun h ↦ ⟨fun r hmem _ ↦ h.1 r hmem, h.2⟩
  exact ⟨hc.noLeak, fun op hm hr ↦ hc.noLeak_run hm hr⟩

end

def openFile : World :=
  Op.run 0 (Op.run 0 ⟨initFd 0 1 2, fun _ ↦ 0⟩ .acquire) (.fill 3 7 .FILE)

theorem openFile_reachable :
    Reachable 0 (fun w op ↦ op.Answered ∧ op.Clean 0 w) openFile := by
  refine ⟨0, 1, 2, .tail (.single (.op _ .acquire trivial ⟨?_, trivial⟩))
    (.op _ (.fill 3 7 .FILE) trivial ⟨?_, trivial⟩)⟩
  all_goals simp [Op.Answered, Op.result]

theorem openFile_slot : openFile.table.fdmap 3 = some 3 := by decide +kernel

theorem openFile_entry : openFile.table.pool 3 = ⟨7, .FILE, 1⟩ := by decide +kernel

theorem close_all_or_nothing_openFile :
    AllOrNothing 0 openFile.table 3 3 FiosError.BAD_FH.code ∧
      NoLeak (Op.run 0 openFile (.release 3 FiosError.BAD_FH.code)) := by
  have hr : InInt FiosError.BAD_FH.code := by
    unfold InInt
    decide
  have hrep : Reported 0 (openFile.table.pool 3).type FiosError.BAD_FH.code := by
    rw [openFile_entry]
    exact (reported_other (by decide)).mpr (by decide)
  have hopen : openAt openFile.table 3 = some (3, 3) := openAt_eq_some.mpr ⟨rfl, openFile_slot⟩
  refine ⟨((close_all_or_nothing 0).1 _ 3 3 _ openFile_slot hr).mpr fun _ _ ↦ hrep,
    (((close_all_or_nothing 0).2 _ openFile_reachable).2 (.release 3 FiosError.BAD_FH.code) trivial
      ?_).mpr fun s i h _ _ ↦ ?_⟩
  · rintro r ⟨⟩
    exact hr
  · obtain ⟨rfl, rfl⟩ := Prod.mk.inj (Option.some.inj (hopen.symm.trans h))
    exact hrep

/-- The low byte of `SCE_FIOS_ERROR_UNIMPLEMENTED` is zero, so its negation passes for a success:
the descriptor is gone and its entry stays in use. -/
theorem close_loses_entry :
    ¬ AllOrNothing 0 openFile.table 3 3 FiosError.UNIMPLEMENTED.code ∧
      ¬ NoLeak (Op.run 0 openFile (.release 3 FiosError.UNIMPLEMENTED.code)) := by
  have hret : (releaseDescriptor 0 openFile.table 3 FiosError.UNIMPLEMENTED.code).1 = 0 := by
    decide +kernel
  refine ⟨fun h ↦ ?_, fun h ↦ ?_⟩
  · have hfail := (h.2 (by rw [openFile_entry]) (by decide)).1
    cases hret.symm.trans hfail
  · have hpos : 0 < ((Op.run 0 openFile
        (.release 3 FiosError.UNIMPLEMENTED.code)).table.pool 3).refCount := by decide +kernel
    have hslots : ∀ s, (Op.run 0 openFile
        (.release 3 FiosError.UNIMPLEMENTED.code)).table.fdmap s ≠ some 3 := by decide +kernel
    rcases h 3 hpos with ⟨s, hs⟩ | hg
    · exact hslots s hs
    · cases hg

end SceLibcPosix.Descriptor
