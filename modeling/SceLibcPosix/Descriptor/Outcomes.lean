import SceLibcPosix.Descriptor.Table

namespace SceLibcPosix.Descriptor

open Errno VitaError

variable {net : NetErrno → ℤ} {t : Table} {i : Entry} {s : Slot} {fd r : ℤ}

@[simp] theorem Table.unlock_lock (t : Table) : t.lock.unlock = t := rfl

@[simp] theorem Table.addRef_fdmap (n : ℤ) : (t.addRef i n).fdmap = t.fdmap := rfl

@[simp] theorem Table.addRef_calls (n : ℤ) : (t.addRef i n).calls = t.calls := rfl

@[simp] theorem Table.addRef_held (n : ℤ) : (t.addRef i n).held = t.held := rfl

@[simp] theorem Table.addRef_refCount (n : ℤ) (j : Entry) : ((t.addRef i n).pool j).refCount =
    (t.pool j).refCount + if j = i then n else 0 := by
  by_cases h : j = i
  · subst h
    simp [addRef]
  · simp [addRef, h]

def InInt (r : ℤ) : Prop := -2 ^ 31 ≤ r ∧ r < 2 ^ 31

structure FirstFree (t : Table) (min : ℤ) (s : Slot) : Prop where
  above : min ≤ s.val
  free : t.fdmap s = none
  least : ∀ s', min ≤ s'.val → s' < s → t.fdmap s' ≠ none

theorem mem_slotsFrom {min : ℤ} : s ∈ slotsFrom min ↔ min ≤ s.val := by
  simp [slotsFrom]

theorem firstFree_of_split {min : ℤ} {before after : List Slot}
    (h : slotsFrom min = before ++ s :: after) (hs : t.fdmap s = none)
    (hb : ∀ s' ∈ before, t.fdmap s' ≠ none) : FirstFree t min s := by
  have hsorted : (slotsFrom min).Pairwise (· < ·) :=
    (List.pairwise_lt_finRange MAX_OPEN_FILES).filter _
  rw [h, List.pairwise_append] at hsorted
  refine ⟨mem_slotsFrom.mp (h ▸ by simp), hs, fun s' hmin hlt ↦ ?_⟩
  have hmem : s' ∈ before ++ s :: after := h ▸ mem_slotsFrom.mpr hmin
  rcases List.mem_append.mp hmem with hm | hm
  · exact hb s' hm
  · rcases List.mem_cons.mp hm with rfl | hm
    · exact absurd hlt (lt_irrefl _)
    · exact absurd hlt ((List.pairwise_cons.mp hsorted.2.1).1 s' hm).asymm

theorem openAt_eq_some : openAt t fd = some (s, i) ↔ fd = s.val ∧ t.fdmap s = some i := by
  unfold openAt slotOf
  split
  · next h =>
    simp only [Option.bind_some, Option.map_eq_some_iff, Prod.mk.injEq]
    constructor
    · rintro ⟨j, hj, rfl, rfl⟩
      exact ⟨by simp; omega, hj⟩
    · rintro ⟨rfl, hi⟩
      exact ⟨i, by simpa using hi, by simp, rfl⟩
  · next h =>
    simp only [Option.bind_none, reduceCtorEq, false_iff, not_and]
    intro hs
    have := s.isLt
    omega

theorem openAt_slot : openAt t s.val = none ↔ t.fdmap s = none := by
  rw [Option.eq_none_iff_forall_ne_some, Option.eq_none_iff_forall_ne_some]
  constructor
  · intro h i hi
    exact h (s, i) (openAt_eq_some.mpr ⟨rfl, hi⟩)
  · rintro h ⟨s', i⟩ hi
    obtain ⟨hs, hi⟩ := openAt_eq_some.mp hi
    obtain rfl : s = s' := Fin.ext (by omega)
    exact h i hi

inductive AcquireOutcome (t : Table) : Option Slot × Table → Prop
  | full (h : (∀ s : Slot, 3 ≤ s.val → t.fdmap s ≠ none) ∨ ∀ i, (t.pool i).refCount ≠ 0) :
    AcquireOutcome t (none, t)
  | taken (s : Slot) (i : Entry) (hs : FirstFree t 3 s) (hi : (t.pool i).refCount = 0) :
    AcquireOutcome t
      (some s, (t.setSlot s (some i)).setEntry i { t.pool i with refCount := 1 })

theorem acquireDescriptor_outcome (t : Table) : AcquireOutcome t (acquireDescriptor t) := by
  unfold acquireDescriptor
  extract_lets t₁ found
  cases hfound : found with
  | none =>
    refine .full ?_
    have hall := List.findSome?_eq_none_iff.mp hfound
    by_contra hno
    push Not at hno
    obtain ⟨⟨s, hs, hfree⟩, i, hi⟩ := hno
    have hnone := hall s (mem_slotsFrom.mpr (by omega))
    rw [if_pos (show t₁.fdmap s = none from hfree), Option.map_eq_none_iff,
      List.find?_eq_none] at hnone
    exact hnone i (List.mem_finRange i) (decide_eq_true hi)
  | some p =>
    obtain ⟨fd, i⟩ := p
    obtain ⟨before, s, after, hsplit, hs, hbefore⟩ := List.findSome?_eq_some_iff.mp hfound
    by_cases hfree : t₁.fdmap s = none
    · rw [if_pos hfree, Option.map_eq_some_iff] at hs
      obtain ⟨j, hj, hfd⟩ := hs
      obtain ⟨rfl, rfl⟩ := Prod.mk.inj hfd
      have hzero := List.find?_some hj
      refine .taken s j (firstFree_of_split hsplit hfree fun s' hs' hnone ↦ ?_)
        (of_decide_eq_true hzero)
      have := hbefore s' hs'
      rw [if_pos (show t₁.fdmap s' = none from hnone), hj] at this
      cases this
    · rw [if_neg hfree] at hs
      cases hs

/-- The failures of a close routine that `__fd_drop` reports by a negative number. It negates the
low byte of a code, or the error number that a socket's code is translated to. -/
def Reported (net : NetErrno → ℤ) (type : DescriptorTypes) (r : ℤ) : Prop :=
  if type = .SOCKET then (∃ c ∈ netCases, net c.1 = r % 256) ∨ r = -2 ^ 31 else r % 256 ≠ 0

theorem reported_socket {type : DescriptorTypes} (h : type = .SOCKET) :
    Reported net type r ↔ (∃ c ∈ netCases, net c.1 = r % 256) ∨ r = -2 ^ 31 := by
  rw [Reported, if_pos h]

theorem reported_other {type : DescriptorTypes} (h : type ≠ .SOCKET) :
    Reported net type r ↔ r % 256 ≠ 0 := by
  rw [Reported, if_neg h]

theorem netCases_pos : ∀ c ∈ netCases, 0 < c.2 ∧ c.2 < 2 ^ 31 := by decide

theorem negInt_neg {x : ℤ} (h : 0 < x) (hx : x < 2 ^ 31) : negInt x = -x :=
  Int.bmod_eq_of_le (by omega) (by omega)

theorem negInt_scenet (hr : InInt r) (hneg : r < 0) :
    negInt (scenetErrnoToErrno net r) < 0 ↔
      (∃ c ∈ netCases, net c.1 = r % 256) ∨ r = -2 ^ 31 := by
  unfold scenetErrnoToErrno
  cases hfind : netCases.find? fun c ↦ net c.1 = r % 256 with
  | some c =>
    have hc := List.mem_of_find?_eq_some hfind
    have hnet := List.find?_some hfind
    have hpos := netCases_pos c hc
    rw [Option.map_some, Option.getD_some, negInt_neg hpos.1 hpos.2]
    exact iff_of_true (by omega) (.inl ⟨c, hc, by simpa using hnet⟩)
  | none =>
    have hno : ¬ ∃ c ∈ netCases, net c.1 = r % 256 := by
      simpa [List.find?_eq_none] using hfind
    rw [Option.map_none, Option.getD_none, or_iff_right hno]
    by_cases hmin : r = -2 ^ 31
    · exact iff_of_true (by subst hmin; decide) hmin
    · have hle : -2 ^ 31 ≤ r := hr.1
      have : negInt r = -r := Int.bmod_eq_of_le (by omega) (by omega)
      exact iff_of_false (by omega) hmin

theorem negInt_generic :
    negInt (sceErrnoToErrno net r .GENERIC) < 0 ↔ r % 256 ≠ 0 := by
  have := Int.emod_nonneg r (by decide : (256 : ℤ) ≠ 0)
  have := Int.emod_lt_of_pos r (by decide : (0 : ℤ) < 256)
  change negInt (r % 256) < 0 ↔ _
  rw [negInt, Int.bmod_eq_of_le (by omega) (by omega)]
  omega

inductive DropOutcome (net : NetErrno → ℤ) (t : Table) (i : Entry) (r : ℤ) : ℤ × Table → Prop
  | shared (h : (t.pool i).refCount ≠ 1) : DropOutcome net t i r (0, t.addRef i (-1))
  | closed (h : (t.pool i).refCount = 1) (hr : 0 ≤ r) :
    DropOutcome net t i r (0, (t.call (.close (t.pool i).object r)).setEntry i {})
  | failed (ret : ℤ) (h : (t.pool i).refCount = 1) (hr : r < 0)
    (hret : InInt r → (ret < 0 ↔ Reported net (t.pool i).type r)) :
    DropOutcome net t i r (ret, t.call (.close (t.pool i).object r))

theorem fdDrop_outcome (net : NetErrno → ℤ) (t : Table) (i : Entry) (r : ℤ) :
    DropOutcome net t i r (fdDrop net t i r) := by
  unfold fdDrop
  extract_lets t₁ map t₂
  by_cases h : map.refCount = 1
  · rw [if_pos h]
    by_cases hsock : map.type = .SOCKET ∧ r < 0
    · rw [if_pos hsock]
      exact .failed _ h hsock.2 fun hr ↦
        (negInt_scenet hr hsock.2).trans (reported_socket hsock.1).symm
    · rw [if_neg hsock]
      by_cases hr : r < 0
      · rw [if_pos hr]
        exact .failed _ h hr fun _ ↦
          negInt_generic.trans (reported_other fun htype ↦ hsock ⟨htype, hr⟩).symm
      · rw [if_neg hr]
        exact .closed h (by omega)
  · rw [if_neg h]
    exact .shared h

theorem addRef_neg (i : Entry) (n : ℤ) : (t.addRef i n).addRef i (-n) = t := by
  have hentry : ({ t.pool i with refCount := (t.pool i).refCount + n + -n } :
      DescriptorTranslation) = t.pool i := by
    rw [Int.add_neg_cancel_right]
  simp only [Table.addRef, Table.setEntry, Function.update_self,
    Function.update_idem, hentry, Function.update_eq_self]

theorem fdDrop_grabbed (hi : 0 < (t.pool i).refCount) :
    (fdDrop net (t.addRef i 1) i r).2 = t := by
  have hne : ((t.addRef i 1).pool i).refCount ≠ 1 := by
    rw [Table.addRef_refCount, if_pos rfl]
    omega
  have hout := fdDrop_outcome net (t.addRef i 1) i r
  generalize fdDrop net (t.addRef i 1) i r = res at hout ⊢
  cases hout with
  | shared => exact addRef_neg i 1
  | closed h => exact absurd h hne
  | failed ret h => exact absurd h hne

/-- What `__release_descriptor` can do. In the last case the entry loses its slot although it has
kept its reference. -/
inductive ReleaseOutcome (net : NetErrno → ℤ) (t : Table) (fd r : ℤ) : ℤ × Table → Prop
  | refused (h : openAt t fd = none) : ReleaseOutcome net t fd r (-1, t)
  | shared (s : Slot) (i : Entry) (h : openAt t fd = some (s, i))
    (href : (t.pool i).refCount ≠ 1) :
    ReleaseOutcome net t fd r (0, (t.addRef i (-1)).setSlot s none)
  | closed (s : Slot) (i : Entry) (h : openAt t fd = some (s, i))
    (href : (t.pool i).refCount = 1) (hr : 0 ≤ r) :
    ReleaseOutcome net t fd r
      (0, ((t.call (.close (t.pool i).object r)).setEntry i {}).setSlot s none)
  | failed (s : Slot) (i : Entry) (h : openAt t fd = some (s, i))
    (href : (t.pool i).refCount = 1) (hr : r < 0)
    (hrep : InInt r → Reported net (t.pool i).type r) :
    ReleaseOutcome net t fd r (-1, t.call (.close (t.pool i).object r))
  | lost (s : Slot) (i : Entry) (h : openAt t fd = some (s, i))
    (href : (t.pool i).refCount = 1) (hr : r < 0)
    (hrep : InInt r → ¬ Reported net (t.pool i).type r) :
    ReleaseOutcome net t fd r (0, (t.call (.close (t.pool i).object r)).setSlot s none)

theorem releaseDescriptor_outcome (net : NetErrno → ℤ) (t : Table) (fd r : ℤ) :
    ReleaseOutcome net t fd r (releaseDescriptor net t fd r) := by
  unfold releaseDescriptor
  extract_lets t₁
  cases hopen : openAt t₁ fd with
  | none => exact .refused hopen
  | some p =>
    obtain ⟨s, i⟩ := p
    have hout := fdDrop_outcome net t₁ i r
    dsimp only
    generalize fdDrop net t₁ i r = res at hout ⊢
    cases hout with
    | shared href =>
      rw [if_pos le_rfl]
      exact .shared s i hopen href
    | closed href hr =>
      rw [if_pos le_rfl]
      exact .closed s i hopen href hr
    | failed ret href hr hret =>
      by_cases hneg : 0 ≤ ret
      · rw [if_pos hneg]
        exact .lost s i hopen href hr fun h32 hrep ↦ by
          have := (hret h32).mpr hrep
          omega
      · rw [if_neg hneg]
        exact .failed s i hopen href hr fun h32 ↦ (hret h32).mp (by omega)

inductive DuplicateOutcome (t : Table) (fd minfd : ℤ) : Except (Option ℤ) Slot × Table → Prop
  | refused (h : openAt t fd = none) : DuplicateOutcome t fd minfd (.error none, t)
  | full (s : Slot) (i : Entry) (h : openAt t fd = some (s, i))
    (hfull : ∀ s' : Slot, max 3 minfd ≤ s'.val → t.fdmap s' ≠ none) :
    DuplicateOutcome t fd minfd (.error (some EMFILE), t)
  | shared (s : Slot) (i : Entry) (h : openAt t fd = some (s, i)) (s' : Slot)
    (hs' : FirstFree t (max 3 minfd) s') :
    DuplicateOutcome t fd minfd (.ok s', (t.setSlot s' (some i)).addRef i 1)

theorem duplicateDescriptor_outcome (t : Table) (fd minfd : ℤ) :
    DuplicateOutcome t fd minfd (duplicateDescriptor t fd minfd) := by
  unfold duplicateDescriptor
  extract_lets t₁ min
  cases hopen : openAt t₁ fd with
  | none => exact .refused hopen
  | some p =>
    obtain ⟨s, i⟩ := p
    replace hopen : openAt t fd = some (s, i) := hopen
    have hmin : min = max 3 minfd := by simp only [min]; omega
    dsimp only
    rw [hmin]
    cases hfind : (slotsFrom (max 3 minfd)).find? fun fd2 ↦ t₁.fdmap fd2 = none with
    | none =>
      refine .full s i hopen fun s' hs' hnone ↦ ?_
      exact List.find?_eq_none.mp hfind s' (mem_slotsFrom.mpr hs') (decide_eq_true hnone)
    | some s' =>
      obtain ⟨hfree, before, after, hsplit, hbefore⟩ := List.find?_eq_some_iff_append.mp hfind
      have hfirst : FirstFree t₁ (max 3 minfd) s' :=
        firstFree_of_split hsplit (of_decide_eq_true hfree) fun s'' hs'' ↦ by
          simpa only [Bool.not_eq_true', decide_eq_false_iff_not] using hbefore s'' hs''
      exact .shared s i hopen s' ⟨hfirst.above, hfirst.free, hfirst.least⟩

theorem releaseDescriptor_fdmap {res : ℤ × Table} (h : ReleaseOutcome net t fd r res)
    (hs : (s.val : ℤ) ≠ fd) : res.2.fdmap s = t.fdmap s := by
  cases h with
  | refused => rfl
  | failed => rfl
  | shared s' i hopen =>
    obtain ⟨hfd, -⟩ := openAt_eq_some.mp hopen
    exact Function.update_of_ne (by rintro rfl; exact hs hfd.symm) _ _
  | closed s' i hopen =>
    obtain ⟨hfd, -⟩ := openAt_eq_some.mp hopen
    exact Function.update_of_ne (by rintro rfl; exact hs hfd.symm) _ _
  | lost s' i hopen =>
    obtain ⟨hfd, -⟩ := openAt_eq_some.mp hopen
    exact Function.update_of_ne (by rintro rfl; exact hs hfd.symm) _ _

theorem ReleaseOutcome.unlock {res : ℤ × Table} (h : ReleaseOutcome net t.lock fd r res) :
    ReleaseOutcome net t fd r (res.1, res.2.unlock) := by
  cases h with
  | refused h => exact .refused h
  | shared s i h href => exact .shared s i h href
  | closed s i h href hr => exact .closed s i h href hr
  | failed s i h href hr hrep => exact .failed s i h href hr hrep
  | lost s i h href hr hrep => exact .lost s i h href hr hrep

inductive Duplicate2Outcome (net : NetErrno → ℤ) (t : Table) (oldfd : ℤ) (newfd : Slot) (r : ℤ) :
    Option Slot × Table → Prop
  | refused (h : openAt t oldfd = none) : Duplicate2Outcome net t oldfd newfd r (none, t)
  | same (i : Entry) (h : openAt t oldfd = some (newfd, i)) :
    Duplicate2Outcome net t oldfd newfd r (some newfd, t.lock)
  | busy (s : Slot) (i : Entry) (h : openAt t oldfd = some (s, i)) (hs : s ≠ newfd)
    (res : ℤ × Table) (hres : ReleaseOutcome net t newfd.val r res)
    (hbusy : res.2.fdmap newfd ≠ none) : Duplicate2Outcome net t oldfd newfd r (none, res.2)
  | moved (s : Slot) (i : Entry) (h : openAt t oldfd = some (s, i)) (hs : s ≠ newfd)
    (res : ℤ × Table) (hres : ReleaseOutcome net t newfd.val r res)
    (hfree : res.2.fdmap newfd = none) :
    Duplicate2Outcome net t oldfd newfd r
      (some newfd, (res.2.setSlot newfd (some i)).addRef i 1)

theorem duplicateDescriptor2_outcome (net : NetErrno → ℤ) (t : Table) (oldfd : ℤ) (newfd : Slot)
    (r : ℤ) : Duplicate2Outcome net t oldfd newfd r (duplicateDescriptor2 net t oldfd newfd r) := by
  unfold duplicateDescriptor2
  extract_lets t₁ t₂
  cases hopen : openAt t₁ oldfd with
  | none => exact .refused hopen
  | some p =>
    obtain ⟨s, i⟩ := p
    replace hopen : openAt t oldfd = some (s, i) := hopen
    dsimp only
    by_cases hs : s = newfd
    · subst hs
      rw [if_pos rfl]
      exact .same i hopen
    · rw [if_neg hs]
      obtain ⟨ret, hout⟩ : ∃ ret, ReleaseOutcome net t newfd.val r (ret, t₂.unlock) :=
        ⟨_, (releaseDescriptor_outcome net t₁ newfd.val r).unlock⟩
      have hne : (s.val : ℤ) ≠ newfd.val := fun h ↦ hs (Fin.ext (by omega))
      have hi : t₂.fdmap s = some i := by
        rw [releaseDescriptor_fdmap (releaseDescriptor_outcome net t₁ newfd.val r) hne]
        exact (openAt_eq_some.mp hopen).2
      clear_value t₂
      rw [hi]
      cases hfree : t₂.fdmap newfd with
      | none => exact .moved s i hopen hs (ret, t₂.unlock) hout hfree
      | some j => exact .busy s i hopen hs (ret, t₂.unlock) hout fun h ↦ by cases hfree.symm.trans h

inductive GrabOutcome (t : Table) (fd : ℤ) : Option Entry × Table → Prop
  | refused (h : openAt t fd = none) : GrabOutcome t fd (none, t)
  | grabbed (s : Slot) (i : Entry) (h : openAt t fd = some (s, i)) :
    GrabOutcome t fd (some i, t.addRef i 1)

theorem fdGrab_outcome (t : Table) (fd : ℤ) : GrabOutcome t fd (fdGrab t fd) := by
  unfold fdGrab
  extract_lets t₁
  cases hopen : openAt t₁ fd with
  | none => exact .refused hopen
  | some p => exact .grabbed p.1 p.2 hopen

theorem fdGrab_open (h : openAt t fd = some (s, i)) : fdGrab t fd = (some i, t.addRef i 1) := by
  have hout := fdGrab_outcome t fd
  generalize fdGrab t fd = res at hout ⊢
  cases hout with
  | refused hno => cases h.symm.trans hno
  | grabbed s' i' h' =>
    cases h.symm.trans h'
    rfl

theorem fdGrab_closed (h : openAt t fd = none) : fdGrab t fd = (none, t) := by
  have hout := fdGrab_outcome t fd
  generalize fdGrab t fd = res at hout ⊢
  cases hout with
  | refused => rfl
  | grabbed s' i' h' => cases h.symm.trans h'

end SceLibcPosix.Descriptor
