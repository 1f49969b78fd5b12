import SceLibcPosix.Descriptor.Runs

namespace SceLibcPosix.Descriptor

open VitaError References

/-- No reference to an entry is missing from its count, and an entry out of use has been cleared. -/
structure Covers (t : Table) (g : Entry → ℕ) : Prop where
  count : ∀ i, refs t.fdmap i + g i ≤ (t.pool i).refCount
  clear : ∀ i, (t.pool i).refCount = 0 → t.pool i = {}

/-- What an operation leaves alone that has named some slots and dropped some entries. -/
structure Frame (named : Slot → Prop) (dropped : Entry → Prop) (t t' : Table) : Prop where
  slot : ∀ s, ¬ named s → t.fdmap s ≠ none → t'.fdmap s = t.fdmap s
  target : ∀ s i, t'.fdmap s = some i → t.fdmap s = some i ∨ ∃ s', named s' ∧ t.fdmap s' = some i
  entry : ∀ i, ¬ dropped i → (∀ s, named s → t.fdmap s ≠ some i) → t'.pool i = t.pool i
  object : ∀ s i, t'.fdmap s = some i → (t'.pool i).sceUid = (t.pool i).sceUid ∧
    (t'.pool i).type = (t.pool i).type
  calls : t.calls ⊆ t'.calls

section

variable {net : NetErrno → ℤ} {t t' t'' : Table} {g : Entry → ℕ} {i : Entry} {s : Slot}
  {fd r : ℤ} {named : Slot → Prop} {dropped : Entry → Prop}

theorem covers_initFd (a b c : ℤ) : Covers (initFd a b c) fun _ ↦ 0 where
  count i := (counts_initFd a b c i).ge
  clear i := by
    unfold initFd
    dsimp only
    split <;> simp

theorem Covers.slot_pos (hc : Covers t g) (h : t.fdmap s = some i) :
    1 + g i ≤ (t.pool i).refCount := by
  have := hc.count i
  have := refs_pos.mpr ⟨s, h⟩
  omega

theorem Table.addRef_pool_of_ne {n : ℤ} {j : Entry} (h : j ≠ i) :
    (t.addRef i n).pool j = t.pool j :=
  Function.update_of_ne h _ _

theorem Table.addRef_object (n : ℤ) (j : Entry) :
    ((t.addRef i n).pool j).sceUid = (t.pool j).sceUid ∧
      ((t.addRef i n).pool j).type = (t.pool j).type := by
  by_cases h : j = i
  · subst h
    simp [Table.addRef]
  · rw [Table.addRef_pool_of_ne h]
    exact ⟨rfl, rfl⟩

theorem Covers.addRef (hc : Covers t g) {n : ℤ} {g' : Entry → ℕ} {f : Slot → Option Entry}
    (hi : refs f i + g' i ≤ (t.pool i).refCount + n) (hpos : (t.pool i).refCount + n ≠ 0)
    (hrest : ∀ j, j ≠ i → refs f j + g' j ≤ refs t.fdmap j + g j) :
    Covers { t.addRef i n with fdmap := f } g' where
  count j := by
    change (refs f j + g' j : ℤ) ≤ ((t.addRef i n).pool j).refCount
    rw [Table.addRef_refCount]
    by_cases h : j = i
    · subst h
      rwa [if_pos rfl]
    · have := hc.count j
      have := hrest j h
      rw [if_neg h]
      omega
  clear j hj := by
    change ((t.addRef i n).pool j).refCount = 0 at hj
    change (t.addRef i n).pool j = {}
    by_cases h : j = i
    · subst h
      rw [Table.addRef_refCount, if_pos rfl] at hj
      exact absurd hj hpos
    · rw [Table.addRef_pool_of_ne h] at hj ⊢
      exact hc.clear j hj

theorem Covers.cleared (hc : Covers t g) {g' : Entry → ℕ} {f : Slot → Option Entry}
    {calls : List KernelCall} (hi : refs f i + g' i = 0)
    (hrest : ∀ j, j ≠ i → refs f j + g' j ≤ refs t.fdmap j + g j) :
    Covers { t.setEntry i {} with fdmap := f, calls := calls } g' where
  count j := by
    change (refs f j + g' j : ℤ) ≤ ((Function.update t.pool i {}) j).refCount
    by_cases h : j = i
    · subst h
      rw [Function.update_self]
      dsimp only
      omega
    · have := hc.count j
      have := hrest j h
      rw [Function.update_of_ne h]
      omega
  clear j hj := by
    change Function.update t.pool i {} j = {}
    by_cases h : j = i
    · subst h
      exact Function.update_self _ _ _
    · change ((Function.update t.pool i {}) j).refCount = 0 at hj
      rw [Function.update_of_ne h] at hj ⊢
      exact hc.clear j hj

theorem Covers.refill (hc : Covers t g) {d : DescriptorTranslation}
    (hd : d.refCount = (t.pool i).refCount) (hpos : d.refCount ≠ 0) :
    Covers (t.setEntry i d) g where
  count j := by
    have := hc.count j
    by_cases h : j = i
    · subst h
      rw [Table.setEntry_pool, Function.update_self, hd]
      exact this
    · rw [Table.setEntry_pool, Function.update_of_ne h]
      exact this
  clear j hj := by
    by_cases h : j = i
    · subst h
      rw [Table.setEntry_pool, Function.update_self] at hj
      exact absurd hj hpos
    · rw [Table.setEntry_pool, Function.update_of_ne h] at hj ⊢
      exact hc.clear j hj

theorem Covers.fewer (hc : Covers t g) {g' : Entry → ℕ} {f : Slot → Option Entry}
    {calls : List KernelCall} {held : ℕ} (hle : ∀ j, refs f j + g' j ≤ refs t.fdmap j + g j) :
    Covers ⟨f, t.pool, held, calls⟩ g' where
  count j := by
    have := hc.count j
    have := hle j
    dsimp only
    omega
  clear := hc.clear

theorem Covers.release (hc : Covers t g) {res : ℤ × Table} (h : ReleaseOutcome net t fd r res) :
    Covers res.2 g := by
  cases h with
  | refused => exact hc
  | failed => exact hc.fewer fun _ ↦ le_rfl
  | lost s i h href hr hno =>
    refine hc.fewer (f := Function.update t.fdmap s none) fun j ↦ ?_
    have := refs_clear (openAt_eq_some.mp h).2 j
    omega
  | shared s i h href =>
    have hslot := (openAt_eq_some.mp h).2
    have hi := refs_clear hslot i
    have hpos := hc.slot_pos hslot
    have hcount := hc.count i
    rw [if_pos rfl] at hi
    refine hc.addRef (f := Function.update t.fdmap s none) (by omega) (by omega) fun j hj ↦ ?_
    have := refs_clear hslot j
    omega
  | closed s i h href hr =>
    have hslot := (openAt_eq_some.mp h).2
    have hi := refs_clear hslot i
    have hcount := hc.count i
    rw [if_pos rfl] at hi
    refine hc.cleared (f := Function.update t.fdmap s none) (by omega) fun j hj ↦ ?_
    have := refs_clear hslot j
    omega

theorem Covers.share (hc : Covers t g) (hs : t.fdmap s = none) (hi : 0 < (t.pool i).refCount) :
    Covers ((t.setSlot s (some i)).addRef i 1) g := by
  have hcount := hc.count i
  have hset := refs_set hs i
  refine hc.addRef (f := Function.update t.fdmap s (some i)) ?_ (by omega) fun j hj ↦ ?_
  · rw [hset i, if_pos rfl]
    omega
  · rw [hset j, if_neg (Ne.symm hj)]
    omega

theorem Covers.duplicate (hc : Covers t g) {minfd : ℤ} {res : Except (Option ℤ) Slot × Table}
    (h : DuplicateOutcome t fd minfd res) : Covers res.2 g := by
  cases h with
  | refused => exact hc
  | full => exact hc
  | shared s i h s' hs' =>
    have := hc.slot_pos (openAt_eq_some.mp h).2
    exact hc.share hs'.free (by omega)

theorem Covers.duplicate2 (hc : Covers t g) {newfd : Slot} {res : Option Slot × Table}
    (h : Duplicate2Outcome net t fd newfd r res) : Covers res.2 g := by
  cases h with
  | refused => exact hc
  | same => exact hc.fewer fun _ ↦ le_rfl
  | busy s i h hs res hres => exact hc.release hres
  | moved s i h hs res hres hfree =>
    have hr := hc.release hres
    obtain ⟨hfd, hi⟩ := openAt_eq_some.mp h
    have hne : (s.val : ℤ) ≠ newfd.val := fun h ↦ hs (Fin.ext (by omega))
    have := hr.slot_pos ((releaseDescriptor_fdmap hres hne).trans hi)
    exact hr.share hfree (by omega)

theorem Covers.grab (hc : Covers t g) (h : t.fdmap s = some i) :
    Covers (t.addRef i 1) (Function.update g i (g i + 1)) := by
  have hcount := hc.count i
  have := hc.slot_pos h
  refine hc.addRef ?_ (by omega) fun j hj ↦ ?_
  · rw [Function.update_self]
    omega
  · rw [Function.update_of_ne hj]

theorem Covers.drop (hc : Covers t g) (hg : 0 < g i) {res : ℤ × Table}
    (h : DropOutcome net t i r res) : Covers res.2 (Function.update g i (g i - 1)) := by
  have hcount := hc.count i
  have hrest : ∀ j, j ≠ i → refs t.fdmap j + Function.update g i (g i - 1) j ≤
      refs t.fdmap j + g j := by
    intro j hj
    rw [Function.update_of_ne hj]
  cases h with
  | shared href =>
    refine hc.addRef ?_ (by omega) hrest
    rw [Function.update_self]
    omega
  | closed href hr =>
    refine hc.cleared (f := t.fdmap) ?_ hrest
    rw [Function.update_self]
    omega
  | failed ret href hr =>
    refine hc.fewer fun j ↦ ?_
    by_cases h : j = i
    · subst h
      rw [Function.update_self]
      omega
    · exact hrest j h

theorem Covers.taken (hc : Covers t g) (hs : t.fdmap s = none) (hi : (t.pool i).refCount = 0) :
    Covers ((t.setSlot s (some i)).setEntry i { t.pool i with refCount := 1 }) g := by
  have hcount := hc.count i
  have hset := refs_set hs i
  have heq : (t.setSlot s (some i)).setEntry i { t.pool i with refCount := 1 } =
      { t.addRef i 1 with fdmap := Function.update t.fdmap s (some i) } := by
    rw [Table.addRef, hi]
    rfl
  rw [heq]
  refine hc.addRef ?_ (by omega) fun j hj ↦ ?_
  · rw [hset i, if_pos rfl]
    omega
  · rw [hset j, if_neg (Ne.symm hj)]
    omega

theorem Frame.refl (t : Table) : Frame named dropped t t :=
  ⟨fun _ _ _ ↦ rfl, fun _ _ h ↦ .inl h, fun _ _ _ ↦ rfl, fun _ _ _ ↦ ⟨rfl, rfl⟩,
    List.Subset.refl _⟩

theorem Frame.trans (h : Frame named dropped t t') (h' : Frame named dropped t' t'') :
    Frame named dropped t t'' where
  slot s hs hne := by
    have heq := h.slot s hs hne
    exact (h'.slot s hs (heq ▸ hne)).trans heq
  target s i hi := by
    rcases h'.target s i hi with hi | ⟨s', hs', hi⟩
    · exact h.target s i hi
    · rcases h.target s' i hi with hi | hi
      · exact .inr ⟨s', hs', hi⟩
      · exact .inr hi
  entry i hi hno := by
    refine (h'.entry i hi fun s hs hsi ↦ ?_).trans (h.entry i hi hno)
    rcases h.target s i hsi with hsi | ⟨s', hs', hsi⟩
    · exact hno s hs hsi
    · exact hno s' hs' hsi
  object s i hi := by
    obtain ⟨huid, htype⟩ := h'.object s i hi
    obtain ⟨s', hs'⟩ : ∃ s', t'.fdmap s' = some i := by
      rcases h'.target s i hi with hi | ⟨s', -, hi⟩
      · exact ⟨s, hi⟩
      · exact ⟨s', hi⟩
    obtain ⟨huid', htype'⟩ := h.object s' i hs'
    exact ⟨huid.trans huid', htype.trans htype'⟩
  calls := List.Subset.trans h.calls h'.calls

theorem frame_release (hc : Covers t g) {res : ℤ × Table} (h : ReleaseOutcome net t fd r res)
    (hfd : ∀ s : Slot, fd = s.val → named s) : Frame named dropped t res.2 := by
  have hslot : ∀ s, ¬ named s → t.fdmap s ≠ none → res.2.fdmap s = t.fdmap s :=
    fun s hs _ ↦ releaseDescriptor_fdmap h fun heq ↦ hs (hfd s heq.symm)
  have hclear : ∀ {s₀ s : Slot} {i : Entry},
      Function.update t.fdmap s₀ none s = some i → t.fdmap s = some i := by
    intro s₀ s i hi
    by_cases hs : s = s₀
    · subst hs
      rw [Function.update_self] at hi
      cases hi
    · rwa [Function.update_of_ne hs] at hi
  cases h with
  | refused => exact .refl t
  | failed => exact ⟨hslot, fun _ _ h ↦ .inl h, fun _ _ _ ↦ rfl, fun _ _ _ ↦ ⟨rfl, rfl⟩,
      List.subset_cons_self _ _⟩
  | lost => exact ⟨hslot, fun _ _ h ↦ .inl (hclear h), fun _ _ _ ↦ rfl, fun _ _ _ ↦ ⟨rfl, rfl⟩,
      List.subset_cons_self _ _⟩
  | shared s₀ i₀ h href =>
    obtain ⟨hs₀, hi₀⟩ := openAt_eq_some.mp h
    refine ⟨hslot, fun _ _ h ↦ .inl (hclear h), fun i _ hi ↦ ?_,
      fun _ i _ ↦ Table.addRef_object (-1) i, List.Subset.refl _⟩
    apply Table.addRef_pool_of_ne
    rintro rfl
    exact hi s₀ (hfd s₀ hs₀) hi₀
  | closed s₀ i₀ h href hr =>
    obtain ⟨hs₀, hi₀⟩ := openAt_eq_some.mp h
    refine ⟨hslot, fun _ _ h ↦ .inl (hclear h), fun i _ hi ↦ ?_, fun s i hi ↦ ?_,
      List.subset_cons_self _ _⟩
    · apply Function.update_of_ne
      rintro rfl
      exact hi s₀ (hfd s₀ hs₀) hi₀
    · have hne : i ≠ i₀ := by
        rintro rfl
        have hzero := refs_clear hi₀ i
        have hpos : 0 < refs (Function.update t.fdmap s₀ none) i := refs_pos.mpr ⟨s, hi⟩
        have hcount := hc.count i
        rw [if_pos rfl] at hzero
        omega
      have heq : Function.update t.pool i₀ {} i = t.pool i := Function.update_of_ne hne _ _
      exact ⟨congrArg _ heq, congrArg _ heq⟩

/-- A free slot takes over the target of a named one. -/
theorem frame_share {s' : Slot} (hs' : t.fdmap s' = none) (hs : named s) (hi : t.fdmap s = some i) :
    Frame named dropped t ((t.setSlot s' (some i)).addRef i 1) where
  slot s₁ _ hne := by
    have hne' : s₁ ≠ s' := by
      rintro rfl
      exact hne hs'
    exact Function.update_of_ne hne' _ _
  target s₁ i₁ h := by
    by_cases heq : s₁ = s'
    · subst heq
      have hself : ((t.setSlot s₁ (some i)).addRef i 1).fdmap s₁ = some i :=
        Function.update_self _ _ _
      exact .inr ⟨s, hs, hi.trans (hself.symm.trans h)⟩
    · have hother : ((t.setSlot s' (some i)).addRef i 1).fdmap s₁ = t.fdmap s₁ :=
        Function.update_of_ne heq _ _
      exact .inl (hother.symm.trans h)
  entry i₁ _ hno := by
    refine Table.addRef_pool_of_ne (t := t.setSlot s' (some i)) ?_
    rintro rfl
    exact hno s hs hi
  object _ i₁ _ := Table.addRef_object (t := t.setSlot s' (some i)) 1 i₁
  calls := List.Subset.refl _

theorem frame_duplicate {minfd : ℤ} {res : Except (Option ℤ) Slot × Table}
    (h : DuplicateOutcome t fd minfd res) (hfd : ∀ s : Slot, fd = s.val → named s) :
    Frame named dropped t res.2 := by
  cases h with
  | refused => exact .refl t
  | full => exact .refl t
  | shared s i h s' hs' =>
    obtain ⟨hs, hi⟩ := openAt_eq_some.mp h
    exact frame_share hs'.free (hfd s hs) hi

theorem frame_duplicate2 (hc : Covers t g) {newfd : Slot} {res : Option Slot × Table}
    (h : Duplicate2Outcome net t fd newfd r res) (hfd : ∀ s : Slot, fd = s.val → named s)
    (hnew : named newfd) : Frame named dropped t res.2 := by
  have hnew' : ∀ s : Slot, (newfd.val : ℤ) = s.val → named s := by
    intro s hs
    obtain rfl : newfd = s := Fin.ext (by omega)
    exact hnew
  cases h with
  | refused => exact .refl t
  | same => exact ⟨fun _ _ _ ↦ rfl, fun _ _ h ↦ .inl h, fun _ _ _ ↦ rfl, fun _ _ _ ↦ ⟨rfl, rfl⟩,
      List.Subset.refl _⟩
  | busy s i h hs res hres => exact frame_release hc hres hnew'
  | moved s i h hs res hres hfree =>
    obtain ⟨hs', hi⟩ := openAt_eq_some.mp h
    have hne : (s.val : ℤ) ≠ newfd.val := fun h ↦ hs (Fin.ext (by omega))
    have hsame := (releaseDescriptor_fdmap hres hne).trans hi
    exact (frame_release hc hres hnew').trans (frame_share hfree (hfd s hs') hsame)

theorem frame_grab (h : t.fdmap s = some i) (hs : named s) :
    Frame named dropped t (t.addRef i 1) where
  slot _ _ _ := rfl
  target _ _ h := .inl h
  entry j _ hno := by
    apply Table.addRef_pool_of_ne
    rintro rfl
    exact hno s hs h
  object _ j _ := Table.addRef_object 1 j
  calls := List.Subset.refl _

theorem frame_drop (hc : Covers t g) (hg : 0 < g i) {res : ℤ × Table}
    (h : DropOutcome net t i r res) (hi : dropped i) : Frame named dropped t res.2 := by
  have hne : ∀ j, ¬ dropped j → j ≠ i := by
    rintro j hj rfl
    exact hj hi
  cases h with
  | shared => exact ⟨fun _ _ _ ↦ rfl, fun _ _ h ↦ .inl h,
      fun j hj _ ↦ Table.addRef_pool_of_ne (hne j hj), fun _ j _ ↦ Table.addRef_object (-1) j,
      List.Subset.refl _⟩
  | failed => exact ⟨fun _ _ _ ↦ rfl, fun _ _ h ↦ .inl h, fun _ _ _ ↦ rfl,
      fun _ _ _ ↦ ⟨rfl, rfl⟩, List.subset_cons_self _ _⟩
  | closed href hr =>
    refine ⟨fun _ _ _ ↦ rfl, fun _ _ h ↦ .inl h, fun j hj _ ↦ ?_, fun s j hj ↦ ?_,
      List.subset_cons_self _ _⟩
    · exact Function.update_of_ne (hne j hj) _ _
    · have hji : j ≠ i := by
        rintro rfl
        have := hc.slot_pos hj
        have : (1 : ℤ) + g j ≤ 1 := href ▸ hc.slot_pos hj
        omega
      have heq : Function.update t.pool i {} j = t.pool j := Function.update_of_ne hji _ _
      exact ⟨congrArg _ heq, congrArg _ heq⟩

end

end SceLibcPosix.Descriptor
