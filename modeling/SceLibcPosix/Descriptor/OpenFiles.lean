import SceLibcPosix.Descriptor.Handles

namespace SceLibcPosix.Descriptor

open Errno VitaError References Programs Relation

/-- The objects that come and go with the logged calls only. The standard streams are there from the
beginning, and `rewinddir` exchanges the handle of a directory itself. -/
def KernelObject.Tracked : KernelObject → Prop
  | .file _ | .socket _ | .msgPipe _ => True
  | .directory _ | .stdio _ => False

def Stands (t : Table) (o : KernelObject) : Prop :=
  ∃ s i, t.fdmap s = some i ∧ (t.pool i).object = o

/-- Each object is created while it is not there, and closed while it is. -/
def Orderly : List KernelCall → Prop
  | [] => True
  | .created o :: cs => (o.Tracked → ¬ alive cs o) ∧ Orderly cs
  | .close o _ :: cs => (o.Tracked → alive cs o) ∧ Orderly cs

/-- The objects are those of the open descriptors, each object of one entry. -/
structure Owned (t : Table) : Prop where
  counts : Counts t fun _ ↦ 0
  stands : ∀ o : KernelObject, o.Tracked → (alive t.calls o ↔ Stands t o)
  apart : ∀ s s' i j, t.fdmap s = some i → t.fdmap s' = some j → (t.pool i).object.Tracked →
    (t.pool i).object = (t.pool j).object → i = j
  orderly : Orderly t.calls

/-- The kernel gives out new handles, a call that has created something gets its descriptors or can
undo what it has done, and `close` and `dup2` see the failure of a close routine. -/
def SessionCall.Keeps (net : NetErrno → ℤ) (s : Session) : SessionCall → Prop
  | open' k fullPath flags => k.Sound s.table ∧
      (Opens net k fullPath flags → Available s.table ∨ 0 ≤ k.close)
  | socket k => k.Sound s.table ∧ (0 ≤ k.netSocket → Available s.table)
  | accept k fd => k.Sound s.table ∧
      (isFdValid s.table fd = true → 0 ≤ k.netAccept → Available s.table)
  | pipe k => k.Sound s.table ∧ (0 ≤ k.msgPipe →
      (Available s.table → TwoFree s.table) ∧ (¬ Available s.table → 0 ≤ k.close))
  | close fd r => InInt r ∧ Reports net s.table fd r
  | dup2 oldfd newfd r => InInt r ∧ ∀ sl i, openAt s.table oldfd = some (sl, i) →
      newfd ≠ sl.val → Reports net s.table newfd r
  | _ => True

section Table

variable {net : NetErrno → ℤ} {t t' : Table} {o : KernelObject} {i j : Entry} {sl sl' : Slot}
  {fd r : ℤ} {uid : ℤ} {type : DescriptorTypes}

theorem Counts.refill {g : Entry → ℕ} (hc : Counts t g) {d : DescriptorTranslation}
    (hd : d.refCount = (t.pool i).refCount) : Counts (t.setEntry i d) g := by
  intro j
  have := hc j
  by_cases h : j = i
  · subst h
    simpa [hd] using this
  · simpa [h] using this

theorem Counts.unused (hc : Counts t fun _ ↦ 0) (hi : (t.pool i).refCount = 0) (sl : Slot) :
    t.fdmap sl ≠ some i := by
  intro h
  have := hc.inUse sl i h
  omega

theorem Counts.second (hc : Counts t fun _ ↦ 0) (hs : t.fdmap sl = some i)
    (href : (t.pool i).refCount ≠ 1) : ∃ sl', sl' ≠ sl ∧ t.fdmap sl' = some i := by
  have hclear := refs_clear hs i
  have hcount : (t.pool i).refCount = refs t.fdmap i := by simpa using hc i
  rw [if_pos rfl] at hclear
  obtain ⟨sl', hsl'⟩ : ∃ sl', Function.update t.fdmap sl none sl' = some i :=
    refs_pos.mp (by omega)
  have hne : sl' ≠ sl := by
    rintro rfl
    simp at hsl'
  exact ⟨sl', hne, by rwa [Function.update_of_ne hne] at hsl'⟩

theorem Counts.only (hc : Counts t fun _ ↦ 0) (href : (t.pool i).refCount = 1)
    (hs : t.fdmap sl = some i) (hs' : t.fdmap sl' = some i) : sl' = sl := by
  have := hc i
  exact refs_unique (by omega) hs' hs

theorem initFd_type {stdin stdout stderr : ℤ}
    (hi : (Descriptor.initFd stdin stdout stderr).fdmap sl = some i) :
    ((Descriptor.initFd stdin stdout stderr).pool i).type = .TTY := by
  have hlt : i.val < 3 := by
    unfold Descriptor.initFd at hi
    dsimp only at hi
    split at hi
    · next h => exact Option.some.inj hi ▸ h
    · cases hi
  unfold Descriptor.initFd
  dsimp only
  split
  · rfl
  · rfl
  · rfl
  · next h₀ h₁ h₂ =>
    simp only [imp_false] at h₀ h₁ h₂
    omega

theorem Owned.initFd (stdin stdout stderr : ℤ) : Owned (Descriptor.initFd stdin stdout stderr) := by
  have hstdio : ∀ s i, (Descriptor.initFd stdin stdout stderr).fdmap s = some i →
      ¬ ((Descriptor.initFd stdin stdout stderr).pool i).object.Tracked := by
    intro s i hi
    rw [DescriptorTranslation.object, initFd_type hi]
    exact id
  refine ⟨counts_initFd stdin stdout stderr, fun o ho ↦ ?_, fun s s' i j hi _ ht ↦ ?_, trivial⟩
  · refine iff_of_false id ?_
    rintro ⟨s, i, hi, rfl⟩
    exact hstdio s i hi ho
  · exact absurd ht (hstdio s i hi)

theorem Owned.share (h : Owned t) (hs : t.fdmap sl = some i) (hs' : t.fdmap sl' = none) :
    Owned ((t.setSlot sl' (some i)).addRef i 1) := by
  have hslot : ∀ s j, ((t.setSlot sl' (some i)).addRef i 1).fdmap s = some j →
      ∃ s', t.fdmap s' = some j := by
    intro s j hj
    by_cases heq : s = sl'
    · subst heq
      rw [Table.addRef_fdmap, Table.setSlot_fdmap, Function.update_self] at hj
      obtain rfl := Option.some.inj hj
      exact ⟨sl, hs⟩
    · rw [Table.addRef_fdmap, Table.setSlot_fdmap, Function.update_of_ne heq] at hj
      exact ⟨s, hj⟩
  have hobject : ∀ j, (((t.setSlot sl' (some i)).addRef i 1).pool j).object =
      (t.pool j).object := fun j ↦ object_addRef (t := t.setSlot sl' (some i)) 1 i j
  refine ⟨h.counts.setSlot_some hs', fun o ho ↦ (h.stands o ho).trans ⟨?_, ?_⟩,
    fun s₁ s₂ j₁ j₂ h₁ h₂ ↦ ?_, h.orderly⟩
  · rintro ⟨s, j, hj, hjo⟩
    have hne : s ≠ sl' := by
      rintro rfl
      cases hs'.symm.trans hj
    refine ⟨s, j, ?_, (hobject j).trans hjo⟩
    rw [Table.addRef_fdmap, Table.setSlot_fdmap, Function.update_of_ne hne, hj]
  · rintro ⟨s, j, hj, hjo⟩
    obtain ⟨s', hs'⟩ := hslot s j hj
    exact ⟨s', j, hs', (hobject j).symm.trans hjo⟩
  · obtain ⟨s₁', h₁'⟩ := hslot s₁ j₁ h₁
    obtain ⟨s₂', h₂'⟩ := hslot s₂ j₂ h₂
    rw [hobject, hobject]
    exact h.apart s₁' s₂' j₁ j₂ h₁' h₂'

theorem Owned.unshare (h : Owned t) (hs : t.fdmap sl = some i) (href : (t.pool i).refCount ≠ 1)
    (hcounts : Counts ((t.addRef i (-1)).setSlot sl none) fun _ ↦ 0) :
    Owned ((t.addRef i (-1)).setSlot sl none) := by
  have hslot : ∀ s j, ((t.addRef i (-1)).setSlot sl none).fdmap s = some j →
      t.fdmap s = some j := by
    intro s j hj
    by_cases heq : s = sl
    · subst heq
      rw [Table.setSlot_fdmap, Function.update_self] at hj
      cases hj
    · rwa [Table.setSlot_fdmap, Function.update_of_ne heq] at hj
  have hobject : ∀ j, (((t.addRef i (-1)).setSlot sl none).pool j).object = (t.pool j).object :=
    object_addRef (-1) i
  refine ⟨hcounts, fun o ho ↦ (h.stands o ho).trans ⟨?_, ?_⟩, fun s₁ s₂ j₁ j₂ h₁ h₂ ↦ ?_,
    h.orderly⟩
  · rintro ⟨s, j, hj, hjo⟩
    obtain ⟨s', hne, hj'⟩ : ∃ s', s' ≠ sl ∧ t.fdmap s' = some j := by
      by_cases heq : s = sl
      · subst heq
        obtain rfl := Option.some.inj (hs.symm.trans hj)
        exact h.counts.second hs href
      · exact ⟨s, heq, hj⟩
    refine ⟨s', j, ?_, (hobject j).trans hjo⟩
    rw [Table.setSlot_fdmap, Function.update_of_ne hne]
    exact hj'
  · rintro ⟨s, j, hj, hjo⟩
    exact ⟨s, j, hslot s j hj, (hobject j).symm.trans hjo⟩
  · rw [hobject, hobject]
    exact h.apart s₁ s₂ j₁ j₂ (hslot s₁ j₁ h₁) (hslot s₂ j₂ h₂)

theorem Owned.close (h : Owned t) (hs : t.fdmap sl = some i) (href : (t.pool i).refCount = 1)
    (hr : 0 ≤ r) (hcounts : Counts (((t.call (.close (t.pool i).object r)).setEntry i {}).setSlot
      sl none) fun _ ↦ 0) :
    Owned (((t.call (.close (t.pool i).object r)).setEntry i {}).setSlot sl none) := by
  have hback : ∀ s j, (((t.call (.close (t.pool i).object r)).setEntry i {}).setSlot sl none).fdmap
      s = some j → t.fdmap s = some j ∧ j ≠ i := by
    intro s j hj
    by_cases heq : s = sl
    · subst heq
      rw [Table.setSlot_fdmap, Function.update_self] at hj
      cases hj
    · rw [Table.setSlot_fdmap, Function.update_of_ne heq] at hj
      refine ⟨hj, ?_⟩
      rintro rfl
      exact heq (h.counts.only href hs hj)
  have hpool : ∀ j, j ≠ i →
      (((t.call (.close (t.pool i).object r)).setEntry i {}).setSlot sl none).pool j = t.pool j :=
    fun j hj ↦ Function.update_of_ne hj _ _
  refine ⟨hcounts, fun o ho ↦ ⟨?_, ?_⟩, fun s₁ s₂ j₁ j₂ h₁ h₂ ↦ ?_, fun ho ↦ ?_, h.orderly⟩
  · rintro ⟨halive, hne⟩
    obtain ⟨s, j, hj, rfl⟩ := (h.stands o ho).mp halive
    have hji : j ≠ i := by
      rintro rfl
      exact hne ⟨rfl, hr⟩
    have hsl : s ≠ sl := by
      rintro rfl
      exact hji (Option.some.inj (hj.symm.trans hs))
    refine ⟨s, j, ?_, congrArg _ (hpool j hji)⟩
    rw [Table.setSlot_fdmap, Function.update_of_ne hsl]
    exact hj
  · rintro ⟨s, j, hj, rfl⟩
    obtain ⟨hj', hji⟩ := hback s j hj
    rw [hpool j hji] at ho ⊢
    exact ⟨(h.stands _ ho).mpr ⟨s, j, hj', rfl⟩, fun heq ↦ hji (h.apart s sl j i hj' hs ho heq.1)⟩
  · obtain ⟨h₁', hne₁⟩ := hback s₁ j₁ h₁
    obtain ⟨h₂', hne₂⟩ := hback s₂ j₂ h₂
    rw [hpool j₁ hne₁, hpool j₂ hne₂]
    exact h.apart s₁ s₂ j₁ j₂ h₁' h₂'
  · exact (h.stands _ ho).mpr ⟨sl, i, hs, rfl⟩

theorem Owned.failed (h : Owned t) (hs : t.fdmap sl = some i) (hr : r < 0) :
    Owned (t.call (.close (t.pool i).object r)) where
  counts := h.counts
  stands o ho := by
    refine Iff.trans ⟨And.left, fun halive ↦ ⟨halive, fun heq ↦ ?_⟩⟩ (h.stands o ho)
    have := heq.2
    omega
  apart := h.apart
  orderly := ⟨fun ho ↦ (h.stands _ ho).mpr ⟨sl, i, hs, rfl⟩, h.orderly⟩

theorem Owned.release (h : Owned t) {res : ℤ × Table} (hout : ReleaseOutcome net t fd r res)
    (h32 : InInt r) (hrep : Reports net t fd r) : Owned res.2 := by
  have hcounts := h.counts.release hout (fun _ ↦ h32) hrep
  cases hout with
  | refused => exact h
  | shared sl i hopen href => exact h.unshare (openAt_eq_some.mp hopen).2 href hcounts
  | closed sl i hopen href hr => exact h.close (openAt_eq_some.mp hopen).2 href hr hcounts
  | failed sl i hopen href hr => exact h.failed (openAt_eq_some.mp hopen).2 hr
  | lost sl i hopen href hr hno => exact absurd (hrep sl i hopen href hr) (hno h32)

theorem Owned.duplicate (h : Owned t) {minfd : ℤ} {res : Except (Option ℤ) Slot × Table}
    (hout : DuplicateOutcome t fd minfd res) : Owned res.2 := by
  cases hout with
  | refused | full => exact h
  | shared sl i hopen sl' hsl' => exact h.share (openAt_eq_some.mp hopen).2 hsl'.free

theorem Owned.duplicate2 (h : Owned t) {newfd : Slot} {res : Option Slot × Table}
    (hout : Duplicate2Outcome net t fd newfd r res) (h32 : InInt r)
    (hrep : ∀ sl i, openAt t fd = some (sl, i) → sl ≠ newfd → Reports net t newfd.val r) :
    Owned res.2 := by
  cases hout with
  | refused => exact h
  | same => exact ⟨h.counts, h.stands, h.apart, h.orderly⟩
  | busy sl i hopen hne res hres => exact h.release hres h32 (hrep sl i hopen hne)
  | moved sl i hopen hne res hres hfree =>
    have hsl : (sl.val : ℤ) ≠ newfd.val := fun heq ↦ hne (Fin.ext (by omega))
    have hi := (releaseDescriptor_fdmap hres hsl).trans (openAt_eq_some.mp hopen).2
    exact (h.release hres h32 (hrep sl i hopen hne)).share hi hfree

theorem Counts.opened (hc : Counts t fun _ ↦ 0) (hs : t.fdmap sl = none)
    (hi : (t.pool i).refCount = 0) (o : KernelObject) (uid : ℤ) (type : DescriptorTypes) :
    Counts (((t.call (.created o)).setSlot sl (some i)).setEntry i ⟨uid, type, 1⟩) fun _ ↦ 0 := by
  have htaken := (hc.setSlot_some (i := i) hs).refill (i := i) (d := ⟨uid, type, 1⟩) (by simp [hi])
  simpa [Counts, Table.setEntry, Table.addRef] using htaken

theorem Owned.create (h : Owned t) (ho : ¬ alive t.calls o)
    (hobject : (⟨uid, type, 1⟩ : DescriptorTranslation).object = o) (hs : t.fdmap sl = none)
    (hi : (t.pool i).refCount = 0) :
    Owned (((t.call (.created o)).setSlot sl (some i)).setEntry i ⟨uid, type, 1⟩) := by
  have hself : ((((t.call (.created o)).setSlot sl (some i)).setEntry i ⟨uid, type, 1⟩).pool
      i).object = o := by
    simpa using hobject
  have hpool : ∀ j, j ≠ i → (((t.call (.created o)).setSlot sl (some i)).setEntry i
      ⟨uid, type, 1⟩).pool j = t.pool j := fun j hj ↦ Function.update_of_ne hj _ _
  have hback : ∀ s j, (((t.call (.created o)).setSlot sl (some i)).setEntry i
      ⟨uid, type, 1⟩).fdmap s = some j → j = i ∨ j ≠ i ∧ t.fdmap s = some j := by
    intro s j hj
    by_cases heq : s = sl
    · subst heq
      rw [Table.setEntry_fdmap, Table.setSlot_fdmap, Function.update_self] at hj
      exact .inl (Option.some.inj hj).symm
    · rw [Table.setEntry_fdmap, Table.setSlot_fdmap, Function.update_of_ne heq] at hj
      refine .inr ⟨?_, hj⟩
      rintro rfl
      exact h.counts.unused hi s hj
  -- no open descriptor stands for a new object
  have hnew : ∀ s j, t.fdmap s = some j → o.Tracked → (t.pool j).object ≠ o :=
    fun s j hj ht heq ↦ ho ((h.stands o ht).mpr ⟨s, j, hj, heq⟩)
  refine ⟨h.counts.opened hs hi o uid type, fun o' ho' ↦ ⟨?_, ?_⟩,
    fun s₁ s₂ j₁ j₂ h₁ h₂ ht heq ↦ ?_, fun _ ↦ ho, h.orderly⟩
  · rintro (rfl | halive)
    · exact ⟨sl, i, by simp, hself⟩
    · obtain ⟨s, j, hj, hjo⟩ := (h.stands o' ho').mp halive
      have hne : s ≠ sl := by
        rintro rfl
        cases hs.symm.trans hj
      have hji : j ≠ i := by
        rintro rfl
        exact h.counts.unused hi s hj
      refine ⟨s, j, ?_, (congrArg _ (hpool j hji)).trans hjo⟩
      rw [Table.setEntry_fdmap, Table.setSlot_fdmap, Function.update_of_ne hne]
      exact hj
  · rintro ⟨s, j, hj, rfl⟩
    rcases hback s j hj with rfl | ⟨hne, hj'⟩
    · exact .inl hself
    · rw [hpool j hne] at ho' ⊢
      exact .inr ((h.stands _ ho').mpr ⟨s, j, hj', rfl⟩)
  · rcases hback s₁ j₁ h₁ with rfl | ⟨hne₁, h₁'⟩
    · rcases hback s₂ j₂ h₂ with rfl | ⟨hne₂, h₂'⟩
      · rfl
      · rw [hself] at ht heq
        rw [hpool j₂ hne₂] at heq
        exact absurd heq.symm (hnew s₂ j₂ h₂' ht)
    · rw [hpool j₁ hne₁] at ht heq
      rcases hback s₂ j₂ h₂ with rfl | ⟨hne₂, h₂'⟩
      · rw [hself] at heq
        exact absurd heq (hnew s₁ j₁ h₁' (heq ▸ ht))
      · rw [hpool j₂ hne₂] at heq
        exact h.apart s₁ s₂ j₁ j₂ h₁' h₂' ht heq

theorem Owned.undo (h : Owned t) (ho : ¬ alive t.calls o) (hr : 0 ≤ r) :
    Owned ((t.call (.created o)).call (.close o r)) where
  counts := h.counts
  stands o' ho' := ((unchanged_close ho).mpr ⟨rfl, hr⟩).objects o' |>.trans (h.stands o' ho')
  apart := h.apart
  orderly := ⟨fun _ ↦ .inl rfl, fun _ ↦ ho, h.orderly⟩

end Table

section Sessions

variable {net : NetErrno → ℤ} {s s' : Session} {t t' : Table} {o : KernelObject} {k : Answers}
  {fd r uid : ℤ} {type : DescriptorTypes}

theorem Available.install (h : Available t) (uid : ℤ) (type : DescriptorTypes) :
    ∃ sl i, t.fdmap sl = none ∧ (t.pool i).refCount = 0 ∧ ∀ undo,
      Descriptor.install t uid type undo =
        (.ok sl, (t.setSlot sl (some i)).setEntry i ⟨uid, type, 1⟩) := by
  refine (install_outcome t uid type).resolve_left fun hfull ↦ ?_
  have hout := acquireDescriptor_outcome t
  have herror := hfull id
  unfold Descriptor.install at herror
  generalize acquireDescriptor t = res at hout herror
  cases hout with
  | full hno => exact not_available hno h
  | taken sl i => cases (Prod.mk.inj herror).1

theorem Owned.install (h : Owned t) (ho : ¬ alive t.calls o)
    (hobject : (⟨uid, type, 1⟩ : DescriptorTranslation).object = o) {undo : Table → Table}
    (hundo : Available t ∨ ∃ r, 0 ≤ r ∧ undo = fun t ↦ t.call (.close o r)) :
    Owned (Descriptor.install (t.call (.created o)) uid type undo).2 := by
  rcases install_outcome (t.call (.created o)) uid type with hfull | ⟨sl, i, hsl, hi, hok⟩
  · rcases hundo with hav | ⟨r, hr, rfl⟩
    · obtain ⟨sl, i, -, -, hok⟩ := Available.install (t := t.call (.created o)) hav uid type
      cases (Prod.mk.inj ((hfull undo).symm.trans (hok undo))).1
    · rw [hfull]
      exact h.undo ho hr
  · rw [hok]
    exact h.create ho hobject hsl hi

theorem Owned.opened (h : Owned t) {ret handle : ℤ} (e : ℤ → ℤ) (type : DescriptorTypes)
    (close : ℤ → KernelObject) (hsound : 0 ≤ ret → 0 ≤ handle ∧ ¬ alive t.calls o)
    (hundo : 0 ≤ ret → Available t ∨ 0 ≤ r)
    (hobject : (⟨handle, type, 1⟩ : DescriptorTranslation).object = o)
    (hclose : close handle = o) {res : ℤ × Table}
    (hres : res = Descriptor.opened t ret handle o) :
    Owned (if res.1 < 0 then ((.error (e res.1) : Except ℤ Slot), res.2)
      else Descriptor.install res.2 res.1 type fun t ↦ t.call (.close (close res.1) r)).2 := by
  subst hres
  unfold Descriptor.opened
  by_cases hret : ret < 0
  · simp only [if_pos hret]
    exact h
  · obtain ⟨hpos, ho⟩ := hsound (not_lt.mp hret)
    simp only [if_neg hret, if_neg (not_lt.mpr hpos)]
    refine h.install ho hobject ((hundo (not_lt.mp hret)).imp_right fun hr ↦ ⟨r, hr, ?_⟩)
    rw [hclose]

theorem Owned.open (h : Owned t) (hk : k.Sound t) (fullPath : Except ℤ String) {flags : BitVec 32}
    (hdir : fullPath.isOk → isDir k = 0 → 0 ≤ k.fhOpen → flags &&& O_DIRECTORY ≠ 0)
    (hundo : Opens net k fullPath flags → Available t ∨ 0 ≤ k.close) :
    Owned (Descriptor.open' net t k fullPath flags).2 := by
  cases fullPath with
  | error e => exact h
  | ok p =>
    replace hdir := hdir rfl
    unfold Descriptor.open'
    extract_lets dir errno
    by_cases hboth : isDir k = 0 ∧ flags &&& O_DIRECTORY ≠ 0
    · by_cases hcreate : flags &&& O_CREAT ≠ 0 ∧ k.dirCreate < 0 ∧ errno ≠ EEXIST
      · rw [if_pos ⟨hboth.1, hboth.2, hcreate⟩]
        exact h
      · rw [if_neg fun hall ↦ hcreate hall.2.2]
        have hgo : flags &&& O_CREAT ≠ 0 → k.dirCreate < 0 →
            sceErrnoToErrno net k.dirCreate .FIOS = EEXIST := fun h₁ h₂ ↦ by
          by_contra h₃
          exact hcreate ⟨h₁, h₂, h₃⟩
        refine h.opened (sceErrnoToErrno net · .FIOS) (if dir then .DIRECTORY else .FILE)
          (fun ret ↦ if dir then .directory ret else .file ret) hk.dh
          (fun hret ↦ hundo ((opens_directory p hboth).mpr ⟨hgo, hret⟩)) ?_ (if_pos hboth.1)
          (if_pos hboth)
        rw [if_pos (show dir from hboth.1)]
        rfl
    · rw [if_neg fun hall ↦ hboth ⟨hall.1, hall.2.1⟩]
      have hopens : 0 ≤ k.fhOpen → Opens net k (.ok p) flags := (opens_file p hboth).mpr
      by_cases hisdir : isDir k = 0
      · -- a directory is not opened as a file
        have hret : k.fhOpen < 0 := not_le.mp fun hopen ↦ hboth ⟨hisdir, hdir hisdir hopen⟩
        have hopened : Descriptor.opened t k.fhOpen k.fh (.file k.fh) = (k.fhOpen, t) :=
          if_pos hret
        rw [if_neg hboth, hopened]
        dsimp only
        rw [if_pos hret]
        exact h
      · refine h.opened (sceErrnoToErrno net · .FIOS) (if dir then .DIRECTORY else .FILE)
          (fun ret ↦ if dir then .directory ret else .file ret) hk.fh
          (fun hret ↦ hundo (hopens hret)) ?_ (if_neg hisdir) (if_neg hboth)
        rw [if_neg (show ¬ dir from hisdir)]
        rfl

theorem Owned.socket (h : Owned t) (hk : k.Sound t) (hav : 0 ≤ k.netSocket → Available t) :
    Owned (Descriptor.socket net t k).2 := by
  unfold Descriptor.socket
  extract_lets res
  by_cases hres : res < 0
  · rw [if_pos hres]
    exact h
  · rw [if_neg hres]
    have hpos : 0 ≤ k.netSocket := not_lt.mp hres
    exact h.install (hk.netSocket hpos) rfl (.inl (hav hpos))

theorem Owned.accept (h : Owned t) (hk : k.Sound t)
    (hav : isFdValid t fd = true → 0 ≤ k.netAccept → Available t) :
    Owned (Descriptor.accept net t k fd).2 := by
  have hout := fdGrab_outcome t fd
  unfold Descriptor.accept
  generalize fdGrab t fd = res at hout ⊢
  cases hout with
  | refused => exact h
  | grabbed sl i hopen =>
    have hi := h.counts.inUse sl i (openAt_eq_some.mp hopen).2
    dsimp only
    by_cases hres : k.netAccept < 0
    · rw [if_pos hres, if_pos hres, fdDrop_grabbed hi]
      exact h
    · have hpos : 0 ≤ k.netAccept := not_lt.mp hres
      have hvalid : isFdValid t fd = true := by
        rw [isFdValid, hopen]
        rfl
      have hdrop : (fdDrop net ((t.addRef i 1).call (.created (.socket k.netAccept))) i
          k.close).2 = t.call (.created (.socket k.netAccept)) :=
        fdDrop_grabbed (t := t.call (.created (.socket k.netAccept))) hi
      rw [if_neg hres, if_neg hres, hdrop]
      exact h.install (hk.netAccept hpos) rfl (.inl (hav hvalid hpos))

theorem install_full (h : ¬ Available t) (uid : ℤ) (type : DescriptorTypes)
    (undo : Table → Table) : Descriptor.install t uid type undo = (.error EMFILE, undo t) := by
  have hout := acquireDescriptor_outcome t
  unfold Descriptor.install
  generalize acquireDescriptor t = res at hout ⊢
  cases hout with
  | full => rfl
  | taken sl i hs hi => exact absurd (firstFree_taken hs hi) h

theorem secondEnd_ok {sl : Slot} {i : Entry}
    (hslots : t'.fdmap = Function.update t.fdmap sl (some i)) (htwo : TwoFree t)
    (undo : Table → Table) : ∃ sl', FirstFree t' 3 sl' ∧
      secondEnd t' sl undo = (.ok (sl, sl'), (t'.setSlot sl' (some i)).addRef i 1) := by
  have hself : t'.fdmap sl = some i := by rw [hslots, Function.update_self]
  have hother : ∃ sl' : Slot, 3 ≤ sl'.val ∧ t'.fdmap sl' = none := by
    obtain ⟨s₁, s₂, hne, h₁, h₂⟩ := htwo
    by_cases heq : s₁ = sl
    · subst heq
      exact ⟨s₂, h₂.1, by rw [hslots, Function.update_of_ne hne.symm, h₂.2]⟩
    · exact ⟨s₁, h₁.1, by rw [hslots, Function.update_of_ne heq, h₁.2]⟩
  have hout := duplicateDescriptor_outcome t' sl.val 0
  unfold secondEnd
  generalize duplicateDescriptor t' sl.val 0 = res at hout ⊢
  cases hout with
  | refused hopen => cases (openAt_slot.mp hopen).symm.trans hself
  | full _ _ _ hfull =>
    obtain ⟨sl', hsl', hfree⟩ := hother
    exact absurd hfree (hfull sl' (by omega))
  | shared sl₁ j hopen sl' hsl' =>
    obtain ⟨hval, hj⟩ := openAt_eq_some.mp hopen
    obtain rfl : sl = sl₁ := Fin.ext (by omega)
    obtain rfl := Option.some.inj (hself.symm.trans hj)
    exact ⟨sl', hsl', rfl⟩

theorem Owned.secondEnd (h : Owned t') {sl : Slot} {i : Entry}
    (hslots : t'.fdmap = Function.update t.fdmap sl (some i)) (htwo : TwoFree t)
    (undo : Table → Table) : Owned (Descriptor.secondEnd t' sl undo).2 := by
  obtain ⟨sl', hsl', hok⟩ := secondEnd_ok hslots htwo undo
  rw [hok]
  exact h.share (by rw [hslots, Function.update_self]) hsl'.free

theorem Owned.pipe (h : Owned t) (hk : k.Sound t) (hav : 0 ≤ k.msgPipe →
    (Available t → TwoFree t) ∧ (¬ Available t → 0 ≤ k.close)) :
    Owned (Descriptor.pipe net t k).2 := by
  unfold Descriptor.pipe
  extract_lets ret undo
  by_cases hret : ret < 0
  · rw [if_pos hret]
    exact h
  · have hpos : 0 ≤ k.msgPipe := not_lt.mp hret
    have ho := hk.msgPipe hpos
    rw [if_neg hret]
    by_cases hfree : Available t
    · obtain ⟨sl, i, hsl, hi, hok⟩ :=
        Available.install (t := t.call (.created (.msgPipe ret))) hfree ret .PIPE
      rw [hok]
      have hcreate : Owned (((t.call (.created (.msgPipe ret))).setSlot sl (some i)).setEntry i
          ⟨ret, .PIPE, 1⟩) := h.create ho rfl hsl hi
      exact hcreate.secondEnd rfl ((hav hpos).1 hfree) undo
    · rw [install_full (t := t.call (.created (.msgPipe ret))) hfree]
      exact h.undo ho ((hav hpos).2 hfree)

theorem slotOf_some {sl : Slot} (h : slotOf fd = some sl) : fd = sl.val := by
  unfold slotOf at h
  split at h
  · next hlt =>
    obtain rfl := Option.some.inj h
    dsimp only
    omega
  · cases h

theorem Owned.dup2 (h : Owned t) {oldfd newfd : ℤ} (h32 : InInt r)
    (hrep : ∀ sl i, openAt t oldfd = some (sl, i) → newfd ≠ sl.val → Reports net t newfd r) :
    Owned (Descriptor.dup2 net t oldfd newfd r).2 := by
  unfold Descriptor.dup2
  cases hslot : slotOf newfd with
  | none => exact h
  | some sl' =>
    obtain rfl := slotOf_some hslot
    have hout := duplicateDescriptor2_outcome net t oldfd sl' r
    have hdup := h.duplicate2 hout h32 fun sl i hopen hne ↦ hrep sl i hopen fun heq ↦
      hne (Fin.ext (by omega))
    dsimp only
    generalize duplicateDescriptor2 net t oldfd sl' r = res at hdup ⊢
    obtain ⟨_ | _, _⟩ := res <;> exact hdup

/-- `rewinddir` exchanges the handle of a directory. -/
def Exchanged (o o' : KernelObject) : Prop := ∃ dh dh', o = .directory dh ∧ o' = .directory dh'

theorem Exchanged.untracked {o o' : KernelObject} (h : Exchanged o o') :
    ¬ o.Tracked ∧ ¬ o'.Tracked := by
  obtain ⟨dh, dh', rfl, rfl⟩ := h
  exact ⟨id, id⟩

/-- What a call does that makes no descriptor, and drops what it has grabbed: the log stays, and an
entry stands for what it has stood for, but for the directories. -/
structure Quiet (t : Table) (t' : Table) : Prop where
  counts : Counts t' fun _ ↦ 0
  fdmap : t'.fdmap = t.fdmap
  calls : t'.calls = t.calls
  object : ∀ sl i, t.fdmap sl = some i → (t'.pool i).object = (t.pool i).object ∨
    Exchanged (t.pool i).object (t'.pool i).object

theorem Owned.quiet (h : Owned t) (hq : Quiet t t') : Owned t' := by
  have htracked : ∀ sl i, t.fdmap sl = some i → (t'.pool i).object.Tracked →
      (t'.pool i).object = (t.pool i).object := fun sl i hi ht ↦
    (hq.object sl i hi).resolve_right fun hno ↦ hno.untracked.2 ht
  refine ⟨hq.counts, fun o ho ↦ ?_, fun s₁ s₂ j₁ j₂ h₁ h₂ ht heq ↦ ?_, hq.calls ▸ h.orderly⟩
  · rw [hq.calls, h.stands o ho]
    constructor
    · rintro ⟨sl, i, hi, rfl⟩
      refine ⟨sl, i, hq.fdmap ▸ hi, ?_⟩
      exact (hq.object sl i hi).resolve_right fun hno ↦ hno.untracked.1 ho
    · rintro ⟨sl, i, hi, rfl⟩
      rw [hq.fdmap] at hi
      exact ⟨sl, i, hi, (htracked sl i hi ho).symm⟩
  · rw [hq.fdmap] at h₁ h₂
    have h₁' := htracked s₁ j₁ h₁ ht
    have h₂' := htracked s₂ j₂ h₂ (heq ▸ ht)
    exact h.apart s₁ s₂ j₁ j₂ h₁ h₂ (h₁' ▸ ht) (h₁'.symm.trans (heq.trans h₂'))

/-- So far a call has left the log alone, and exchanged handles of directories only. -/
structure Silent (s : Session) (r : Multiset Entry × (Entry → KernelObject)) (s' : Session) :
    Prop where
  handled : Handled s.table r s'
  calls : s'.table.calls = s.table.calls
  origin : ∀ i, r.2 i = s.origin i ∨ Exchanged (s.origin i) (r.2 i)

theorem Silent.serve {σ : Type} {K : (q : KernelAsk) → σ → q.Answer × σ} {k k' : σ}
    (ht : InUse s.table) {r : Multiset Entry × (Entry → KernelObject)} {q : Ask} {x : q.Answer}
    {s₁ s₂ : Session} (h : Silent s r s₁) (hmay : (holding.prod (handling s.table)).may r q)
    (hx : watch net K q (s₁, k) = some (x, s₂, k')) :
    (handling s.table).can r.2 q x ∧
      Silent s ((holding.prod (handling s.table)).next r q x) s₂ := by
  obtain ⟨hcan, hnext⟩ := h.handled.serve ht hmay hx
  obtain ⟨res, hserve, -⟩ := Option.map_eq_some_iff.mp hx
  refine ⟨hcan, hnext, ?_, ?_⟩
  · cases q with
    | grab fd =>
      obtain ⟨-, rfl⟩ := watch_eq hx rfl
      have hout := fdGrab_outcome s₁.table fd
      dsimp only
      generalize fdGrab s₁.table fd = res at hout ⊢
      cases hout <;> exact h.calls
    | drop i =>
      have hdrop : Descriptor.serve net K (.drop i) (s₁.table, k) =
          some ((0 : ℤ), s₁.table.addRef i (-1), k) := h.handled.held.serve_drop hmay.1
      obtain ⟨-, rfl⟩ := watch_eq hx hdrop
      exact h.calls
    | load | storeUid | kernel =>
      obtain ⟨-, rfl⟩ := watch_eq hx rfl
      exact h.calls
    | duplicate => exact hmay.1.elim
    | pass => exact hmay.2.elim
    | fault => cases hserve
  · cases q with
    | storeUid i uid =>
      obtain ⟨-, dh, hdh⟩ := hmay.2
      intro j
      change Function.update r.2 i (.directory uid) j = s.origin j ∨
        Exchanged (s.origin j) (Function.update r.2 i (.directory uid) j)
      by_cases hji : j = i
      · subst hji
        rw [Function.update_self]
        rcases h.origin j with heq | ⟨dh₀, -, hold, -⟩
        · exact .inr ⟨dh, uid, heq.symm.trans hdh, rfl⟩
        · exact .inr ⟨dh₀, uid, hold, rfl⟩
      · rw [Function.update_of_ne hji]
        exact h.origin j
    | _ => exact h.origin

theorem FdCall.quiet (hcounts : Counts s.table fun _ ↦ 0) (hsane : Sane s) {c : FdCall}
    (hc : ¬ c.Duplicates) (hfd : ∀ fd ∈ c.descriptor, OfType s.table fd c.Takes) {σ : Type}
    {K : (q : KernelAsk) → σ → q.Answer × σ} {k k' : σ} {out : Outcome}
    (hrun : (c.steps net).run (watch net K) (s, k) = some (out, s', k')) :
    Quiet s.table s'.table := by
  have ht := hcounts.inUse
  let rel (r : Multiset Entry × (Entry → KernelObject)) (x : Session × σ) : Prop :=
    Silent s r x.1
  have hstep : ∀ r x q y x', rel r x → (holding.prod (handling s.table)).may r q →
      watch net K q x = some (y, x') → (holding.prod (handling s.table)).can r q y ∧
        rel ((holding.prod (handling s.table)).next r q y) x' := by
    intro r x q y x' hr hmay hx
    obtain ⟨hcan, hnext⟩ := Silent.serve ht hr hmay hx
    exact ⟨⟨trivial, hcan⟩, hnext⟩
  have hneutral : Neutral (c.steps net) := FdCall.neutral hc
  have hobeys := (hneutral 0).prod (FdCall.handles hsane.typed hc hfd)
  have hstart : Silent s (0, s.origin) s := ⟨hsane.handled, rfl, fun _ ↦ .inl rfl⟩
  obtain ⟨⟨g, origin⟩, ⟨hg, -⟩, hend⟩ := hobeys.run rel (t := (s, k)) hstart hstep hrun
  obtain rfl : g = 0 := hg
  have hheld := hend.handled.held
  refine ⟨fun i ↦ ?_, hheld.fdmap, hend.calls, fun sl i hi ↦ ?_⟩
  · rw [hheld.refCount, hheld.fdmap, hcounts i]
    simp
  · rw [hend.handled.object sl i hi, hsane.typed sl i hi]
    exact hend.origin i

theorem FdCall.dupfd {c : FdCall} (hc : c.Duplicates) {σ : Type}
    {K : (q : KernelAsk) → σ → q.Answer × σ} {k k' : σ} {out : Outcome}
    (hrun : (c.steps net).run (watch net K) (s, k) = some (out, s', k')) :
    ∃ fd arg, c = .fcntl fd .F_DUPFD arg ∧ s'.table =
      if MAX_OPEN_FILES ≤ arg then s.table else (duplicateDescriptor s.table fd arg).2 := by
  cases c with
  | fcntl fd cmd arg =>
    obtain rfl : cmd = .F_DUPFD := hc
    refine ⟨fd, arg, rfl, ?_⟩
    change (Descriptor.fcntl net fd .F_DUPFD arg).run _ _ = _ at hrun
    rw [fcntl_dupfd] at hrun
    split at hrun
    · next hargs =>
      obtain ⟨-, hs⟩ := Prod.mk.inj (Option.some.inj hrun)
      obtain ⟨rfl, -⟩ := Prod.mk.inj hs
      exact (if_pos hargs).symm
    · next hargs =>
      rw [if_neg hargs]
      simp only [Program.run_ask, watch, serve, Option.map_some, Option.bind_some] at hrun
      generalize duplicateDescriptor s.table fd arg = res at hrun ⊢
      obtain ⟨_ | _, t⟩ := res
      all_goals
        obtain ⟨-, hs⟩ := Prod.mk.inj (Option.some.inj hrun)
        obtain ⟨rfl, -⟩ := Prod.mk.inj hs
        rfl
  | _ => exact hc.elim

theorem Owned.use (h : Owned s.table) (hsane : Sane s) {c : FdCall}
    (hfd : ∀ fd ∈ c.descriptor, OfType s.table fd c.Takes) {σ : Type}
    {K : (q : KernelAsk) → σ → q.Answer × σ} {k k' : σ} {out : Outcome}
    (hrun : (c.steps net).run (watch net K) (s, k) = some (out, s', k')) : Owned s'.table := by
  by_cases hc : c.Duplicates
  · obtain ⟨fd, arg, -, htable⟩ := FdCall.dupfd hc hrun
    rw [htable]
    split
    · exact h
    · exact h.duplicate (duplicateDescriptor_outcome s.table fd arg)
  · exact h.quiet (FdCall.quiet h.counts hsane hc hfd hrun)

theorem SessionCall.owned (hsane : Sane s) (h : Owned s.table) {c : SessionCall} (hc : c.Fits s)
    (hkeeps : c.Keeps net s) (hrun : c.Runs net s s') : Owned s'.table := by
  cases hrun with
  | open' k fullPath flags => exact h.open hkeeps.1 fullPath hc hkeeps.2
  | socket k => exact h.socket hkeeps.1 hkeeps.2
  | accept k fd => exact h.accept hkeeps.1 hkeeps.2
  | pipe k => exact h.pipe hkeeps.1 hkeeps.2
  | dup fd => exact h.duplicate (duplicateDescriptor_outcome s.table fd 0)
  | dup2 oldfd newfd r => exact h.dup2 hkeeps.1 hkeeps.2
  | close fd r => exact h.release (releaseDescriptor_outcome net s.table fd r) hkeeps.1 hkeeps.2
  | use c K k k' out _ hrun => exact h.use hsane hc hrun

/-- Whatever a program does, the files, sockets and pipes that the kernel holds for it are those
that its open descriptors stand for, descriptors with the same object share one entry, and no object
is closed twice. -/
theorem objects_owned (net : NetErrno → ℤ) (stdin stdout stderr : ℤ) (s : Session)
    (h : ReflTransGen (SessionStep net fun s c ↦ c.Fits s ∧ c.Keeps net s)
      (Session.init stdin stdout stderr) s) :
    (∀ o : KernelObject, o.Tracked → (alive s.table.calls o ↔ Stands s.table o)) ∧
    (∀ sl sl' i j, s.table.fdmap sl = some i → s.table.fdmap sl' = some j →
      (s.table.pool i).object.Tracked → (s.table.pool i).object = (s.table.pool j).object →
      i = j) ∧ Orderly s.table.calls := by
  suffices hboth : Sane s ∧ Owned s.table from ⟨hboth.2.stands, hboth.2.apart, hboth.2.orderly⟩
  induction h with
  | refl => exact ⟨sane_init stdin stdout stderr, .initFd stdin stdout stderr⟩
  | tail _ hstep ih =>
    cases hstep with
    | call c hc hrun =>
      exact ⟨SessionCall.sane ih.1 hc.1 hrun, SessionCall.owned ih.1 ih.2 hc.1 hc.2 hrun⟩

end Sessions

def withoutSocket : Session :=
  ⟨(releaseDescriptor 0 withSocket.table 3 0).2, withSocket.origin,
    withSocket.releasing 3 ++ withSocket.uses⟩

theorem objects_owned_withoutSocket :
    withoutSocket.table.calls = [.close (.socket 5) 0, .created (.socket 5)] ∧
      ¬ Stands withoutSocket.table (.socket 5) ∧ Orderly withoutSocket.table.calls := by
  have hk : granting.Sound (Session.init 0 1 2).table := by
    constructor <;> simp [granting, Session.init, initFd, alive]
  have hav : Available (Session.init 0 1 2).table := ⟨⟨3, by decide, by decide⟩, 3, by decide⟩
  have hopen : SessionStep 0 (fun s c ↦ c.Fits s ∧ c.Keeps 0 s) (Session.init 0 1 2) withSocket :=
    .call _ (.socket granting) ⟨trivial, hk, fun _ ↦ hav⟩ (.socket granting)
  have h32 : InInt 0 := by
    unfold InInt
    decide
  have hclose : SessionStep 0 (fun s c ↦ c.Fits s ∧ c.Keeps 0 s) withSocket withoutSocket :=
    .call _ (.close 3 0) ⟨trivial, h32, fun _ _ _ _ hneg ↦ absurd hneg (lt_irrefl 0)⟩ (.close 3 0)
  have hcalls : withoutSocket.table.calls = [.close (.socket 5) 0, .created (.socket 5)] := by
    decide +kernel
  obtain ⟨hstands, -, horderly⟩ := objects_owned 0 0 1 2 _ (.tail (.single hopen) hclose)
  refine ⟨hcalls, fun h ↦ ?_, horderly⟩
  have halive := (hstands (.socket 5) trivial).mpr h
  rw [hcalls] at halive
  exact halive.2 ⟨rfl, le_rfl⟩

end SceLibcPosix.Descriptor
