import SceLibcPosix.Mman.RemapContents

namespace SceLibcPosix.Mman

open Errno Spans

inductive PosixAdvice
  | POSIX_MADV_NORMAL | POSIX_MADV_RANDOM | POSIX_MADV_SEQUENTIAL | POSIX_MADV_WILLNEED
  | POSIX_MADV_DONTNEED
  | other (n : ℤ)
deriving DecidableEq, Repr

inductive Advice
  | MADV_NORMAL | MADV_RANDOM | MADV_SEQUENTIAL | MADV_WILLNEED | MADV_DONTNEED | MADV_FREE
  | MADV_DONTFORK | MADV_DOFORK | MADV_MERGEABLE | MADV_UNMERGEABLE | MADV_HUGEPAGE
  | MADV_NOHUGEPAGE | MADV_DONTDUMP | MADV_DODUMP | MADV_WIPEONFORK | MADV_KEEPONFORK
  | other (n : ℤ)
deriving DecidableEq, Repr

/-- What `mlock` and `munlock` return and the error number they set. -/
def lockCall (m : State) (addr len : ℕ) : ℤ × ℤ :=
  if len = 0 then (0, 0)
  else if !mmanMapped m addr len then (-1, ENOMEM)
  else (0, 0)

def mlock (m : State) (addr len : ℕ) : ℤ × ℤ := lockCall m addr len

def munlock (m : State) (addr len : ℕ) : ℤ × ℤ := lockCall m addr len

def mincore (m : State) (addr len vec : ℕ) : ℤ × ℤ × State :=
  if addr % 0x1000 ≠ 0 ∨ vec = NULL then (-1, EINVAL, m)
  else if len = 0 then (0, 0, m)
  else if !mmanMapped m addr len then (-1, ENOMEM, m)
  else (0, 0, m.memset vec 1 (pageAlign len / 0x1000))

/-- `posix_madvise`, which returns its error number. -/
def posixMadvise (m : State) (addr len : ℕ) (advice : PosixAdvice) : ℤ :=
  if addr % 0x1000 ≠ 0 then EINVAL
  else if len = 0 then 0
  else match advice with
    | .other _ => EINVAL
    | .POSIX_MADV_NORMAL | .POSIX_MADV_RANDOM | .POSIX_MADV_SEQUENTIAL | .POSIX_MADV_WILLNEED
    | .POSIX_MADV_DONTNEED => if !mmanMapped m addr len then ENOMEM else 0

def madvise (m : State) (k : Answers) (addr len : ℕ) (advice : Advice) : ℤ × ℤ × State :=
  if addr % 0x1000 ≠ 0 then (-1, EINVAL, m)
  else if len = 0 then (0, 0, m)
  else match advice with
    | .MADV_DONTNEED | .MADV_FREE =>
      if !mmanMapped m addr len then (-1, ENOMEM, m)
      else
        let (ret, m) := mmanDiscard m k addr len
        if ret < 0 then (-1, ENOMEM, m) else (0, 0, m)
    | .other _ => (-1, EINVAL, m)
    | .MADV_NORMAL | .MADV_RANDOM | .MADV_SEQUENTIAL | .MADV_WILLNEED | .MADV_DONTFORK
    | .MADV_DOFORK | .MADV_MERGEABLE | .MADV_UNMERGEABLE | .MADV_HUGEPAGE | .MADV_NOHUGEPAGE
    | .MADV_DONTDUMP | .MADV_DODUMP | .MADV_WIPEONFORK | .MADV_KEEPONFORK =>
      if !mmanMapped m addr len then (-1, ENOMEM, m) else (0, 0, m)

inductive RangeCall
  | mlock
  | munlock
  | mincore (vec : ℕ)
  | madvise (k : Answers) (advice : Advice)
  | posixMadvise (advice : PosixAdvice)
  | mremap (k : Answers) (newLen : ℕ) (flags : BitVec 32) (fixedArg : ℕ)

def RangeCall.Accepts (m : State) (addr len : ℕ) : RangeCall → Prop
  | mlock => (Mman.mlock m addr len).1 = 0
  | munlock => (Mman.munlock m addr len).1 = 0
  | mincore vec => (Mman.mincore m addr len vec).1 = 0
  | madvise k advice => (Mman.madvise m k addr len advice).1 = 0
  | posixMadvise advice => Mman.posixMadvise m addr len advice = 0
  | mremap k newLen flags fixedArg =>
    (Mman.mremap m k addr len newLen flags fixedArg).1 ≠ MAP_FAILED

/-- Every address of the range exists and lies in some entry. -/
def FullyMapped (t : List Region) (addr len : ℕ) : Prop :=
  ∀ x, addr ≤ x → x < addr + len → x < 2 ^ 32 ∧ Covered t x

/-- The answer of `__mman_mapped` is right: the pages of the range end below 2^32, or the range
wraps into the page it begins in and the first entry is missing. -/
def MappedRight (m : State) (addr len : ℕ) : Prop :=
  m.ready = false ∨ roundUp (addr + len) < 2 ^ 32 ∨
    addr < pageAlign (addU addr len) ∧ ¬ Covered m.regions addr

section Walk

variable {t : List Region} {m : State} {addr len : ℕ}

theorem regionFind_isSome (hf : ∀ r ∈ t, r.addr + r.len < 2 ^ 32) {x : ℕ} :
    (regionFind t x).isSome ↔ Covered t x := by
  rw [← not_iff_not, Option.not_isSome_iff_eq_none, regionFind_none]
  simp only [Covered, not_exists, not_and]
  refine forall₂_congr fun r hr ↦ ?_
  rw [covers_iff, Region.stop_eq (hf r hr), not_and]

theorem mappedFrom_iff (hf : ∀ r ∈ t, r.addr + r.len < 2 ^ 32) {e p : ℕ} :
    mappedFrom t e p = true ↔ ∀ x, p ≤ x → x < e → Covered t x := by
  constructor
  · intro h x hx hxe
    obtain ⟨r, hr, hlo, hhi⟩ := mappedFrom_covered h hx hxe
    rw [Region.stop_eq (hf r hr)] at hhi
    exact ⟨r, hr, hlo, hhi⟩
  · intro h
    induction p using mappedFrom.induct (t := t) (e := e) with
    | case1 p hpe hnone =>
      have hsome := (regionFind_isSome hf).mpr (h p le_rfl hpe)
      rw [hnone] at hsome
      cases hsome
    | case2 p hpe hit hfind ih =>
      have hlt := (regionFind_hit hfind).2
      rw [mappedFrom, if_pos hpe]
      split
      · next hnone => cases hfind.symm.trans hnone
      · next hit' hfind' =>
        cases hfind.symm.trans hfind'
        exact ih fun x hx ↦ h x (hlt.le.trans hx)
    | case3 p hpe => rw [mappedFrom, if_neg hpe]

theorem covered_page (ht : ∀ r ∈ t, r.addr % 0x1000 = 0 ∧ r.len % 0x1000 = 0) {x y : ℕ}
    (hx : Covered t x) (hlo : pageStart x ≤ y) (hhi : y < pageStart x + 0x1000) : Covered t y := by
  obtain ⟨r, hr, hx⟩ := hx
  obtain ⟨ha, hl⟩ := ht r hr
  rw [covers_iff] at hx
  refine ⟨r, hr, covers_iff.mpr ?_⟩
  unfold pageStart at hlo hhi
  omega

theorem last_page {a x : ℕ} (ha : 0 < a) (hx : a ≤ x) (hxe : x < roundUp a) :
    pageStart (a - 1) ≤ x ∧ x < pageStart (a - 1) + 0x1000 := by
  unfold pageStart
  unfold roundUp at hxe
  omega

theorem wrapped_page {x : ℕ} (hl : len < 2 ^ 32) (hend : 2 ^ 32 ≤ roundUp (addr + len))
    (hx : addr ≤ x) (hxe : x < pageAlign (addU addr len)) :
    pageStart addr ≤ x ∧ x < pageStart addr + 0x1000 := by
  unfold pageStart
  unfold roundUp at hend
  unfold pageAlign addU at hxe
  omega

theorem fullyMapped_iff (hm : WellFormed m) (hpos : 0 < len)
    (hend : roundUp (addr + len) < 2 ^ 32) :
    FullyMapped m.regions addr len ↔
      ∀ x, addr ≤ x → x < roundUp (addr + len) → Covered m.regions x := by
  have hle := le_roundUp (addr + len)
  constructor
  · intro h x hx hxe
    by_cases hlast : x < addr + len
    · exact (h x hx hlast).2
    · obtain ⟨hlo, hhi⟩ := last_page (by omega) (not_lt.mp hlast) hxe
      exact covered_page hm.tidy.aligned (h (addr + len - 1) (by omega) (by omega)).2 hlo hhi
  · exact fun h x hx hxe ↦ ⟨by omega, h x hx (by omega)⟩

theorem not_fullyMapped (hm : WellFormed m) (hpos : 0 < len)
    (hend : 2 ^ 32 ≤ roundUp (addr + len)) : ¬ FullyMapped m.regions addr len := by
  intro h
  obtain ⟨hlt, r, hr, hx⟩ := h (addr + len - 1) (by omega) (by omega)
  have hfits := hm.tidy.fits r hr
  obtain ⟨ha, hl⟩ := hm.tidy.aligned r hr
  rw [covers_iff] at hx
  unfold roundUp at hend
  omega

theorem mappedFrom_wrapped (hm : WellFormed m) (hl : len < 2 ^ 32)
    (hend : 2 ^ 32 ≤ roundUp (addr + len)) :
    mappedFrom m.regions (pageAlign (addU addr len)) addr = true ↔
      ¬ (addr < pageAlign (addU addr len) ∧ ¬ Covered m.regions addr) := by
  rw [mappedFrom_iff hm.tidy.fits]
  constructor
  · rintro h ⟨hlt, hno⟩
    exact hno (h addr le_rfl hlt)
  · intro h x hx hxe
    have hcov : Covered m.regions addr := by
      by_contra hno
      exact h ⟨by omega, hno⟩
    obtain ⟨hlo, hhi⟩ := wrapped_page hl hend hx hxe
    exact covered_page hm.tidy.aligned hcov hlo hhi

theorem mmanMapped_iff (hm : WellFormed m) (hl : len < 2 ^ 32) (hpos : 0 < len) :
    (mmanMapped m addr len = true ↔ FullyMapped m.regions addr len) ↔ MappedRight m addr len := by
  unfold MappedRight
  by_cases hready : m.ready = true
  · have hwalk : mmanMapped m addr len = true ↔
        mappedFrom m.regions (pageAlign (addU addr len)) addr = true := by
      simp [mmanMapped, hready]
    rw [hwalk, or_iff_right (by simp [hready])]
    by_cases hend : roundUp (addr + len) < 2 ^ 32
    · have hsum : addU addr len = addr + len :=
        Nat.mod_eq_of_lt ((le_roundUp (addr + len)).trans_lt hend)
      rw [hsum, pageAlign_eq hend, mappedFrom_iff hm.tidy.fits, fullyMapped_iff hm hpos hend]
      exact iff_of_true Iff.rfl (.inl hend)
    · have hno := not_fullyMapped hm hpos (not_lt.mp hend)
      rw [mappedFrom_wrapped hm hl (not_lt.mp hend), iff_false_right hno, not_not,
        or_iff_right hend]
  · have hready : m.ready = false := by simpa using hready
    refine iff_of_true (iff_of_false ?_ fun h ↦ ?_) (.inl hready)
    · simp [mmanMapped, hready]
    · have hcov := (h addr le_rfl (by omega)).2
      rw [hm.unready hready] at hcov
      exact covered_nil addr hcov

end Walk

section Callers

variable {m : State} {addr len : ℕ}

theorem lockCall_mapped (hpos : 0 < len) (h : (lockCall m addr len).1 = 0) :
    mmanMapped m addr len = true := by
  by_contra hno
  rw [Bool.not_eq_true] at hno
  simp [lockCall, hno, hpos.ne'] at h

theorem RangeCall.Accepts.mapped {c : RangeCall} (hpos : 0 < len) (h : c.Accepts m addr len) :
    mmanMapped m addr len = true := by
  by_contra hmap
  have hno : mmanMapped m addr len = false := by simpa using hmap
  cases c with
  | mlock => exact hmap (lockCall_mapped hpos h)
  | munlock => exact hmap (lockCall_mapped hpos h)
  | mincore vec =>
    simp only [Accepts, Mman.mincore] at h
    split at h <;> simp [hno, hpos.ne'] at h
  | madvise k advice =>
    simp only [Accepts, Mman.madvise] at h
    split at h
    · simp at h
    · cases advice <;> simp [hno, hpos.ne'] at h
  | posixMadvise advice =>
    simp only [Accepts, Mman.posixMadvise] at h
    split at h
    · simp [EINVAL] at h
    · cases advice <;> simp [hno, hpos.ne', EINVAL, ENOMEM] at h
  | mremap k newLen flags fixedArg =>
    have hout := mremap_outcome m k addr len newLen flags fixedArg
    simp only [Accepts] at h
    generalize Mman.mremap m k addr len newLen flags fixedArg = res at hout h
    cases hout with
    | refused => exact absurd rfl h
    | mapFailed => exact absurd rfl h
    | resized _ _ _ _ _ _ _ hyes => exact hmap hyes
    | moved _ _ _ _ _ _ _ _ hyes => exact hmap hyes

end Callers

/-- When the answer of `__mman_mapped` is right; where it is, no call accepts a range that is not
fully mapped. -/
theorem mmanMapped_exact {m : State} (hm : WellFormed m) {addr len : ℕ} (hl : len < 2 ^ 32)
    (hpos : 0 < len) :
    ((mmanMapped m addr len = true ↔ FullyMapped m.regions addr len) ↔ MappedRight m addr len) ∧
    (MappedRight m addr len → ∀ c : RangeCall, c.Accepts m addr len →
      FullyMapped m.regions addr len) := by
  have hiff := @mmanMapped_iff m addr len hm hl hpos
  exact ⟨hiff, fun hright c hc ↦ (hiff.mpr hright).mp (hc.mapped hpos)⟩

theorem mmanMapped_exact_threePages : mmanMapped threePages 0x81000000 0x2001 = true := by
  have hright : MappedRight threePages 0x81000000 0x2001 := .inr (.inl (by decide))
  refine ((mmanMapped_exact threePages_wellFormed (by decide) (by decide)).1.mpr hright).mpr ?_
  intro x hlo hhi
  refine ⟨by omega, ⟨0x81000000, 0x3000, -1, 3⟩, List.mem_singleton_self _, covers_iff.mpr ?_⟩
  dsimp only
  omega

/-- The end of the last page of the address space wraps to 0, and the walk has nothing to do. -/
theorem mmanMapped_accepts_last_page :
    mmanMapped threePages 0xfffff000 0x1000 = true ∧
    (mlock threePages 0xfffff000 0x1000).1 = 0 ∧
    ¬ FullyMapped threePages.regions 0xfffff000 0x1000 := by
  have hwalk : mmanMapped threePages 0xfffff000 0x1000 = true := by
    simp [mmanMapped, threePages, mappedFrom, pageAlign, addU]
  refine ⟨hwalk, ?_, not_fullyMapped threePages_wellFormed (by decide) (by decide)⟩
  simp [mlock, lockCall, hwalk]

end SceLibcPosix.Mman
