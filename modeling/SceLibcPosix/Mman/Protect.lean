import SceLibcPosix.Mman.Commit
import SceLibcPosix.Mman.Mapped
import SceLibcPosix.VitaError

namespace SceLibcPosix.Mman

open Errno VitaError Spans

instance (t : List Region) (x : ℕ) : Decidable (Covered t x) :=
  inferInstanceAs (Decidable (∃ r ∈ t, Covers r x))

def mprotect (net : NetErrno → ℤ) (m : State) (k : Answers) (addr len : ℕ) (prot : BitVec 32) :
    ℤ × ℤ × State :=
  let start := pageStart addr
  let stop := pageAlign (addU addr len)
  if len = 0 then (-1, EINVAL, m)
  else
    let (ret, m) := mmanProtect m k start (subU stop start) prot
    if ret < 0 then (-1, sceErrnoToErrno net ret .GENERIC, m) else (0, 0, m)

/-- A successful call records `prot` for the mapped addresses from `s` to `e` and nothing else, a
failing one records nothing. -/
structure RecordsExactly (m : State) (res : ℤ × ℤ × State) (s e : ℕ) (prot : BitVec 32) : Prop where
  success : res.1 = 0 → ∀ q, mmanProtOf res.2.2 q =
    if s ≤ q ∧ q < e ∧ Covered m.regions q then prot else mmanProtOf m q
  failure : res.1 ≠ 0 → ∀ q, mmanProtOf res.2.2 q = mmanProtOf m q

/-- The entry ends in the range, whose end may have wrapped. -/
def Whole (addr len : ℕ) (r : Region) : Prop :=
  pageStart addr ≤ r.addr ∧ r.addr + r.len ≤ pageAlign (addU addr len)

instance (addr len : ℕ) (r : Region) : Decidable (Whole addr len r) :=
  inferInstanceAs (Decidable (_ ∧ _))

/-- Before a call that the kernel lets pass, the entries that the range meets lie in it or have the
protection; before one that it fails, the entries in the range have the protection. -/
def Recordable (m : State) (k : Answers) (addr len : ℕ) (prot : BitVec 32) : Prop :=
  if m.haveKubridge = true ∧ k.protect < 0 then
    ∀ r ∈ m.regions, Whole addr len r → r.prot = prot
  else
    ∀ r ∈ m.regions, Meets (pageStart addr) (roundUp (addr + len)) r →
      Whole addr len r ∨ r.prot = prot

section

variable {net : NetErrno → ℤ} {m : State} {k : Answers} {addr len : ℕ} {prot : BitVec 32}

theorem mmanProtOf_entry (ht : Tidy m.regions) (hready : m.ready = true) {r : Region}
    (hr : r ∈ m.regions) {q : ℕ} (hq : Covers r q) : mmanProtOf m q = r.prot := by
  obtain ⟨h, hfind⟩ := Option.isSome_iff_exists.mp ((regionFind_isSome ht.fits).mpr ⟨r, hr, hq⟩)
  obtain ⟨hlo, hhi⟩ := regionFind_hit hfind
  rw [Region.stop_eq (ht.fits _ h.mem)] at hhi
  have heq : r = h.entry := ht.ordered.unique hr h.mem hq (covers_iff.mpr ⟨hlo, hhi⟩)
  simp [mmanProtOf, hready, hfind, heq]

theorem mmanProtOf_none (ht : Tidy m.regions) {q : ℕ} (hq : ¬ Covered m.regions q) :
    mmanProtOf m q = -1 := by
  have hfind : regionFind m.regions q = none := by
    rw [← Option.not_isSome_iff_eq_none, regionFind_isSome ht.fits]
    exact hq
  simp [mmanProtOf, hfind]

/-- The table that `__mman_protect` leaves, where `mprotect` calls it. -/
def recorded (m : State) (addr len : ℕ) (prot : BitVec 32) : State :=
  m.setRegions (m.regions.map fun r ↦ if Whole addr len r then { r with prot := prot } else r)

theorem protect_end (ha : addr < 2 ^ 32) :
    addU (pageStart addr) (pageAlign (subU (pageAlign (addU addr len)) (pageStart addr))) =
      pageAlign (addU addr len) := by
  have hal := pageAlign_mod (addU addr len)
  have hlt := pageAlign_lt (addU addr len)
  generalize pageAlign (addU addr len) = e at *
  unfold pageAlign addU subU pageStart
  omega

theorem mprotect_eq (hm : WellFormed m) (hready : m.ready = true) (hpos : 0 < len)
    (ha : addr < 2 ^ 32) :
    ((mprotect net m k addr len prot).1 = 0 ↔ ¬ (m.haveKubridge = true ∧ k.protect < 0)) ∧
    (mprotect net m k addr len prot).2.2 = recorded m addr len prot := by
  have htab : (m.regions.map fun r ↦ if pageStart addr ≤ r.addr ∧ r.stop ≤
      pageAlign (addU addr len) then { r with prot := prot } else r) =
      (recorded m addr len prot).regions := by
    refine List.map_congr_left fun r hr ↦ ?_
    rw [Region.stop_eq (hm.tidy.fits r hr)]
    rfl
  have hprotect : mmanProtect m k (pageStart addr)
      (subU (pageAlign (addU addr len)) (pageStart addr)) prot =
      (if m.haveKubridge then k.protect else 0, recorded m addr len prot) := by
    simp only [mmanProtect, hready, protect_end ha, State.lock_regions, State.lock_haveKubridge,
      htab]
    rfl
  simp only [mprotect, if_neg hpos.ne', hprotect]
  by_cases hk : m.haveKubridge = true
  · by_cases hp : k.protect < 0
    · simp [hk, hp]
    · simp [hk, hp]
  · simp [hk]

theorem recorded_protOf (hm : WellFormed m) (hready : m.ready = true) {r : Region}
    (hr : r ∈ m.regions) {q : ℕ} (hq : Covers r q) :
    mmanProtOf (recorded m addr len prot) q = if Whole addr len r then prot else r.prot := by
  have ht : Tidy (recorded m addr len prot).regions := hm.tidy.map fun r ↦ by
    split <;> exact ⟨rfl, rfl⟩
  have hmem := List.mem_map_of_mem (f := fun r ↦
    if Whole addr len r then { r with prot := prot } else r) hr
  have hcov : Covers (if Whole addr len r then { r with prot := prot } else r) q := by
    split <;> exact hq
  rw [mmanProtOf_entry ht hready hmem hcov]
  split <;> rfl

theorem recorded_none (hm : WellFormed m) {q : ℕ} (hq : ¬ Covered m.regions q) :
    mmanProtOf (recorded m addr len prot) q = -1 := by
  have hgeom : ∀ r : Region,
      (if Whole addr len r then { r with prot := prot } else r).addr = r.addr ∧
      (if Whole addr len r then { r with prot := prot } else r).len = r.len := fun r ↦ by
    split <;> exact ⟨rfl, rfl⟩
  exact mmanProtOf_none (hm.tidy.map hgeom) fun h ↦ hq ((covered_map hgeom).mp h)

theorem recorded_iff (hm : WellFormed m) (hready : m.ready = true) {f : ℕ → BitVec 32}
    (hf : ∀ q, ¬ Covered m.regions q → f q = -1) :
    (∀ q, mmanProtOf (recorded m addr len prot) q = f q) ↔
      ∀ r ∈ m.regions, ∀ q, Covers r q → (if Whole addr len r then prot else r.prot) = f q := by
  constructor
  · intro h r hr q hq
    rw [← recorded_protOf hm hready hr hq, h]
  · intro h q
    by_cases hq : Covered m.regions q
    · obtain ⟨r, hr, hq⟩ := hq
      rw [recorded_protOf hm hready hr hq, h r hr q hq]
    · rw [recorded_none hm hq, hf q hq]

theorem Whole.range {r : Region} (h : Whole addr len r) {q : ℕ} (hq : Covers r q) :
    pageStart addr ≤ q ∧ q < roundUp (addr + len) := by
  obtain ⟨hlo, hhi⟩ := h
  rw [covers_iff] at hq
  have hend : pageAlign (addU addr len) ≤ roundUp (addr + len) := by
    unfold pageAlign addU roundUp
    omega
  omega

theorem success_iff (hm : WellFormed m) (hready : m.ready = true) (hpos : 0 < len) :
    (∀ q, mmanProtOf (recorded m addr len prot) q =
      if pageStart addr ≤ q ∧ q < roundUp (addr + len) ∧ Covered m.regions q then prot
      else mmanProtOf m q) ↔
    ∀ r ∈ m.regions, Meets (pageStart addr) (roundUp (addr + len)) r →
      Whole addr len r ∨ r.prot = prot := by
  refine (recorded_iff hm hready fun q hq ↦ ?_).trans (forall₂_congr fun r hr ↦ ?_)
  · rw [if_neg (fun h ↦ hq h.2.2), mmanProtOf_none hm.tidy hq]
  have hcov : ∀ {q}, Covers r q → Covered m.regions q := fun hq ↦ ⟨r, hr, hq⟩
  by_cases hwhole : Whole addr len r
  · refine iff_of_true (fun q hq ↦ ?_) fun _ ↦ .inl hwhole
    obtain ⟨hlo, hhi⟩ := hwhole.range hq
    rw [if_pos hwhole, if_pos ⟨hlo, hhi, hcov hq⟩]
  · rw [or_iff_right hwhole]
    constructor
    · rintro h ⟨hlo, hhi⟩
      have hrpos := hm.nonempty r hr
      have hrange : pageStart addr < roundUp (addr + len) := by
        unfold pageStart roundUp
        omega
      have hq : Covers r (max (pageStart addr) r.addr) := covers_iff.mpr (by omega)
      have heq := h _ hq
      rwa [if_neg hwhole, if_pos ⟨le_max_left _ _, by omega, hcov hq⟩] at heq
    · intro h q hq
      rw [if_neg hwhole, mmanProtOf_entry hm.tidy hready hr hq]
      split
      · next hrange =>
        rw [covers_iff] at hq
        exact h ⟨by omega, by omega⟩
      · rfl

theorem failure_iff (hm : WellFormed m) (hready : m.ready = true) :
    (∀ q, mmanProtOf (recorded m addr len prot) q = mmanProtOf m q) ↔
      ∀ r ∈ m.regions, Whole addr len r → r.prot = prot := by
  refine (recorded_iff hm hready fun q hq ↦ mmanProtOf_none hm.tidy hq).trans
    (forall₂_congr fun r hr ↦ ?_)
  constructor
  · intro h hwhole
    have hpos := hm.nonempty r hr
    have hq : Covers r r.addr := covers_iff.mpr (by omega)
    have heq := h r.addr hq
    rw [if_pos hwhole, mmanProtOf_entry hm.tidy hready hr hq] at heq
    exact heq.symm
  · intro h q hq
    rw [mmanProtOf_entry hm.tidy hready hr hq]
    split
    · next hwhole => exact (h hwhole).symm
    · rfl

end

/-- When `mprotect` records the protection of exactly the pages of its range. -/
theorem mprotect_records_iff (net : NetErrno → ℤ) {m : State} (hm : WellFormed m) (k : Answers)
    {addr len : ℕ} (ha : addr < 2 ^ 32) (hpos : 0 < len) (prot : BitVec 32) :
    RecordsExactly m (mprotect net m k addr len prot) (pageStart addr) (roundUp (addr + len)) prot ↔
      Recordable m k addr len prot := by
  by_cases hready : m.ready = true
  · obtain ⟨hret, hstate⟩ := @mprotect_eq net m k addr len prot hm hready hpos ha
    unfold Recordable
    split
    · next hk =>
      have hfail : (mprotect net m k addr len prot).1 ≠ 0 := fun h ↦ hret.mp h hk
      rw [← failure_iff hm hready, ← hstate]
      exact ⟨fun h ↦ h.failure hfail, fun h ↦ ⟨fun h' ↦ absurd h' hfail, fun _ ↦ h⟩⟩
    · next hk =>
      have hok := hret.mpr hk
      rw [← success_iff hm hready hpos, ← hstate]
      exact ⟨fun h ↦ h.success hok, fun h ↦ ⟨fun _ ↦ h, fun h' ↦ absurd hok h'⟩⟩
  · have hready : m.ready = false := by simpa using hready
    have hnil := hm.unready hready
    have heq : (mprotect net m k addr len prot).1 = -1 ∧
        (mprotect net m k addr len prot).2.2 = m := by
      simp [mprotect, mmanProtect, hready, hpos.ne']
    refine iff_of_true ⟨fun h ↦ ?_, fun _ ↦ by rw [heq.2]; exact fun _ ↦ rfl⟩ ?_
    · rw [heq.1] at h
      cases h
    · unfold Recordable
      simp [hnil]

theorem mprotect_records_threePages :
    RecordsExactly threePages (mprotect (fun _ ↦ 0) threePages poolAnswers 0x81000000 0x2fff 1)
      0x81000000 0x81003000 1 := by
  refine (mprotect_records_iff _ threePages_wellFormed poolAnswers (by decide) (by decide) 1).mpr ?_
  rw [Recordable, if_neg (by decide)]
  intro r hr _
  rw [List.mem_singleton.mp hr]
  exact .inl (by decide)

/-- One page of three is not recorded where the call succeeds, and two pages are where it fails. -/
theorem mprotect_misrecords :
    ((mprotect (fun _ ↦ 0) threePages poolAnswers 0x81001000 0x1000 1).1 = 0 ∧
      mmanProtOf (mprotect (fun _ ↦ 0) threePages poolAnswers 0x81001000 0x1000 1).2.2 0x81001000 =
        3) ∧
    (mprotect (fun _ ↦ 0) kuPages { kuAnswers with protect := -1 } 0x90000000 0x2000 1).1 = -1 ∧
    mmanProtOf kuPages 0x90000000 = 3 ∧
    mmanProtOf (mprotect (fun _ ↦ 0) kuPages { kuAnswers with protect := -1 }
      0x90000000 0x2000 1).2.2 0x90000000 = 1 := by
  decide +kernel

end SceLibcPosix.Mman
