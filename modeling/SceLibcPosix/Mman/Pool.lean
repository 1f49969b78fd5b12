import Mathlib.Order.Bounds.Basic
import SceLibcPosix.Mman.Runs

namespace SceLibcPosix.Mman

open Spans

variable {m : State} {len a : ℕ}

/-- The range of `len` bytes at `a` lies inside the pool and meets no entry of the table. No sum
wraps here. -/
structure Vacant (m : State) (len a : ℕ) : Prop where
  lo : m.vmBase ≤ a
  hi : a + len ≤ m.vmBase + poolSize
  free : ∀ r ∈ m.regions, ∀ x, a ≤ x → x < a + len → ¬ Covers r x

theorem apart_iff {r : Region} (hr : 0 < r.len) (hlen : 0 < len) :
    (∀ x, a ≤ x → x < a + len → ¬ Covers r x) ↔ r.addr + r.len ≤ a ∨ a + len ≤ r.addr := by
  constructor
  · intro h
    by_contra hn
    rw [not_or, not_le, not_le] at hn
    by_cases ha : a ≤ r.addr
    · exact h r.addr ha hn.2 ⟨le_rfl, Nat.lt_add_of_pos_right hr⟩
    · exact h a le_rfl (by omega) ⟨(not_le.mp ha).le, hn.1⟩
  · intro h x hlo hhi hc
    rw [covers_iff] at hc
    omega

/-- The scan never passes an address where the range would fit: it moves on only to the end of an
entry that the range meets, and where `cand + len` wraps no range fits any more. -/
theorem vmPoolScan_le {t : List Region} (hf : ∀ r ∈ t, r.addr + r.len < 2 ^ 32) {cand : ℕ}
    (ha : a + len < 2 ^ 32) (hfree : ∀ r ∈ t, r.addr + r.len ≤ a ∨ a + len ≤ r.addr)
    (hc : cand ≤ a) : vmPoolScan len cand t ≤ a := by
  induction t generalizing cand with
  | nil => exact hc
  | cons r t ih =>
    rw [List.forall_mem_cons] at hf hfree
    rw [vmPoolScan]
    split
    · exact ih hf.2 hfree.2 hc
    split
    · exact hc
    next hb =>
    apply ih hf.2 hfree.2
    have hsum : addU cand len = cand + len := Nat.mod_eq_of_lt (by omega)
    rw [Region.stop_eq hf.1]
    split <;> omega

theorem vmPoolAlloc_of_fits (hend : m.vmBase + poolSize < 2 ^ 32)
    (h : vmPoolScan len m.vmBase m.regions + len ≤ m.vmBase + poolSize) :
    vmPoolAlloc m len = vmPoolScan len m.vmBase m.regions := by
  unfold vmPoolAlloc
  dsimp only
  rw [if_neg]
  unfold subU addU
  omega

theorem vmPoolAlloc_of_not_fits (hend : m.vmBase + poolSize < 2 ^ 32) (hlen : len < 2 ^ 32)
    (h : ¬ vmPoolScan len m.vmBase m.regions + len ≤ m.vmBase + poolSize) :
    vmPoolAlloc m len = NULL := by
  unfold vmPoolAlloc
  dsimp only
  rw [if_pos]
  unfold subU addU
  omega

/-- The scan ends at the lowest vacant address if there is one, and otherwise where the range does
not fit. -/
theorem vmPoolScan_vacant (ht : InOrder m.regions) (hp : PoolTable m) (hu : 0 ≤ m.vmUid)
    (hlen : 0 < len) : Vacant m len (vmPoolScan len m.vmBase m.regions) ↔
      vmPoolScan len m.vmBase m.regions + len ≤ m.vmBase + poolSize := by
  refine ⟨Vacant.hi, fun hhi ↦ ?_⟩
  have hend := (hp.placed hu).2
  have huid : ∀ r ∈ m.regions, r.uid < 0 := by
    intro r hr
    rw [(hp.inside r hr).1]
    decide
  obtain ⟨hlo, hfree, -⟩ := vmPoolScan_spec (n := len) ht.sorted ht.fits huid m.vmBase
  refine ⟨hlo, hhi, fun r hr ↦ (apart_iff (ht.pos r hr) hlen).mpr (hfree (by omega) r hr)⟩

theorem Vacant.scan_le (ht : InOrder m.regions) (hp : PoolTable m) (hu : 0 ≤ m.vmUid)
    (hlen : 0 < len) (h : Vacant m len a) : vmPoolScan len m.vmBase m.regions ≤ a := by
  have hend := (hp.placed hu).2
  have hhi := h.hi
  refine vmPoolScan_le ht.fits (by omega) (fun r hr ↦ ?_) h.lo
  exact (apart_iff (ht.pos r hr) hlen).mp (h.free r hr)

/-- `_vm_pool_alloc` is first-fit: it returns the lowest vacant address of the pool, and `NULL` if
there is none. -/
theorem vmPoolAlloc_firstFit (ht : InOrder m.regions) (hp : PoolTable m) (hu : 0 ≤ m.vmUid)
    (hbase : m.vmBase ≠ NULL) (hpos : 0 < len) (hlen : len < 2 ^ 32) :
    (vmPoolAlloc m len ≠ NULL → IsLeast {a | Vacant m len a} (vmPoolAlloc m len)) ∧
    (vmPoolAlloc m len = NULL ↔ ¬ ∃ a, Vacant m len a) := by
  have hend := (hp.placed hu).2
  have hvac := vmPoolScan_vacant ht hp hu hpos
  have hleast : ∀ {b}, Vacant m len b → vmPoolScan len m.vmBase m.regions ≤ b :=
    fun h ↦ h.scan_le ht hp hu hpos
  by_cases hfit : vmPoolScan len m.vmBase m.regions + len ≤ m.vmBase + poolSize
  · have hv := hvac.mpr hfit
    rw [vmPoolAlloc_of_fits hend hfit]
    refine ⟨fun _ ↦ ⟨hv, fun b hb ↦ hleast hb⟩, iff_of_false ?_ fun h ↦ h ⟨_, hv⟩⟩
    have := hv.lo
    unfold NULL at hbase ⊢
    omega
  · rw [vmPoolAlloc_of_not_fits hend hlen hfit]
    refine ⟨fun h ↦ absurd rfl h, iff_of_true rfl ?_⟩
    rintro ⟨b, hb⟩
    have := hleast hb
    have := hb.hi
    omega

def fragmented : State :=
  { initMman false fun _ ↦ 0 with
    regions := [⟨0x81000000, 0x1000, -1, 3⟩, ⟨0x81002000, 0x1000, -1, 1⟩]
    vmUid := 1
    vmBase := 0x81000000 }

theorem fragmented_inOrder : InOrder fragmented.regions :=
  ⟨by simp [fragmented], by decide, by decide, by decide⟩

theorem fragmented_pool : PoolTable fragmented :=
  ⟨fun h ↦ absurd h (by decide), fun _ ↦ ⟨by decide, by decide⟩, by decide⟩

/-- The hole takes one page; a length whose sum with the base wraps gets nothing. -/
theorem vmPoolAlloc_firstFit_fragmented :
    IsLeast {a | Vacant fragmented 0x1000 a} 0x81001000 ∧
    vmPoolAlloc fragmented 0xfffff000 = NULL ∧ ¬ ∃ a, Vacant fragmented 0xfffff000 a := by
  have hone := vmPoolAlloc_firstFit fragmented_inOrder fragmented_pool (by decide) (by decide)
    (show 0 < 0x1000 by decide) (by decide)
  have hhuge := vmPoolAlloc_firstFit fragmented_inOrder fragmented_pool (by decide) (by decide)
    (show 0 < 0xfffff000 by decide) (by decide)
  have hhole : vmPoolAlloc fragmented 0x1000 = 0x81001000 := by decide
  have hnull : vmPoolAlloc fragmented 0xfffff000 = NULL := by decide
  rw [hhole] at hone
  exact ⟨hone.1 (by decide), hnull, hhuge.2.mp hnull⟩

end SceLibcPosix.Mman
