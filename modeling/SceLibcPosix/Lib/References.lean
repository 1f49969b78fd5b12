import Mathlib.Algebra.BigOperators.Group.Finset.Piecewise
import Mathlib.Data.Fintype.EquivFin

namespace SceLibcPosix.References

variable {ι κ : Type*} [Fintype ι] [DecidableEq κ]

/-- How many slots of a map point to `k`. -/
def refs (f : ι → Option κ) (k : κ) : ℕ := (Finset.univ.filter (f · = some k)).card

theorem refs_pos {f : ι → Option κ} {k : κ} : 0 < refs f k ↔ ∃ i, f i = some k := by
  simp [refs, Finset.card_pos, Finset.filter_nonempty_iff]

theorem refs_unique {f : ι → Option κ} {k : κ} (h : refs f k ≤ 1) {i j : ι} (hi : f i = some k)
    (hj : f j = some k) : i = j :=
  Finset.card_le_one.mp h i (by simpa using hi) j (by simpa using hj)

/-- Where there are no more slots than there is to point to, and something points to all of it, no
slot is empty. -/
theorem refs_full [Fintype κ] {f : ι → Option κ} (hcard : Fintype.card ι ≤ Fintype.card κ)
    (h : ∀ k, 0 < refs f k) (i : ι) : f i ≠ none := by
  choose slot hslot using fun k ↦ refs_pos.mp (h k)
  have hinj : Function.Injective slot := fun k k' heq ↦
    Option.some.inj ((hslot k).symm.trans (heq ▸ hslot k'))
  have hcard' : Fintype.card κ = Fintype.card ι :=
    le_antisymm (Fintype.card_le_of_injective slot hinj) hcard
  obtain ⟨k, rfl⟩ := ((Fintype.bijective_iff_injective_and_card slot).mpr ⟨hinj, hcard'⟩).2 i
  rw [hslot]
  exact Option.some_ne_none k

theorem refs_update [DecidableEq ι] (f : ι → Option κ) (i : ι) (v : Option κ) (k : κ) :
    refs (Function.update f i v) k + (if f i = some k then 1 else 0) =
      refs f k + if v = some k then 1 else 0 := by
  have hsplit : ∀ g : ι → Option κ, refs g k = (if g i = some k then 1 else 0) +
      ∑ j ∈ Finset.univ.erase i, if g j = some k then 1 else 0 := by
    intro g
    rw [refs, Finset.card_filter]
    exact (Finset.add_sum_erase _ (fun j ↦ if g j = some k then 1 else 0) (Finset.mem_univ i)).symm
  have hrest : ∑ j ∈ Finset.univ.erase i, (if Function.update f i v j = some k then 1 else 0) =
      ∑ j ∈ Finset.univ.erase i, if f j = some k then 1 else 0 := by
    refine Finset.sum_congr rfl fun j hj ↦ ?_
    rw [Function.update_of_ne (Finset.ne_of_mem_erase hj)]
  rw [hsplit, hsplit f, hrest, Function.update_self]
  omega

theorem refs_clear [DecidableEq ι] {f : ι → Option κ} {i : ι} {k : κ} (h : f i = some k) (k' : κ) :
    refs (Function.update f i none) k' + (if k = k' then 1 else 0) = refs f k' := by
  have := refs_update f i none k'
  simpa [h] using this

theorem refs_set [DecidableEq ι] {f : ι → Option κ} {i : ι} (h : f i = none) (k k' : κ) :
    refs (Function.update f i (some k)) k' = refs f k' + if k = k' then 1 else 0 := by
  have := refs_update f i (some k) k'
  simpa [h] using this

theorem refs_self [Fintype κ] (p : κ → Prop) [DecidablePred p] (k : κ) :
    refs (fun i ↦ if p i then some i else none) k = if p k then 1 else 0 := by
  have hiff : ∀ i, (if p i then some i else none) = some k ↔ p k ∧ i = k := by
    intro i
    by_cases hp : p i
    · rw [if_pos hp, Option.some.injEq]
      exact ⟨fun h ↦ ⟨h ▸ hp, h⟩, And.right⟩
    · rw [if_neg hp]
      exact iff_of_false (by simp) fun h ↦ hp (h.2 ▸ h.1)
  rw [refs, Finset.card_filter]
  simp only [hiff]
  by_cases hp : p k
  · simp [hp]
  · simp [hp]

end SceLibcPosix.References
