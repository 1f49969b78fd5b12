import Mathlib.Data.Fin.Basic
import Mathlib.Data.Nat.ModEq

namespace SceLibcPosix.Rings

variable {α : Type*} {n : ℕ} [NeZero n] {x : Fin n → α} {s : ℕ → α} {m k l : ℕ}

/-- The cell of a ring that the term `k` of a sequence goes to. -/
def cell (n : ℕ) [NeZero n] (k : ℕ) : Fin n := ⟨k % n, Nat.mod_lt k (Nat.pos_of_neZero n)⟩

/-- The cells of a ring hold the terms of a sequence from `m` on. -/
def Holds (x : Fin n → α) (s : ℕ → α) (m : ℕ) : Prop :=
  ∀ k, m ≤ k → k < m + n → x (cell n k) = s k

def next (i : Fin n) : Fin n :=
  if h : i.val + 1 < n then ⟨i.val + 1, h⟩ else ⟨0, Nat.pos_of_neZero n⟩

theorem cell_add_size (k : ℕ) : cell n (k + n) = cell n k := Fin.ext (Nat.add_mod_right k n)

theorem next_cell (k : ℕ) : next (cell n k) = cell n (k + 1) := by
  have hlt := Nat.mod_lt k (Nat.pos_of_neZero n)
  apply Fin.ext
  unfold next
  by_cases h : k % n + 1 < n
  · rw [dif_pos (show (cell n k).val + 1 < n from h)]
    exact (Nat.mod_add_mod k n 1 ▸ Nat.mod_eq_of_lt h).symm
  · rw [dif_neg (show ¬ (cell n k).val + 1 < n from h)]
    have hn : k % n + 1 = n := by omega
    change 0 = (k + 1) % n
    rw [← Nat.mod_add_mod, hn, Nat.mod_self]

theorem cell_ne (hlt : k < l) (hturn : l < k + n) : cell n k ≠ cell n l := by
  intro h
  have hmod : k ≡ l [MOD n] := Fin.val_eq_of_eq h
  obtain ⟨c, hc⟩ := (Nat.modEq_iff_dvd' hlt.le).mp hmod
  have hpos : 0 < c := Nat.pos_of_ne_zero (by rintro rfl; omega)
  have := Nat.le_mul_of_pos_right n hpos
  omega

theorem Holds.push (h : Holds x s m) :
    Holds (Function.update x (cell n m) (s (m + n))) s (m + 1) := by
  intro k hmk hk
  by_cases hnew : k = m + n
  · subst hnew
    rw [cell_add_size, Function.update_self]
  · rw [Function.update_of_ne (cell_ne (by omega) (by omega)).symm]
    exact h k (by omega) (by omega)

theorem next_injective : Function.Injective (next : Fin n → Fin n) := by
  intro i j h
  have hi := i.isLt
  have hj := j.isLt
  have hval := Fin.val_eq_of_eq h
  unfold next at hval
  apply Fin.ext
  split at hval <;> split at hval <;> dsimp only at hval <;> omega

end SceLibcPosix.Rings
