import Mathlib.Data.BitVec
import SceLibcPosix.Lib.Flags

namespace SceLibcPosix.Strings

open Flags

def UCHAR_MAX : BitVec 32 := 255

/-- A `size_t` of the target has 32 bits. -/
def ONES : BitVec 32 := -1 / UCHAR_MAX

def HIGHS : BitVec 32 := ONES * (UCHAR_MAX / 2 + 1)

def HASZERO (x : BitVec 32) : BitVec 32 := (x - ONES) &&& ~~~x &&& HIGHS

/-- The bytes of a word in the order of their addresses. -/
def byteOf (x : BitVec 32) (i : ℕ) : BitVec 8 := (x >>> (8 * i)).setWidth 8

variable {x y : BitVec 32} {i : ℕ}

theorem toNat_byteOf (x : BitVec 32) (i : ℕ) :
    (byteOf x i).toNat = x.toNat / 2 ^ (8 * i) % 256 := by
  rw [byteOf, BitVec.toNat_setWidth, BitVec.toNat_ushiftRight, Nat.shiftRight_eq_div_pow]

theorem byteOf_xor : byteOf (x ^^^ y) i = byteOf x i ^^^ byteOf y i := by
  rw [byteOf, BitVec.ushiftRight_xor_distrib, BitVec.setWidth_xor]
  rfl

theorem byteOf_ones (c : BitVec 8) (hi : i < 4) : byteOf (ONES * c.setWidth 32) i = c := by
  apply BitVec.eq_of_toNat_eq
  have hlt := c.isLt
  have hones : ONES.toNat = 16843009 := by decide
  have hwide : c.toNat % 2 ^ 32 = c.toNat := Nat.mod_eq_of_lt (Nat.lt_trans hlt (by decide))
  have hmul : 16843009 * c.toNat % 2 ^ 32 = 16843009 * c.toNat := Nat.mod_eq_of_lt (by omega)
  rw [toNat_byteOf, BitVec.toNat_mul, BitVec.toNat_setWidth, hones, hwide, hmul]
  have h1 : 16843009 * c.toNat / 256 = 65793 * c.toNat := Nat.div_eq_of_lt_le (by omega) (by omega)
  have h2 : 16843009 * c.toNat / 65536 = 257 * c.toNat :=
    Nat.div_eq_of_lt_le (by omega) (by omega)
  have h3 : 16843009 * c.toNat / 16777216 = c.toNat := Nat.div_eq_of_lt_le (by omega) (by omega)
  obtain rfl | rfl | rfl | rfl : i = 0 ∨ i = 1 ∨ i = 2 ∨ i = 3 := by omega
  all_goals omega

theorem byteOf_eq_zero : byteOf x i = 0 ↔ x.toNat / 2 ^ (8 * i) % 256 = 0 := by
  rw [← toNat_byteOf]
  exact ⟨fun h ↦ by rw [h]; rfl, fun h ↦ BitVec.eq_of_toNat_eq h⟩

theorem haszero_bits : HASZERO x ≠ 0 ↔
    ∃ i < 4, ((x - ONES) &&& ~~~x).getLsbD (8 * i + 7) = true := by
  have hhighs : HIGHS = BitVec.twoPow 32 7 ||| BitVec.twoPow 32 15 ||| BitVec.twoPow 32 23 |||
      BitVec.twoPow 32 31 := by decide
  have hhas : HASZERO x ≠ 0 ↔ Has ((x - ONES) &&& ~~~x) HIGHS := Iff.rfl
  rw [hhas, hhighs, has_or_right, has_or_right, has_or_right, has_twoPow (by omega),
    has_twoPow (by omega), has_twoPow (by omega), has_twoPow (by omega)]
  constructor
  · rintro (((h | h) | h) | h)
    · exact ⟨0, by omega, h⟩
    · exact ⟨1, by omega, h⟩
    · exact ⟨2, by omega, h⟩
    · exact ⟨3, by omega, h⟩
  · intro ⟨i, hi, h⟩
    obtain rfl | rfl | rfl | rfl : i = 0 ∨ i = 1 ∨ i = 2 ∨ i = 3 := by omega
    · exact .inl (.inl (.inl h))
    · exact .inl (.inl (.inr h))
    · exact .inl (.inr h)
    · exact .inr h

theorem top_bit (x : BitVec 32) (i : ℕ) :
    x.getLsbD (8 * i + 7) = true ↔ 128 ≤ (byteOf x i).toNat := by
  rw [← BitVec.testBit_toNat, Nat.testBit_eq_decide_div_mod_eq, decide_eq_true_iff, toNat_byteOf,
    Nat.pow_add, ← Nat.div_div_eq_div_mul]
  omega

/-- Below the first zero byte nothing is borrowed. -/
theorem byteOf_sub (hi : i < 4) (h : ∀ j < i, byteOf x j ≠ 0) :
    (byteOf (x - ONES) i).toNat = ((byteOf x i).toNat + 255) % 256 := by
  have hne (j : ℕ) (hj : j < i) : x.toNat / 2 ^ (8 * j) % 256 ≠ 0 := fun h' ↦
    h j hj (byteOf_eq_zero.mpr h')
  have hlt := x.isLt
  have hones : ONES.toNat = 16843009 := by decide
  rw [toNat_byteOf, toNat_byteOf, BitVec.toNat_sub, hones]
  obtain rfl | rfl | rfl | rfl : i = 0 ∨ i = 1 ∨ i = 2 ∨ i = 3 := by omega
  · omega
  · have h0 := hne 0 (by omega)
    omega
  · have h0 := hne 0 (by omega)
    have h1 := hne 1 (by omega)
    omega
  · have h0 := hne 0 (by omega)
    have h1 := hne 1 (by omega)
    have h2 := hne 2 (by omega)
    omega

/-- A zero byte borrows from the bytes above it, and a byte that is not zero from none. -/
theorem haszero_iff (x : BitVec 32) : HASZERO x ≠ 0 ↔ ∃ i < 4, byteOf x i = 0 := by
  have hbit (i : ℕ) (hi : i < 4) : ((x - ONES) &&& ~~~x).getLsbD (8 * i + 7) = true ↔
      128 ≤ (byteOf (x - ONES) i).toNat ∧ ¬ 128 ≤ (byteOf x i).toNat := by
    rw [BitVec.getLsbD_and, Bool.and_eq_true, ← top_bit, ← top_bit, BitVec.getLsbD_not]
    have : 8 * i + 7 < 32 := by omega
    simp [this]
  rw [haszero_bits]
  constructor
  · intro ⟨i, hi, h⟩
    by_contra hnone
    have hne : ∀ j < 4, byteOf x j ≠ 0 := fun j hj hzero ↦ hnone ⟨j, hj, hzero⟩
    have hpos : (byteOf x i).toNat ≠ 0 := fun hzero ↦ hne i hi (BitVec.eq_of_toNat_eq hzero)
    have hsub := byteOf_sub hi fun j hj ↦ hne j (by omega)
    have := (hbit i hi).mp h
    omega
  · intro ⟨i, hi, hzero⟩
    -- the first zero byte is the one that shows
    induction i using Nat.strong_induction_on with
    | h i ih =>
      by_cases hfirst : ∃ j < i, byteOf x j = 0
      · obtain ⟨j, hj, hj0⟩ := hfirst
        exact ih j hj (by omega) hj0
      · have hsub := byteOf_sub hi fun j hj hj0 ↦ hfirst ⟨j, hj, hj0⟩
        refine ⟨i, hi, (hbit i hi).mpr ?_⟩
        rw [hsub, hzero]
        decide

end SceLibcPosix.Strings
