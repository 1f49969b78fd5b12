import Mathlib.Data.BitVec
import SceLibcPosix.Lib.Numerals

namespace SceLibcPosix.Misc

open Numerals

/-- What `itoa` has stored one after another: to `tmp`, and to `sp`; and what it returns. -/
structure Itoa where
  tmp : List Char
  sp : List Char
  len : ℕ
deriving DecidableEq, Repr

def tmpSize : ℕ := 16

def itoaDigit (i : BitVec 32) : Char :=
  if i.toNat < 10 then Char.ofNat (i.toNat + '0'.toNat) else Char.ofNat (i.toNat + 'a'.toNat - 10)

/-- The loop over the digits, if it ends within `fuel` turns. -/
def itoaLoop (radix : BitVec 32) : ℕ → List Char → BitVec 32 → Option (List Char)
  | 0, _, _ => none
  | fuel + 1, tmp, v =>
    if v ≠ 0 ∨ tmp = [] then itoaLoop radix fuel (tmp ++ [itoaDigit (v % radix)]) (v / radix)
    else some tmp

def itoa (fuel : ℕ) (value radix : BitVec 32) : Option Itoa :=
  let sign := radix = 10 ∧ value.slt 0
  let v := if sign then -value else value
  (itoaLoop radix fuel [] v).map fun tmp ↦
    { tmp := tmp
      sp := (if sign then ['-'] else []) ++ tmp.reverse
      len := tmp.length + if sign then 1 else 0 }

/-- A signed decimal number. -/
def readInt : List Char → Option ℤ
  | '-' :: s => (read 10 s).map fun n ↦ -(n : ℤ)
  | s => (read 10 s).map fun n ↦ (n : ℤ)

/-- The digits stay inside `tmp`, and the text that they leave reads back as the value. -/
structure Itoa.Correct (value radix : BitVec 32) (r : Itoa) : Prop where
  inBounds : r.tmp.length ≤ tmpSize
  length : r.sp.length = r.len
  decimal : radix = 10 → readInt r.sp = some value.toInt
  unsigned : radix ≠ 10 → read radix.toNat r.sp = some value.toNat
  leading : ∀ s, r.sp = '0' :: s → s = []
  leading_neg : ∀ s, r.sp ≠ '-' :: '0' :: s

section Loop

variable {value radix v : BitVec 32} {tmp : List Char} {fuel : ℕ}

theorem itoaDigit_eq (i : BitVec 32) : itoaDigit i = digitChar i.toNat := by
  unfold itoaDigit digitChar
  split
  · rfl
  · exact congrArg Char.ofNat (by simp)

theorem itoaLoop_eq (hradix : 1 < radix.toNat) (htmp : tmp ≠ []) (hfuel : v.toNat < fuel) :
    itoaLoop radix fuel tmp v = some (tmp ++ (radix.toNat.digits v.toNat).map digitChar) := by
  induction fuel generalizing tmp v with
  | zero => exact absurd hfuel (Nat.not_lt_zero _)
  | succ fuel ih =>
    rw [itoaLoop]
    by_cases hv : v = 0
    · rw [if_neg (by simp [hv, htmp]), hv]
      simp
    · have hpos : 0 < v.toNat := Nat.pos_of_ne_zero fun h ↦ hv (BitVec.eq_of_toNat_eq h)
      have hdiv : (v / radix).toNat < fuel := by
        rw [BitVec.toNat_udiv]
        have := Nat.div_lt_self hpos hradix
        omega
      rw [if_pos (.inl hv), ih (by simp) hdiv, itoaDigit_eq, BitVec.toNat_udiv, BitVec.toNat_umod,
        Nat.digits_def' hradix hpos, List.map_cons, List.append_assoc, List.singleton_append]

/-- The loop leaves the digits of the numeral, the last one first. -/
theorem itoaLoop_numeral (hradix : 1 < radix.toNat) (hfuel : v.toNat + 1 < fuel) :
    itoaLoop radix fuel [] v = some (numeral radix.toNat v.toNat).reverse := by
  obtain ⟨fuel, rfl⟩ : ∃ k, fuel = k + 1 := ⟨fuel - 1, by omega⟩
  have hdiv : (v / radix).toNat < fuel := by
    rw [BitVec.toNat_udiv]
    have := Nat.div_le_self v.toNat radix.toNat
    omega
  rw [itoaLoop, if_pos (.inr rfl), itoaLoop_eq hradix (by simp) hdiv, itoaDigit_eq,
    BitVec.toNat_udiv, BitVec.toNat_umod, numeral]
  split
  · next hv => simp [hv]
  · next hv =>
    have hdigits := Nat.digits_def' hradix (Nat.pos_of_ne_zero hv)
    rw [List.map_reverse, List.reverse_reverse, hdigits]
    rfl

end Loop

section Text

variable {n : ℕ} {s : List Char}

theorem numeral_not_neg (b : ℕ) (hb : 1 < b) (hb' : b ≤ 36) : numeral b n ≠ '-' :: s := by
  intro h
  have hdigit := (isNumeral_numeral hb hb' n).2 '-' (h ▸ List.mem_cons_self)
  exact absurd hdigit (by simp [isDigit, digitOf, charVal])

theorem readInt_numeral (n : ℕ) : readInt (numeral 10 n) = some (n : ℤ) := by
  unfold readInt
  split
  · next s h => exact absurd h (numeral_not_neg 10 (by omega) (by omega))
  · rw [read_numeral (by omega) (by omega)]
    rfl

theorem readInt_neg_numeral (n : ℕ) : readInt ('-' :: numeral 10 n) = some (-(n : ℤ)) := by
  rw [readInt, read_numeral (by omega) (by omega)]
  rfl

end Text

/-- The number whose digits `itoa` writes. -/
def magnitude (value radix : BitVec 32) : BitVec 32 :=
  if radix = 10 ∧ value.slt 0 then -value else value

variable {value radix : BitVec 32} {r : Itoa}

def itoaResult (value radix : BitVec 32) : Itoa :=
  let sign := radix = 10 ∧ value.slt 0
  let digits := numeral radix.toNat (magnitude value radix).toNat
  { tmp := digits.reverse
    sp := (if sign then ['-'] else []) ++ digits
    len := digits.length + if sign then 1 else 0 }

theorem itoa_eq {fuel : ℕ} (hradix : 1 < radix.toNat)
    (hfuel : (magnitude value radix).toNat + 1 < fuel) :
    itoa fuel value radix = some (itoaResult value radix) := by
  have hloop := itoaLoop_numeral hradix hfuel
  unfold magnitude at hloop
  simp only [itoa, hloop, Option.map_some, List.reverse_reverse, List.length_reverse]
  rfl

theorem magnitude_of_ne (h : radix ≠ 10) : magnitude value radix = value :=
  if_neg fun h' ↦ h h'.1

theorem magnitude_of_neg (hradix : radix = 10) (h : value.slt 0 = true) :
    ((magnitude value radix).toNat : ℤ) = -value.toInt := by
  have hneg : value.toInt < 0 := by simpa [BitVec.slt_iff_toInt_lt] using h
  have hlt := value.isLt
  rw [magnitude, if_pos ⟨hradix, h⟩, BitVec.toNat_neg]
  rw [BitVec.toInt_eq_toNat_cond] at hneg ⊢
  split at hneg
  · omega
  · next hhalf =>
    rw [if_neg hhalf, Nat.mod_eq_of_lt (by omega)]
    omega

theorem magnitude_of_nonneg (h : ¬ value.slt 0 = true) :
    ((magnitude value radix).toNat : ℤ) = value.toInt := by
  have hneg : 0 ≤ value.toInt := by simpa [BitVec.slt_iff_toInt_lt] using h
  have hlt := value.isLt
  rw [magnitude, if_neg fun h' ↦ h h'.2]
  rw [BitVec.toInt_eq_toNat_cond] at hneg ⊢
  split at hneg
  · next hhalf => rw [if_pos hhalf]
  · omega

/-- Ten digits hold every number, so that only the unsigned value matters. -/
theorem magnitude_lt_iff :
    (magnitude value radix).toNat < radix.toNat ^ tmpSize ↔
      value.toNat < radix.toNat ^ tmpSize := by
  by_cases hradix : radix = 10
  · have hpow : 2 ^ 32 ≤ radix.toNat ^ tmpSize := by
      rw [hradix]
      decide
    exact iff_of_true (Nat.lt_of_lt_of_le (BitVec.isLt _) hpow)
      (Nat.lt_of_lt_of_le value.isLt hpow)
  · rw [magnitude_of_ne hradix]

theorem itoaResult_inBounds_iff (hradix : 1 < radix.toNat) :
    (itoaResult value radix).tmp.length ≤ tmpSize ↔ value.toNat < radix.toNat ^ tmpSize := by
  rw [itoaResult, List.length_reverse, length_numeral_le_iff hradix (by decide), magnitude_lt_iff]

theorem itoaResult_correct (hradix : 1 < radix.toNat) (hradix' : radix.toNat ≤ 36)
    (h : value.toNat < radix.toNat ^ tmpSize) : (itoaResult value radix).Correct value radix := by
  have hhead {s : List Char} (h : numeral radix.toNat (magnitude value radix).toNat = '0' :: s) :
      s = [] := numeral_head hradix hradix' h
  refine
    { inBounds := (itoaResult_inBounds_iff hradix).mpr h
      length := ?_
      decimal := ?_
      unsigned := ?_
      leading := ?_
      leading_neg := ?_ }
  · simp only [itoaResult]
    split
    · simp [Nat.add_comm]
    · simp
  · intro hten
    have hbase : radix.toNat = 10 := congrArg BitVec.toNat hten
    simp only [itoaResult, hbase]
    by_cases hneg : value.slt 0 = true
    · rw [if_pos ⟨hten, hneg⟩]
      exact (readInt_neg_numeral _).trans (by rw [magnitude_of_neg hten hneg, neg_neg])
    · rw [if_neg fun h' ↦ hneg h'.2]
      exact (readInt_numeral _).trans (by rw [magnitude_of_nonneg hneg])
  · intro hten
    simp only [itoaResult, if_neg fun h' : radix = 10 ∧ _ ↦ hten h'.1, List.nil_append,
      magnitude_of_ne hten]
    exact read_numeral hradix hradix' _
  · intro s hs
    simp only [itoaResult] at hs
    split at hs
    · simp at hs
    · exact hhead hs
  · intro s hs
    simp only [itoaResult] at hs
    split at hs
    · next hneg =>
      have hzero := eq_zero_of_numeral hradix hradix' (List.cons.inj hs).2
      have hvalue := magnitude_of_neg hneg.1 hneg.2
      have hslt : value.toInt < 0 := by simpa [BitVec.slt_iff_toInt_lt] using hneg.2
      omega
    · exact numeral_not_neg _ hradix hradix' hs

/-- `itoa` returns with `r`, whatever the turns beyond the ones that it needs. -/
def Itoa.Returned (value radix : BitVec 32) (r : Itoa) : Prop :=
  ∃ n, ∀ fuel, n ≤ fuel → itoa fuel value radix = some r

theorem returned_iff (hradix : 1 < radix.toNat) :
    r.Returned value radix ↔ r = itoaResult value radix := by
  constructor
  · intro ⟨n, h⟩
    have hr := h (max n ((magnitude value radix).toNat + 2)) (Nat.le_max_left _ _)
    rw [itoa_eq hradix (by omega)] at hr
    exact (Option.some.inj hr).symm
  · rintro rfl
    exact ⟨(magnitude value radix).toNat + 2, fun fuel hfuel ↦ itoa_eq hradix (by omega)⟩

/-- `itoa` is right exactly where the digits fit its 16 bytes. -/
theorem itoa_correct_iff (value radix : BitVec 32) (hradix : 2 ≤ radix.toNat)
    (hradix' : radix.toNat ≤ 36) :
    (∃ r : Itoa, r.Returned value radix ∧ r.Correct value radix) ↔
      value.toNat < radix.toNat ^ 16 := by
  constructor
  · intro ⟨r, hr, hcorrect⟩
    rw [(returned_iff hradix).mp hr] at hcorrect
    exact (itoaResult_inBounds_iff hradix).mp hcorrect.inBounds
  · intro h
    exact ⟨_, (returned_iff hradix).mpr rfl, itoaResult_correct hradix hradix' h⟩

theorem itoa_correct_ff : ∃ r : Itoa, r.Returned 255 16 ∧ r.Correct 255 16 :=
  (itoa_correct_iff 255 16 (by decide) (by decide)).mpr (by decide)

/-- 65536 has 17 binary digits. -/
theorem itoa_overflows : ¬ ∀ value radix : BitVec 32, 2 ≤ radix.toNat → radix.toNat ≤ 36 →
    ∃ r : Itoa, r.Returned value radix ∧ r.Correct value radix := by
  intro h
  obtain ⟨r, hr, hcorrect⟩ := h 65536 2 (by decide) (by decide)
  rw [(returned_iff (by decide)).mp hr] at hcorrect
  exact absurd ((itoaResult_inBounds_iff (by decide)).mp hcorrect.inBounds) (by decide)

end SceLibcPosix.Misc
