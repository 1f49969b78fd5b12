import Mathlib.Data.Nat.Digits.Lemmas

namespace SceLibcPosix.Numerals

variable {b k n : ℕ} {c : Char} {s t : List Char}

/-- The ten decimal digits, then the small letters. -/
def digitChar (d : ℕ) : Char := if d < 10 then Char.ofNat (d + 48) else Char.ofNat (d + 87)

/-- The value of a digit, letters in either case. -/
def charVal (c : Char) : Option ℕ :=
  if c.isDigit then some (c.toNat - 48)
  else if c.isLower then some (c.toNat - 87)
  else if c.isUpper then some (c.toNat - 55)
  else none

def digitOf (b : ℕ) (c : Char) : Option ℕ := (charVal c).filter (· < b)

def isDigit (b : ℕ) (c : Char) : Bool := (digitOf b c).isSome

/-- What a text denotes in base `b`, most significant digit first. -/
def value (b : ℕ) (s : List Char) : ℕ := s.foldl (fun v c ↦ v * b + (digitOf b c).getD 0) 0

def IsNumeral (b : ℕ) (s : List Char) : Prop := s ≠ [] ∧ ∀ c ∈ s, isDigit b c

instance : Decidable (IsNumeral b s) :=
  haveI : Decidable (∀ c ∈ s, isDigit b c) := List.decidableBAll _ s
  inferInstanceAs (Decidable (_ ∧ _))

def read (b : ℕ) (s : List Char) : Option ℕ := if IsNumeral b s then some (value b s) else none

/-- The shortest text of a number, zero being one digit. -/
def numeral (b n : ℕ) : List Char :=
  if n = 0 then [digitChar 0] else (b.digits n).reverse.map digitChar

theorem bounds_of_isDigit (h : c.isDigit = true) : 48 ≤ c.toNat ∧ c.toNat ≤ 57 := by
  obtain ⟨hle, hge⟩ := Bool.and_eq_true_iff.mp h
  exact ⟨of_decide_eq_true hle, of_decide_eq_true hge⟩

theorem bounds_of_isLower (h : c.isLower = true) : 97 ≤ c.toNat ∧ c.toNat ≤ 122 := by
  obtain ⟨hle, hge⟩ := Bool.and_eq_true_iff.mp h
  exact ⟨of_decide_eq_true hle, of_decide_eq_true hge⟩

theorem bounds_of_isUpper (h : c.isUpper = true) : 65 ≤ c.toNat ∧ c.toNat ≤ 90 :=
  of_decide_eq_true h

theorem charVal_digitChar : ∀ d < 36, charVal (digitChar d) = some d := by decide

theorem digitOf_eq_some {d : ℕ} : digitOf b c = some d ↔ charVal c = some d ∧ d < b := by
  simp [digitOf, Option.filter_eq_some_iff]

theorem digitOf_digitChar {d : ℕ} (hd : d < b) (hb : b ≤ 36) : digitOf b (digitChar d) = some d :=
  digitOf_eq_some.mpr ⟨charVal_digitChar d (by omega), hd⟩

theorem read_eq_some : read b s = some n ↔ IsNumeral b s ∧ value b s = n := by
  unfold read
  split
  · next h => simp [h]
  · next h => simp [h]

theorem value_nil : value b [] = 0 := rfl

theorem value_concat : value b (s ++ [c]) = value b s * b + (digitOf b c).getD 0 := by
  rw [value, List.foldl_append]
  rfl

theorem value_append : value b (s ++ t) = value b s * b ^ t.length + value b t := by
  induction t using List.reverseRecOn with
  | nil => simp [value_nil]
  | append_singleton t c ih =>
    rw [← List.append_assoc, value_concat, ih, value_concat, List.length_append,
      List.length_singleton, pow_succ]
    ring

theorem digit_lt (hb : 0 < b) : (digitOf b c).getD 0 < b := by
  cases h : digitOf b c with
  | none => exact hb
  | some d => exact (digitOf_eq_some.mp h).2

theorem value_lt (hb : 0 < b) : value b s < b ^ s.length := by
  induction s using List.reverseRecOn with
  | nil => exact Nat.one_pos
  | append_singleton s c ih =>
    rw [value_concat, List.length_append, List.length_singleton, pow_succ]
    calc value b s * b + (digitOf b c).getD 0
        < value b s * b + b := Nat.add_lt_add_left (digit_lt hb) _
      _ = (value b s + 1) * b := by ring
      _ ≤ b ^ s.length * b := Nat.mul_le_mul_right b ih

theorem numeral_of_lt (h : n < b) : numeral b n = [digitChar n] := by
  unfold numeral
  split
  · next hn => rw [hn]
  · next hn => rw [Nat.digits_of_lt b n hn h, List.reverse_singleton, List.map_singleton]

theorem numeral_of_le (hb : 1 < b) (h : b ≤ n) :
    numeral b n = numeral b (n / b) ++ [digitChar (n % b)] := by
  have hdiv : n / b ≠ 0 := (Nat.div_pos h (by omega)).ne'
  rw [numeral, if_neg (by omega), numeral, if_neg hdiv, Nat.digits_def' hb (by omega),
    List.reverse_cons, List.map_append, List.map_singleton]

theorem numeral_induction {motive : ℕ → Prop} (hb : 1 < b) (digit : ∀ n < b, motive n)
    (step : ∀ n, b ≤ n → motive (n / b) → motive n) (n : ℕ) : motive n := by
  induction n using Nat.strong_induction_on with
  | h n ih =>
    by_cases hn : n < b
    · exact digit n hn
    · exact step n (by omega) (ih (n / b) (Nat.div_lt_self (by omega) hb))

theorem isNumeral_numeral (hb : 1 < b) (hb' : b ≤ 36) (n : ℕ) : IsNumeral b (numeral b n) := by
  have hdigit (d : ℕ) (hd : d < b) : isDigit b (digitChar d) = true := by
    rw [isDigit, digitOf_digitChar hd hb']
    rfl
  induction n using numeral_induction hb with
  | digit n hn =>
    rw [numeral_of_lt hn]
    exact ⟨by simp, by simpa using hdigit n hn⟩
  | step n hn ih =>
    rw [numeral_of_le hb hn]
    refine ⟨by simp, fun c hc ↦ ?_⟩
    rcases List.mem_append.mp hc with hc | hc
    · exact ih.2 c hc
    · rw [List.mem_singleton.mp hc]
      exact hdigit _ (Nat.mod_lt n (by omega))

theorem value_numeral (hb : 1 < b) (hb' : b ≤ 36) (n : ℕ) : value b (numeral b n) = n := by
  induction n using numeral_induction hb with
  | digit n hn =>
    rw [numeral_of_lt hn, ← List.nil_append [_], value_concat, digitOf_digitChar hn hb']
    simp [value_nil]
  | step n hn ih =>
    rw [numeral_of_le hb hn, value_concat, ih, digitOf_digitChar (Nat.mod_lt n (by omega)) hb']
    exact Nat.div_add_mod' n b

theorem read_numeral (hb : 1 < b) (hb' : b ≤ 36) (n : ℕ) : read b (numeral b n) = some n := by
  rw [read, if_pos (isNumeral_numeral hb hb' n), value_numeral hb hb']

theorem length_numeral_le_iff (hb : 1 < b) (hk : 0 < k) :
    (numeral b n).length ≤ k ↔ n < b ^ k := by
  unfold numeral
  split
  · next hn =>
    rw [hn]
    exact iff_of_true hk (by positivity)
  · rw [List.length_map, List.length_reverse]
    exact Nat.digits_length_le_iff hb n

theorem numeral_ne_nil : numeral b n ≠ [] := by
  unfold numeral
  split
  · simp
  · next hn => simpa using Nat.digits_ne_nil_iff_ne_zero.mpr hn

theorem eq_zero_of_numeral (hb : 1 < b) (hb' : b ≤ 36) (h : numeral b n = digitChar 0 :: s) :
    n = 0 := by
  induction n using numeral_induction hb generalizing s with
  | digit n hn =>
    rw [numeral_of_lt hn] at h
    have hchar := digitOf_digitChar hn hb'
    rw [(List.cons.inj h).1, digitOf_digitChar (by omega) hb'] at hchar
    exact (Option.some.inj hchar).symm
  | step n hn ih =>
    rw [numeral_of_le hb hn] at h
    obtain ⟨c, s', hs⟩ := List.exists_cons_of_ne_nil (numeral_ne_nil (b := b) (n := n / b))
    rw [hs] at h
    obtain ⟨rfl, -⟩ := List.cons.inj h
    exact absurd (ih hs) (Nat.div_pos hn (by omega)).ne'

theorem numeral_head (hb : 1 < b) (hb' : b ≤ 36) (h : numeral b n = digitChar 0 :: s) :
    s = [] := by
  rw [eq_zero_of_numeral hb hb' h, numeral_of_lt (by omega)] at h
  exact (List.cons.inj h).2.symm

end SceLibcPosix.Numerals
