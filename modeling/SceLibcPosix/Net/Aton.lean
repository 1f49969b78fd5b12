import Mathlib.Data.List.TakeWhile
import SceLibcPosix.Lib.Components
import SceLibcPosix.Lib.Numerals

namespace SceLibcPosix.Net

open Numerals

/-- An `unsigned long` has 32 bits. -/
def ULONG_MAX : ℕ := 2 ^ 32 - 1

def isspace (c : Char) : Bool := c = ' ' ∨ '\t' ≤ c ∧ c ≤ '\r'

/-- The base that `strtoul` finds where it is told none, and the text behind the prefix. -/
def baseOf : List Char → ℕ × List Char
  | '0' :: x :: c :: s =>
    if (x = 'x' ∨ x = 'X') ∧ isDigit 16 c then (16, c :: s) else (8, '0' :: x :: c :: s)
  | '0' :: s => (8, '0' :: s)
  | s => (10, s)

/-- `strtoul(s, &z, 0)`: the result, and the text at `z`. -/
def strtoul (s : List Char) : ℕ × List Char :=
  let t := s.dropWhile isspace
  let neg := t.head? = some '-'
  let (base, t) := baseOf (if neg ∨ t.head? = some '+' then t.tail else t)
  let digits := t.takeWhile (isDigit base)
  let v := value base digits
  if digits = [] then (0, s)
  else (if ULONG_MAX < v then ULONG_MAX else if neg then (2 ^ 32 - v) % 2 ^ 32 else v,
    t.drop digits.length)

/-- The first loop of `inet_aton`, with `n` turns to go: what it stores to `a`. -/
def atonLoop : ℕ → List Char → Option (List ℕ)
  | 0, _ => none
  | n + 1, s =>
    let (v, z) := strtoul s
    if z = s ∨ z ≠ [] ∧ z.head? ≠ some '.' ∨ ¬ s.head?.any Char.isDigit then none
    else if z = [] then some [v]
    else (atonLoop n z.tail).map (v :: ·)

structure Parts where
  a0 : ℕ
  a1 : ℕ
  a2 : ℕ
  a3 : ℕ
deriving DecidableEq, Repr

/-- `struct in_addr`, as the bytes at its addresses. -/
structure InAddr where
  d0 : UInt8
  d1 : UInt8
  d2 : UInt8
  d3 : UInt8
deriving DecidableEq, Repr

def Parts.ofList (vs : List ℕ) : Parts :=
  ⟨vs.getD 0 0, vs.getD 1 0, vs.getD 2 0, vs.getD 3 0⟩

def Parts.case2 (a : Parts) : Parts := { a with a3 := a.a2 &&& 0xff, a2 := a.a2 >>> 8 }

def Parts.case1 (a : Parts) : Parts :=
  case2 { a with a2 := a.a1 &&& 0xffff, a1 := a.a1 >>> 16 }

def Parts.case0 (a : Parts) : Parts :=
  case1 { a with a1 := a.a0 &&& 0xffffff, a0 := a.a0 >>> 24 }

def Parts.switch (a : Parts) : ℕ → Parts
  | 0 => a.case0
  | 1 => a.case1
  | 2 => a.case2
  | _ => a

/-- The second loop of `inet_aton`, on the bytes of `dest`. -/
def Parts.store (a : Parts) (d : InAddr) : ℤ × InAddr :=
  if a.a0 > 255 then (0, d) else
  let d := { d with d0 := UInt8.ofNat a.a0 }
  if a.a1 > 255 then (0, d) else
  let d := { d with d1 := UInt8.ofNat a.a1 }
  if a.a2 > 255 then (0, d) else
  let d := { d with d2 := UInt8.ofNat a.a2 }
  if a.a3 > 255 then (0, d) else
  (1, { d with d3 := UInt8.ofNat a.a3 })

def inetAton (s : List Char) (dest : InAddr) : ℤ × InAddr :=
  match atonLoop 4 s with
  | none => (0, dest)
  | some vs => ((Parts.ofList vs).switch (vs.length - 1)).store dest

def InAddr.bytes (a : InAddr) : List UInt8 := [a.d0, a.d1, a.d2, a.d3]

/-- `inet_ntoa`, with the 16 bytes of its buffer. -/
def inetNtoa (a : InAddr) : List Char :=
  (['.'].intercalate (a.bytes.map fun b ↦ numeral 10 b.toNat)).take (16 - 1)

/-- A number of the C language without a sign: decimal, octal or hexadecimal. -/
def cNumber : List Char → Option ℕ
  | '0' :: 'x' :: s => read 16 s
  | '0' :: 'X' :: s => read 16 s
  | '0' :: s => read 8 ('0' :: s)
  | s => read 10 s

/-- The address that one to four numbers make up, the last one taking the bytes that are left. -/
def combine (vs : List ℕ) : Option ℕ :=
  let last := vs.getLast?.getD 0
  if 1 ≤ vs.length ∧ vs.length ≤ 4 ∧ (∀ v ∈ vs.dropLast, v ≤ 255) ∧
      last < 256 ^ (5 - vs.length) then
    some (vs.dropLast.foldl (fun n v ↦ 256 * n + v) 0 * 256 ^ (5 - vs.length) + last)
  else none

/-- The address that a text in numbers-and-dots notation denotes. -/
def numbersAndDots (s : List Char) : Option ℕ :=
  ((s.splitOn '.').mapM cNumber).bind combine

def networkOrder (n : ℕ) : InAddr :=
  ⟨UInt8.ofNat (n / 2 ^ 24), UInt8.ofNat (n / 2 ^ 16), UInt8.ofNat (n / 2 ^ 8), UInt8.ofNat n⟩

section Scan

variable {p r s : List Char} {c : Char} {b n v : ℕ}

/-- What can stand behind a part: nothing, or the dot before the next one. -/
def Ends (r : List Char) : Prop := r = [] ∨ r.head? = some '.'

theorem isDigit_dot (b : ℕ) : isDigit b '.' = false := by
  simp [isDigit, digitOf, charVal]

theorem isDigit_of_decimal (hc : c.isDigit = true) (hb : 10 ≤ b) : isDigit b c = true := by
  have hval : charVal c = some (c.toNat - 48) := if_pos hc
  have hlt : c.toNat - 48 < b := by
    have hle := (bounds_of_isDigit hc).2
    omega
  rw [isDigit, digitOf_eq_some.mpr ⟨hval, hlt⟩]
  rfl

theorem Ends.takeWhile_append (hr : Ends r) (b : ℕ) :
    (p ++ r).takeWhile (isDigit b) = p.takeWhile (isDigit b) := by
  have hnil : r.takeWhile (isDigit b) = [] := by
    rcases hr with rfl | hr
    · rfl
    · obtain ⟨r, rfl⟩ := List.head?_eq_some_iff.mp hr
      rw [List.takeWhile_cons_of_neg (by simp [isDigit_dot])]
  rw [List.takeWhile_append, hnil, List.append_nil]
  split
  · next h => exact (List.takeWhile_prefix _).eq_of_length h |>.symm
  · rfl

theorem Ends.dropWhile_append (hr : Ends r) (b : ℕ) :
    (p ++ r).dropWhile (isDigit b) = p.dropWhile (isDigit b) ++ r := by
  have h : (p ++ r).takeWhile (isDigit b) ++ (p ++ r).dropWhile (isDigit b) =
      p.takeWhile (isDigit b) ++ (p.dropWhile (isDigit b) ++ r) := by
    rw [List.takeWhile_append_dropWhile, ← List.append_assoc, List.takeWhile_append_dropWhile]
  rw [hr.takeWhile_append] at h
  exact List.append_cancel_left h

theorem read_eq_none (hc : c ∈ p) (h : isDigit b c = false) : read b p = none :=
  if_neg fun hp ↦ absurd (hp.2 c hc) (by simp [h])

theorem cNumber_eq : cNumber p = read (baseOf p).1 (baseOf p).2 := by
  have hex {x : Char} (hx : x = 'x' ∨ x = 'X') (s : List Char) :
      read 16 s = read (baseOf ('0' :: x :: s)).1 (baseOf ('0' :: x :: s)).2 := by
    have hoctal (t : List Char) : read 8 ('0' :: x :: t) = none := by
      refine read_eq_none (c := x) (by simp) ?_
      rcases hx with rfl | rfl
      · decide
      · decide
    cases s with
    | nil => exact (hoctal []).symm
    | cons c s =>
      by_cases hc : isDigit 16 c = true
      · rw [baseOf, if_pos ⟨hx, hc⟩]
      · rw [baseOf, if_neg fun h ↦ hc h.2, hoctal]
        exact read_eq_none List.mem_cons_self (by simpa using hc)
  unfold cNumber
  split
  · exact hex (.inl rfl) _
  · exact hex (.inr rfl) _
  · next s hx hX =>
    cases s with
    | nil => rfl
    | cons x s =>
      cases s with
      | nil => rfl
      | cons c s =>
        have hne : ¬ (x = 'x' ∨ x = 'X') := by
          rintro (rfl | rfl)
          · exact hx _ rfl
          · exact hX _ rfl
        rw [baseOf, if_neg fun h ↦ hne h.1]
  · next hzero => 
    unfold baseOf
    split
    · next h => exact absurd rfl (hzero _)
    · exact absurd rfl (hzero _)
    · rfl

theorem baseOf_decimal (hc : c ≠ '0') : baseOf (c :: s) = (10, c :: s) := by
  unfold baseOf
  split
  · next h => exact absurd (List.cons.inj h).1 hc
  · next h => exact absurd (List.cons.inj h).1 hc
  · rfl

theorem Ends.baseOf_append (hr : Ends r) (hp : p ≠ []) :
    baseOf (p ++ r) = ((baseOf p).1, (baseOf p).2 ++ r) := by
  obtain ⟨d, p, rfl⟩ := List.exists_cons_of_ne_nil hp
  by_cases hd : d = '0'
  · subst hd
    rcases p with _ | ⟨x, _ | ⟨c, p⟩⟩
    · rcases hr with rfl | hr
      · rfl
      · obtain ⟨r, rfl⟩ := List.head?_eq_some_iff.mp hr
        cases r with
        | nil => rfl
        | cons c r =>
          have hx : ¬ (('.' = 'x' ∨ '.' = 'X') ∧ isDigit 16 c) := fun h ↦ absurd h.1 (by decide)
          rw [List.singleton_append, baseOf, if_neg hx]
          rfl
    · rcases hr with rfl | hr
      · rfl
      · obtain ⟨r, rfl⟩ := List.head?_eq_some_iff.mp hr
        have hc : ¬ ((x = 'x' ∨ x = 'X') ∧ isDigit 16 '.') := fun h ↦ absurd h.2 (by decide)
        exact if_neg hc
    · rw [List.cons_append, List.cons_append, List.cons_append, baseOf, baseOf]
      split
      · rfl
      · rfl
  · rw [List.cons_append, baseOf_decimal hd, baseOf_decimal hd]
    rfl

theorem isDigit_zero : isDigit 8 '0' = true := by decide

theorem baseOf_digit (hs : s.head?.any Char.isDigit = true) :
    ∃ c t, (baseOf s).2 = c :: t ∧ isDigit (baseOf s).1 c = true := by
  unfold baseOf
  split
  · split
    · next h => exact ⟨_, _, rfl, h.2⟩
    · exact ⟨_, _, rfl, isDigit_zero⟩
  · exact ⟨_, _, rfl, isDigit_zero⟩
  · obtain ⟨c, t, rfl⟩ : ∃ c t, s = c :: t := by
      cases s with
      | nil => exact absurd hs (by simp)
      | cons c t => exact ⟨c, t, rfl⟩
    exact ⟨c, t, rfl, isDigit_of_decimal hs (by omega)⟩

theorem isspace_of_isDigit (hc : c.isDigit = true) : isspace c = false := by
  have hzero := (bounds_of_isDigit hc).1
  have hspace : c ≠ ' ' := fun h ↦ absurd (h ▸ hzero) (by decide)
  have htab : ¬ ('\t' ≤ c ∧ c ≤ '\r') := by
    intro h
    have : c.toNat ≤ 13 := h.2
    omega
  exact decide_eq_false fun h ↦ h.elim hspace htab

theorem drop_length_takeWhile {q : Char → Bool} :
    s.drop (s.takeWhile q).length = s.dropWhile q := by
  have h : (s.takeWhile q ++ s.dropWhile q).drop (s.takeWhile q).length = s.dropWhile q :=
    List.drop_left
  rwa [List.takeWhile_append_dropWhile] at h

theorem strtoul_of_digit (hs : s.head?.any Char.isDigit = true) : strtoul s =
    (min (value (baseOf s).1 ((baseOf s).2.takeWhile (isDigit (baseOf s).1)))
      ULONG_MAX, (baseOf s).2.dropWhile (isDigit (baseOf s).1)) := by
  obtain ⟨c, t, hst, hc⟩ := baseOf_digit hs
  obtain ⟨d, s, rfl⟩ : ∃ d t, s = d :: t := by
    cases s with
    | nil => exact absurd hs (by simp)
    | cons c t => exact ⟨c, t, rfl⟩
  have hd : d.isDigit = true := hs
  have hspace : (d :: s).dropWhile isspace = d :: s :=
    List.dropWhile_cons_of_neg (by simp [isspace_of_isDigit hd])
  have hminus : d ≠ '-' := fun h ↦ absurd (h ▸ hd) (by decide)
  have hplus : d ≠ '+' := fun h ↦ absurd (h ▸ hd) (by decide)
  have hdigits : (baseOf (d :: s)).2.takeWhile (isDigit (baseOf (d :: s)).1) ≠ [] := by
    rw [hst, List.takeWhile_cons_of_pos hc]
    simp
  simp only [strtoul, hspace, List.head?_cons, Option.some.injEq, hminus, hplus, or_self, if_false,
    if_neg hdigits]
  refine Prod.ext ?_ ?_
  · change (if _ then _ else _) = _
    split
    · next h => exact (Nat.min_eq_right (Nat.le_of_lt h)).symm
    · next h => exact (Nat.min_eq_left (Nat.le_of_not_lt h)).symm
  · exact drop_length_takeWhile

theorem isDigit_ten (hc : isDigit 10 c = true) : c.isDigit = true := by
  obtain ⟨d, hd⟩ := Option.isSome_iff_exists.mp hc
  obtain ⟨hval, hlt⟩ := digitOf_eq_some.mp hd
  by_contra hnot
  rw [charVal, if_neg hnot] at hval
  split at hval
  · next hlower =>
    have hle := (bounds_of_isLower hlower).1
    have hd := Option.some.inj hval
    omega
  · split at hval
    · next hupper =>
      have hle := (bounds_of_isUpper hupper).1
      have hd := Option.some.inj hval
      omega
    · exact absurd hval (by simp)

theorem head_of_cNumber (hv : cNumber p = some v) : p.head?.any Char.isDigit = true := by
  rw [cNumber_eq, read_eq_some] at hv
  obtain ⟨⟨hne, hall⟩, -⟩ := hv
  cases p with
  | nil => exact absurd rfl hne
  | cons d p =>
    by_cases hd : d = '0'
    · rw [hd]
      rfl
    · rw [baseOf_decimal hd] at hall
      exact isDigit_ten (hall d List.mem_cons_self)

theorem strtoul_part (hr : Ends r) (hv : cNumber p = some v) :
    strtoul (p ++ r) = (min v ULONG_MAX, r) := by
  have hdigit := head_of_cNumber hv
  have hp : p ≠ [] := fun h ↦ absurd (h ▸ hdigit) (by simp)
  have hdigit' : (p ++ r).head?.any Char.isDigit = true := by
    rw [List.head?_append_of_ne_nil _ hp, hdigit]
  rw [cNumber_eq, read_eq_some] at hv
  obtain ⟨⟨-, hall⟩, hv⟩ := hv
  rw [strtoul_of_digit hdigit', hr.baseOf_append hp]
  refine Prod.ext ?_ ?_
  · dsimp only
    rw [hr.takeWhile_append, List.takeWhile_eq_self_iff.mpr hall, hv]
  · dsimp only
    rw [hr.dropWhile_append, List.dropWhile_eq_nil_iff.mpr hall, List.nil_append]

theorem baseOf_suffix (s : List Char) : (baseOf s).2 <:+ s := by
  unfold baseOf
  split
  · split
    · exact ⟨['0', _], rfl⟩
    · exact List.suffix_refl _
  · exact List.suffix_refl _
  · exact List.suffix_refl _

theorem strtoul_stuck (hr : Ends r) (hdot : '.' ∉ p) (hv : cNumber p = none)
    (hdigit : p.head?.any Char.isDigit = true) :
    (strtoul (p ++ r)).2 ≠ [] ∧ (strtoul (p ++ r)).2.head? ≠ some '.' := by
  have hp : p ≠ [] := fun h ↦ absurd (h ▸ hdigit) (by simp)
  have hdigit' : (p ++ r).head?.any Char.isDigit = true := by
    rw [List.head?_append_of_ne_nil _ hp, hdigit]
  obtain ⟨c, t, ht, -⟩ := baseOf_digit hdigit
  have hne : (baseOf p).2.dropWhile (isDigit (baseOf p).1) ≠ [] := by
    intro hnil
    have hnum : IsNumeral (baseOf p).1 (baseOf p).2 :=
      ⟨ht ▸ List.cons_ne_nil c t, List.dropWhile_eq_nil_iff.mp hnil⟩
    rw [cNumber_eq, Numerals.read, if_pos hnum] at hv
    exact absurd hv (by simp)
  obtain ⟨e, q, hq⟩ := List.exists_cons_of_ne_nil hne
  have he : e ∈ p := by
    apply (baseOf_suffix p).subset
    apply (List.dropWhile_suffix _).subset
    rw [hq]
    exact List.mem_cons_self
  rw [strtoul_of_digit hdigit', hr.baseOf_append hp]
  dsimp only
  rw [hr.dropWhile_append, hq]
  refine ⟨by simp, fun h ↦ hdot ?_⟩
  exact (Option.some.inj h) ▸ he

theorem atonLoop_part (hr : Ends r) (hdot : '.' ∉ p) : atonLoop (n + 1) (p ++ r) =
    (cNumber p).bind fun v ↦ if r = [] then some [min v ULONG_MAX]
      else (atonLoop n r.tail).map (min v ULONG_MAX :: ·) := by
  cases hv : cNumber p with
  | some v =>
    have hdigit := head_of_cNumber hv
    have hp : p ≠ [] := fun h ↦ absurd (h ▸ hdigit) (by simp)
    have hpass : ¬ (r = p ++ r ∨ r ≠ [] ∧ r.head? ≠ some '.' ∨
        ¬ (p ++ r).head?.any Char.isDigit) := by
      rintro (h | ⟨hne, hhead⟩ | h)
      · exact hp (List.self_eq_append_left.mp h)
      · exact hr.elim hne hhead
      · rw [List.head?_append_of_ne_nil _ hp] at h
        exact h hdigit
    rw [atonLoop, strtoul_part hr hv]
    dsimp only
    rw [if_neg hpass]
    rfl
  | none =>
    have hstop : (strtoul (p ++ r)).2 = p ++ r ∨ (strtoul (p ++ r)).2 ≠ [] ∧
        (strtoul (p ++ r)).2.head? ≠ some '.' ∨ ¬ (p ++ r).head?.any Char.isDigit := by
      by_cases hdigit : p.head?.any Char.isDigit = true
      · exact .inr (.inl (strtoul_stuck hr hdot hv hdigit))
      · refine .inr (.inr ?_)
        rcases p with _ | ⟨c, p⟩
        · rcases hr with rfl | hr
          · simp
          · rw [List.nil_append, hr]
            decide
        · exact hdigit
    rw [atonLoop]
    exact if_pos hstop

theorem atonLoop_eq : atonLoop n s = if (s.splitOn '.').length ≤ n
    then ((s.splitOn '.').mapM cNumber).map (List.map (min · ULONG_MAX)) else none := by
  induction n generalizing s with
  | zero =>
    rw [if_neg]
    · rfl
    · simp
  | succ n ih =>
    by_cases hdot : '.' ∈ s
    · obtain ⟨p, r, rfl, hp⟩ := List.eq_append_cons_of_mem hdot
      rw [atonLoop_part (.inr rfl) hp, List.splitOn_append_cons_self_of_not_mem hp, List.tail_cons,
        ih, List.length_cons, List.mapM_cons]
      simp only [reduceCtorEq, if_false, Nat.add_le_add_iff_right]
      split
      · cases cNumber p with
        | none => rfl
        | some v =>
          cases (r.splitOn '.').mapM cNumber with
          | none => rfl
          | some vs => rfl
      · cases cNumber p with
        | none => rfl
        | some v => rfl
    · have h := atonLoop_part (n := n) (.inl rfl) hdot
      rw [List.append_nil] at h
      rw [h, List.splitOn_eq_singleton hdot, if_pos (by simp), List.mapM_cons]
      cases cNumber s with
      | none => rfl
      | some v => rfl

end Scan

section Numbers

variable {vs : List ℕ} {n : ℕ} {dest : InAddr}

def assemble (vs : List ℕ) (dest : InAddr) : ℤ × InAddr :=
  ((Parts.ofList vs).switch (vs.length - 1)).store dest

theorem ofNat_eq {n : ℕ} {b : UInt8} (h : n % 256 = b.toNat) : UInt8.ofNat n = b := by
  apply UInt8.toNat_inj.mp
  rw [UInt8.toNat_ofNat']
  exact h

theorem Parts.store_of_le {a : Parts} (h0 : a.a0 ≤ 255) (h1 : a.a1 ≤ 255) (h2 : a.a2 ≤ 255)
    (h3 : a.a3 ≤ 255) : a.store dest =
      (1, ⟨UInt8.ofNat a.a0, UInt8.ofNat a.a1, UInt8.ofNat a.a2, UInt8.ofNat a.a3⟩) := by
  rw [store, if_neg (by omega), if_neg (by omega), if_neg (by omega), if_neg (by omega)]

theorem Parts.store_fails {a : Parts}
    (h : 255 < a.a0 ∨ 255 < a.a1 ∨ 255 < a.a2 ∨ 255 < a.a3) : (a.store dest).1 = 0 := by
  unfold store
  split
  · rfl
  · split
    · rfl
    · split
      · rfl
      · rw [if_pos (by omega)]

def Parts.ofNumber (n : ℕ) : Parts := ⟨n / 2 ^ 24, n / 2 ^ 16 % 256, n / 2 ^ 8 % 256, n % 256⟩

theorem Parts.store_ofNumber (hn : n < 2 ^ 32) :
    (ofNumber n).store dest = (1, networkOrder n) := by
  rw [store_of_le (by simp only [ofNumber]; omega) (by simp only [ofNumber]; omega)
    (by simp only [ofNumber]; omega) (by simp only [ofNumber]; omega)]
  simp only [ofNumber, networkOrder, Prod.mk.injEq, InAddr.mk.injEq, true_and]
  refine ⟨ofNat_eq ?_, ofNat_eq ?_, ofNat_eq ?_⟩
  all_goals
    rw [UInt8.toNat_ofNat']
    omega

def Parts.spread : List ℕ → Parts
  | [] => ⟨0, 0, 0, 0⟩
  | [a] => ⟨a / 2 ^ 24, a % 2 ^ 24 / 2 ^ 16, a % 2 ^ 16 / 2 ^ 8, a % 2 ^ 8⟩
  | [a, b] => ⟨a, b / 2 ^ 16, b % 2 ^ 16 / 2 ^ 8, b % 2 ^ 8⟩
  | [a, b, c] => ⟨a, b, c / 2 ^ 8, c % 2 ^ 8⟩
  | a :: b :: c :: d :: _ => ⟨a, b, c, d⟩

theorem switch_ofList (vs : List ℕ) :
    (Parts.ofList vs).switch (vs.length - 1) = Parts.spread vs := by
  have h8 (n : ℕ) : n &&& 0xff = n % 2 ^ 8 := Nat.and_two_pow_sub_one_eq_mod n 8
  have h16 (n : ℕ) : n &&& 0xffff = n % 2 ^ 16 := Nat.and_two_pow_sub_one_eq_mod n 16
  have h24 (n : ℕ) : n &&& 0xffffff = n % 2 ^ 24 := Nat.and_two_pow_sub_one_eq_mod n 24
  rcases vs with _ | ⟨a, _ | ⟨b, _ | ⟨c, _ | ⟨d, vs⟩⟩⟩⟩
  all_goals
    simp [Parts.ofList, Parts.switch, Parts.case0, Parts.case1, Parts.case2, Parts.spread, h8, h16,
      h24, Nat.shiftRight_eq_div_pow]

theorem length_of_combine (h : combine vs = some n) : vs.length ≤ 4 := by
  by_contra h4
  rw [combine, if_neg fun hvs ↦ h4 hvs.2.1] at h
  exact absurd h (by simp)

theorem spread_combine (h : combine vs = some n) : n < 2 ^ 32 ∧ (∀ v ∈ vs, v < 2 ^ 32) ∧
    Parts.spread vs = Parts.ofNumber n := by
  simp only [combine] at h
  split at h
  · next hvs =>
    obtain ⟨h1, h4, hparts, hlast⟩ := hvs
    have hn := Option.some.inj h
    rcases vs with _ | ⟨a, _ | ⟨b, _ | ⟨c, _ | ⟨d, _ | ⟨e, vs⟩⟩⟩⟩⟩
    · simp at h1
    rotate_left 4
    · simp only [List.length_cons] at h4
      omega
    all_goals
      simp at hparts hlast hn
      refine ⟨by omega, by simp; omega, ?_⟩
      simp only [Parts.spread, Parts.ofNumber, Parts.mk.injEq]
      omega
  · exact absurd h (by simp)

theorem assemble_combine (h : combine vs = some n) :
    assemble (vs.map (min · ULONG_MAX)) dest = (1, networkOrder n) := by
  obtain ⟨hn, hall, hspread⟩ := spread_combine h
  have hmap : vs.map (min · ULONG_MAX) = vs :=
    (List.map_congr_left fun v hv ↦ Nat.min_eq_left (by
      have := hall v hv
      simp only [ULONG_MAX]
      omega)).trans (List.map_id vs)
  rw [hmap, assemble, switch_ofList, hspread, Parts.store_ofNumber hn]

/-- Numbers that make up no address are refused, but for a single one that has been clamped. -/
theorem assemble_refused (h1 : 1 ≤ vs.length) (h4 : vs.length ≤ 4) (h : combine vs = none)
    (hone : ∀ v, vs = [v] → v < 2 ^ 32) :
    (assemble (vs.map (min · ULONG_MAX)) dest).1 = 0 := by
  have hnot : ¬ (1 ≤ vs.length ∧ vs.length ≤ 4 ∧ (∀ v ∈ vs.dropLast, v ≤ 255) ∧
      vs.getLast?.getD 0 < 256 ^ (5 - vs.length)) := by
    intro hvs
    rw [combine, if_pos hvs] at h
    exact absurd h (by simp)
  have hlast := not_and.mp (not_and.mp (not_and.mp hnot h1) h4)
  rw [assemble, switch_ofList]
  apply Parts.store_fails
  rcases vs with _ | ⟨a, _ | ⟨b, _ | ⟨c, _ | ⟨d, _ | ⟨e, vs⟩⟩⟩⟩⟩
  · simp at h1
  rotate_left 4
  · simp only [List.length_cons] at h4
    omega
  · have := hone a rfl
    simp at hlast
    omega
  all_goals
    simp [Parts.spread, ULONG_MAX] at hlast ⊢
    omega

end Numbers

section Exact

variable {s : List Char} {vs : List ℕ} {n v : ℕ} {dest a : InAddr}

theorem length_mapM {ps : List (List Char)} (h : ps.mapM cNumber = some vs) :
    vs.length = ps.length := by
  induction ps generalizing vs with
  | nil => exact congrArg List.length (Option.some.inj h).symm
  | cons p ps ih =>
    rw [List.mapM_cons] at h
    obtain ⟨v, -, h⟩ := Option.bind_eq_some_iff.mp h
    obtain ⟨ws, hws, h⟩ := Option.bind_eq_some_iff.mp h
    rw [← Option.some.inj h, List.length_cons, ih hws, List.length_cons]

theorem inetAton_of_some (h : (s.splitOn '.').mapM cNumber = some vs) : inetAton s dest =
    if vs.length ≤ 4 then assemble (vs.map (min · ULONG_MAX)) dest else (0, dest) := by
  unfold inetAton
  rw [atonLoop_eq, h, ← length_mapM h]
  by_cases h4 : vs.length ≤ 4
  · rw [if_pos h4, if_pos h4]
    rfl
  · rw [if_neg h4, if_neg h4]

theorem inetAton_of_none (h : (s.splitOn '.').mapM cNumber = none) :
    inetAton s dest = (0, dest) := by
  unfold inetAton
  rw [atonLoop_eq, h, Option.map_none, ite_self]

theorem dot_notMem (h : cNumber s = some v) : '.' ∉ s := by
  rw [cNumber_eq, read_eq_some] at h
  intro hdot
  have hmem : '.' ∈ (baseOf s).2 := by
    revert hdot
    unfold baseOf
    split
    · next x c t =>
      split
      · next hx =>
        have hne : '.' ≠ x := by
          rintro rfl
          exact absurd hx.1 (by decide)
        simp [hne]
      · exact id
    · exact id
    · exact id
  exact absurd (h.1.2 _ hmem) (by simp [isDigit_dot])

theorem mapM_single (h : cNumber s = some v) : (s.splitOn '.').mapM cNumber = some [v] := by
  rw [List.splitOn_eq_singleton (dot_notMem h), List.mapM_cons, h]
  rfl

theorem cNumber_of_single (h : (s.splitOn '.').mapM cNumber = some [v]) : cNumber s = some v := by
  obtain ⟨p, hp⟩ := List.length_eq_one_iff.mp (length_mapM h).symm
  have hs : s = p := by
    have h : ['.'].intercalate (s.splitOn '.') = s := List.intercalate_splitOn '.'
    rw [hp] at h
    simpa using h.symm
  rw [hp, ← hs, List.mapM_cons] at h
  obtain ⟨w, hw, h⟩ := Option.bind_eq_some_iff.mp h
  rw [hw]
  exact congrArg some (List.cons.inj (Option.some.inj h)).1

/-- A single number that is too large for an address is clamped, and taken for the last one. -/
theorem inetAton_clamped (h : cNumber s = some v) (hv : 2 ^ 32 ≤ v) :
    inetAton s dest = (1, networkOrder ULONG_MAX) := by
  have hmin : min v ULONG_MAX = min ULONG_MAX ULONG_MAX := by
    simp only [ULONG_MAX]
    omega
  rw [inetAton_of_some (mapM_single h), if_pos (by simp), List.map_singleton, hmin]
  exact assemble_combine (by decide : combine [ULONG_MAX] = some ULONG_MAX)

theorem inetAton_accepts (h : numbersAndDots s = some n) :
    inetAton s dest = (1, networkOrder n) := by
  obtain ⟨vs, hvs, h⟩ := Option.bind_eq_some_iff.mp h
  rw [inetAton_of_some hvs, if_pos (length_of_combine h), assemble_combine h]

/-- The answer of `inet_aton` is the one of the notation. -/
structure AtonExact (s : List Char) : Prop where
  accepts : ∀ n dest, numbersAndDots s = some n → inetAton s dest = (1, networkOrder n)
  rejects : ∀ dest, numbersAndDots s = none → (inetAton s dest).1 = 0

theorem atonExact_iff (s : List Char) :
    AtonExact s ↔ ¬ ∃ v, cNumber s = some v ∧ 2 ^ 32 ≤ v := by
  constructor
  · intro ⟨_, hrejects⟩ ⟨v, hv, hle⟩
    have hnone : numbersAndDots s = none := by
      rw [numbersAndDots, mapM_single hv, Option.bind_some, combine, if_neg]
      simp
      omega
    have hzero := hrejects ⟨0, 0, 0, 0⟩ hnone
    rw [inetAton_clamped hv hle] at hzero
    exact absurd hzero (by decide)
  · intro hnot
    refine ⟨fun n dest ↦ inetAton_accepts, fun dest h ↦ ?_⟩
    cases hvs : (s.splitOn '.').mapM cNumber with
    | none => rw [inetAton_of_none hvs]
    | some vs =>
      have h1 : 1 ≤ vs.length := by
        rw [length_mapM hvs]
        exact List.length_pos_iff.mpr (List.splitOn_ne_nil '.' s)
      rw [numbersAndDots, hvs, Option.bind_some] at h
      rw [inetAton_of_some hvs]
      split
      · next h4 =>
        refine assemble_refused h1 h4 h fun v hv ↦ ?_
        by_contra hlt
        exact hnot ⟨v, cNumber_of_single (hv ▸ hvs), Nat.le_of_not_lt hlt⟩
      · rfl

end Exact

section RoundTrip

variable {a dest : InAddr} {n : ℕ}

theorem cNumber_numeral (n : ℕ) : cNumber (numeral 10 n) = some n := by
  by_cases hn : n = 0
  · rw [hn]
    decide
  · obtain ⟨c, s, hs⟩ := List.exists_cons_of_ne_nil (numeral_ne_nil (b := 10) (n := n))
    have hc : c ≠ '0' := by
      rintro rfl
      exact hn (eq_zero_of_numeral (by omega) (by omega) hs)
    rw [cNumber_eq, hs, baseOf_decimal hc, ← hs, read_numeral (by omega) (by omega)]

theorem length_byte (b : UInt8) : (numeral 10 b.toNat).length ≤ 3 := by
  rw [length_numeral_le_iff (by omega) (by omega)]
  have := b.toNat_lt
  omega

theorem dot_notMem_numeral (n : ℕ) : '.' ∉ numeral 10 n := dot_notMem (cNumber_numeral n)

theorem inetNtoa_eq (a : InAddr) :
    inetNtoa a = ['.'].intercalate (a.bytes.map fun b ↦ numeral 10 b.toNat) := by
  have h0 := length_byte a.d0
  have h1 := length_byte a.d1
  have h2 := length_byte a.d2
  have h3 := length_byte a.d3
  apply List.take_of_length_le
  simp [InAddr.bytes, List.intercalate]
  omega

theorem splitOn_inetNtoa (a : InAddr) :
    (inetNtoa a).splitOn '.' = a.bytes.map fun b ↦ numeral 10 b.toNat := by
  rw [inetNtoa_eq]
  refine List.splitOn_intercalate '.' (fun p hp ↦ ?_) (by simp [InAddr.bytes])
  obtain ⟨b, -, rfl⟩ := List.mem_map.mp hp
  exact dot_notMem_numeral _

def InAddr.number (a : InAddr) : ℕ :=
  a.d0.toNat * 2 ^ 24 + a.d1.toNat * 2 ^ 16 + a.d2.toNat * 2 ^ 8 + a.d3.toNat

theorem networkOrder_number (a : InAddr) : networkOrder a.number = a := by
  have h0 := a.d0.toNat_lt
  have h1 := a.d1.toNat_lt
  have h2 := a.d2.toNat_lt
  have h3 := a.d3.toNat_lt
  cases a
  simp only [networkOrder, InAddr.number, InAddr.mk.injEq] at *
  exact ⟨ofNat_eq (by omega), ofNat_eq (by omega), ofNat_eq (by omega), ofNat_eq (by omega)⟩

theorem numbersAndDots_inetNtoa (a : InAddr) : numbersAndDots (inetNtoa a) = some a.number := by
  have h0 := a.d0.toNat_lt
  have h1 := a.d1.toNat_lt
  have h2 := a.d2.toNat_lt
  have h3 := a.d3.toNat_lt
  have hmap : (a.bytes.map fun b ↦ numeral 10 b.toNat).mapM cNumber =
      some (a.bytes.map UInt8.toNat) := by
    simp [InAddr.bytes, List.mapM_cons, cNumber_numeral]
  rw [numbersAndDots, splitOn_inetNtoa, hmap, Option.bind_some]
  simp [combine, InAddr.bytes, InAddr.number]
  omega

end RoundTrip

/-- `inet_aton` takes exactly the notation, but for single numbers from 2^32 on, and it takes
back what `inet_ntoa` prints. -/
theorem inetAton_exact (s : List Char) :
    (AtonExact s ↔ ¬ ∃ v, cNumber s = some v ∧ 2 ^ 32 ≤ v) ∧
      ∀ a dest, inetAton (inetNtoa a) dest = (1, a) := by
  refine ⟨atonExact_iff s, fun a dest ↦ ?_⟩
  rw [inetAton_accepts (numbersAndDots_inetNtoa a), networkOrder_number]

theorem inetAton_accepts_large : ¬ ∀ s, AtonExact s := by
  intro h
  have hv : cNumber "4294967296".toList = some 4294967296 := by decide
  exact (atonExact_iff _).mp (h _) ⟨_, hv, by omega⟩

end SceLibcPosix.Net
