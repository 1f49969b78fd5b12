import SceLibcPosix.Strings.Appends
import SceLibcPosix.Strings.Wide

namespace SceLibcPosix.Strings

open Loops Function Terminated

section Order

structure Pair where
  l : ℕ
  r : ℕ
  n : ℕ

/-- `for (; *l && *r && n && (*l == *r || towlower(*l) == towlower(*r)); l++, r++, n--);` -/
def caseTurn (towlower : BitVec 32 → BitVec 32) (m : WideMemory) (a : Pair) : Turn Pair :=
  if m a.l ≠ 0 ∧ m a.r ≠ 0 ∧ a.n ≠ 0 ∧ (m a.l = m a.r ∨ towlower (m a.l) = towlower (m a.r)) then
    .next ⟨a.l + 1, a.r + 1, a.n - 1⟩
  else .stop a

def wcsncasecmp (towlower : BitVec 32 → BitVec 32) (m : WideMemory) (l r n fuel : ℕ) :
    Option (BitVec 32) :=
  if n = 0 then some 0
  else (run (caseTurn towlower m) fuel ⟨l, r, n - 1⟩).map fun a ↦
    towlower (m a.l) - towlower (m a.r)

def wcscasecmp (towlower : BitVec 32 → BitVec 32) (m : WideMemory) (l r fuel : ℕ) :
    Option (BitVec 32) :=
  wcsncasecmp towlower m l r (2 ^ 32 - 1) fuel

/-- The numbers of the characters without regard to case. -/
def folded (towlower : BitVec 32 → BitVec 32) (l : List (BitVec 32)) : List ℕ :=
  l.map fun c ↦ (towlower c).toNat

/-- `towlower` as the C library has it: it leaves the terminator, and gives none. -/
structure Lowers {w : ℕ} (lower : BitVec w → BitVec w) : Prop where
  zero : lower 0 = 0
  ne : ∀ c, c ≠ 0 → lower c ≠ 0

/-- What a comparison returns says how two lists are ordered. -/
def Orders (d : BitVec 32) (xs ys : List ℕ) : Prop := (d.toInt < 0 ↔ xs < ys) ∧ (d = 0 ↔ xs = ys)

def lowered {w : ℕ} (c : BitVec w) : BitVec w := if 0x41 ≤ c ∧ c ≤ 0x5a then c + 0x20 else c

variable {towlower : BitVec 32 → BitVec 32} {m : WideMemory} {l r n : ℕ}
  {ls rs : List (BitVec 32)} {x y : BitVec 32}

theorem toInt_sub (hx : x.toNat < 2 ^ 31) (hy : y.toNat < 2 ^ 31) :
    (x - y).toInt = x.toNat - y.toNat := by
  rw [BitVec.toInt_sub, BitVec.toInt_eq_toNat_of_lt (by omega),
    BitVec.toInt_eq_toNat_of_lt (by omega)]
  exact Int.bmod_eq_of_le (by omega) (by omega)

theorem orders_cons (hx : x.toNat < 2 ^ 31) (hy : y.toNat < 2 ^ 31) (hne : x ≠ y) (xs ys : List ℕ) :
    Orders (x - y) (x.toNat :: xs) (y.toNat :: ys) := by
  have hnat : x.toNat ≠ y.toNat := fun h ↦ hne (BitVec.eq_of_toNat_eq h)
  constructor
  · rw [toInt_sub hx hy, List.cons_lt_cons_iff]
    omega
  · refine iff_of_false (fun h ↦ ?_) (by simp [hnat])
    have hint := toInt_sub hx hy
    rw [h] at hint
    change 0 = (x.toNat : ℤ) - y.toNat at hint
    omega

theorem orders_self (xs : List ℕ) : Orders (x - x) xs xs := by
  rw [BitVec.sub_self]
  exact ⟨iff_of_false (by decide) (List.lt_irrefl xs), iff_of_true rfl rfl⟩

theorem orders_nil_cons (hy : y ≠ 0) (hsmall : y.toNat < 2 ^ 31) (ys : List ℕ) :
    Orders (0 - y) [] (y.toNat :: ys) := by
  obtain ⟨hlt, heq⟩ := orders_cons (by decide) hsmall hy.symm ys ys
  have hpos : (0 : BitVec 32).toNat < y.toNat :=
    Nat.pos_of_ne_zero fun h ↦ hy (BitVec.eq_of_toNat_eq h)
  refine ⟨hlt.trans (iff_of_true ?_ (List.nil_lt_cons _ _)), heq.trans (iff_of_false ?_ ?_)⟩
  · exact List.cons_lt_cons_iff.mpr (.inl hpos)
  · exact fun h ↦ Nat.ne_of_lt hpos (List.cons.inj h).1
  · exact fun h ↦ nomatch h

theorem orders_cons_nil (hx : x ≠ 0) (hsmall : x.toNat < 2 ^ 31) (xs : List ℕ) :
    Orders (x - 0) (x.toNat :: xs) [] := by
  obtain ⟨hlt, heq⟩ := orders_cons hsmall (by decide) hx xs xs
  have hpos : (0 : BitVec 32).toNat < x.toNat :=
    Nat.pos_of_ne_zero fun h ↦ hx (BitVec.eq_of_toNat_eq h)
  refine ⟨hlt.trans (iff_of_false ?_ (List.not_lt_nil _)), heq.trans (iff_of_false ?_ ?_)⟩
  · rw [List.cons_lt_cons_iff]
    omega
  · exact fun h ↦ Nat.ne_of_gt hpos (List.cons.inj h).1
  · exact fun h ↦ nomatch h

theorem Orders.cons {d : BitVec 32} {xs ys : List ℕ} (h : Orders d xs ys) (k : ℕ) :
    Orders d (k :: xs) (k :: ys) := by
  refine ⟨h.1.trans ?_, h.2.trans ?_⟩
  · rw [List.cons_lt_cons_iff]
    simp
  · simp

theorem wcsncasecmp_ends (hlower : Lowers towlower)
    (hsmall : ∀ c ∈ ls ++ rs, (towlower c).toNat < 2 ^ 31) (hl : Holds m l ls)
    (hr : Holds m r rs) : ∃ k b, Loops.Ends (caseTurn towlower m) k ⟨l, r, n⟩ b ∧
      Orders (towlower (m b.l) - towlower (m b.r)) (folded towlower (ls.take (n + 1)))
        (folded towlower (rs.take (n + 1))) := by
  induction ls generalizing l r n rs with
  | nil =>
    have hnul : m l = 0 := hl.2
    refine ⟨0, ⟨l, r, n⟩, .stop (if_neg fun h ↦ h.1 hnul), ?_⟩
    rw [hnul, hlower.zero, List.take_nil]
    cases rs with
    | nil =>
      have hnul' : m r = 0 := hr.2
      rw [hnul', hlower.zero, List.take_nil]
      exact orders_self _
    | cons y rs =>
      obtain ⟨⟨hy, hne, -⟩, -⟩ := hr
      rw [hy, List.take_succ_cons]
      exact orders_nil_cons (hlower.ne y hne) (hsmall y (List.mem_cons_self ..)) _
  | cons x ls ih =>
    obtain ⟨hx, hnex, -⟩ := hl.1
    have hsmallx := hsmall x (List.mem_cons_self ..)
    rw [List.take_succ_cons]
    cases rs with
    | nil =>
      have hnul : m r = 0 := hr.2
      refine ⟨0, ⟨l, r, n⟩, .stop (if_neg fun h ↦ h.2.1 hnul), ?_⟩
      rw [hnul, hlower.zero, hx, List.take_nil]
      exact orders_cons_nil (hlower.ne x hnex) hsmallx _
    | cons y rs =>
      obtain ⟨hy, hney, -⟩ := hr.1
      have hsmally := hsmall y (by simp)
      rw [List.take_succ_cons]
      by_cases hfold : towlower x = towlower y
      · cases n with
        | zero =>
          refine ⟨0, ⟨l, r, 0⟩, .stop (if_neg fun h ↦ h.2.2.1 rfl), ?_⟩
          rw [hx, hy, hfold, List.take_zero, List.take_zero, folded, folded, List.map_singleton,
            List.map_singleton, hfold]
          exact orders_self _
        | succ n =>
          have hturn : caseTurn towlower m ⟨l, r, n + 1⟩ = .next ⟨l + 1, r + 1, n⟩ :=
            if_pos ⟨hx ▸ hnex, hy ▸ hney, Nat.succ_ne_zero n, .inr (hx ▸ hy ▸ hfold)⟩
          have hrest : ∀ c ∈ ls ++ rs, (towlower c).toNat < 2 ^ 31 := fun c hc ↦ hsmall c (by grind)
          obtain ⟨k, b, hends, horders⟩ := ih hrest hl.tail hr.tail (n := n)
          refine ⟨k + 1, b, .next hturn hends, ?_⟩
          have hcons := horders.cons (towlower x).toNat
          rw [folded, List.map_cons]
          rw [folded, List.map_cons, ← hfold]
          exact hcons
      · refine ⟨0, ⟨l, r, n⟩, .stop (if_neg ?_), ?_⟩
        · rintro ⟨-, -, -, hchar | hchar⟩
          · exact hfold (congrArg towlower (hx.symm.trans (hchar.trans hy)))
          · exact hfold (hx ▸ hy ▸ hchar)
        · rw [hx, hy]
          exact orders_cons hsmallx hsmally hfold _ _

end Order

/-- The comparison of wide strings without regard to case is that of the lists of their folded
characters, of the first `n` or of all. -/
theorem wcsncasecmp_orders {towlower : BitVec 32 → BitVec 32} {m : WideMemory} {l r : ℕ}
    {ls rs : List (BitVec 32)} (hlower : Lowers towlower)
    (hsmall : ∀ c ∈ ls ++ rs, (towlower c).toNat < 2 ^ 31) (hl : Holds m l ls)
    (hr : Holds m r rs) :
    (∀ n, ∃ d, Returns (wcsncasecmp towlower m l r n) d ∧
      Orders d (folded towlower (ls.take n)) (folded towlower (rs.take n))) ∧
    (ls.length < 2 ^ 32 → rs.length < 2 ^ 32 → ∃ d, Returns (wcscasecmp towlower m l r) d ∧
      Orders d (folded towlower ls) (folded towlower rs)) := by
  have hmain : ∀ n, ∃ d, Returns (wcsncasecmp towlower m l r n) d ∧
      Orders d (folded towlower (ls.take n)) (folded towlower (rs.take n)) := by
    intro n
    cases n with
    | zero => exact ⟨0, .ite (fun _ ↦ .pure _) fun h ↦ absurd rfl h, orders_self (x := 0) _⟩
    | succ n =>
      obtain ⟨k, b, hends, horders⟩ := wcsncasecmp_ends hlower hsmall hl hr
      refine ⟨_, .ite (fun h ↦ absurd h (Nat.succ_ne_zero n)) fun _ ↦ ?_, horders⟩
      exact hends.returns.map fun a ↦ towlower (m a.l) - towlower (m a.r)
  refine ⟨hmain, fun hls hrs ↦ ?_⟩
  obtain ⟨d, hret, horders⟩ := hmain (2 ^ 32 - 1)
  rw [List.take_of_length_le (by omega), List.take_of_length_le (by omega)] at horders
  exact ⟨d, hret, horders⟩

/-- `"aB"` comes before `"ac"`, and is the same as `"ab"`. -/
theorem wcsncasecmp_orders_letters :
    let m : WideMemory := fun a ↦ [0x61, 0x42, 0, 0x61, 0x63, 0].getD a 0
    (∀ n, ∃ d, Returns (wcsncasecmp lowered m 0 3 n) d ∧
      Orders d (folded lowered ([0x61, 0x42].take n)) (folded lowered ([0x61, 0x63].take n))) ∧
    (2 < 2 ^ 32 → 2 < 2 ^ 32 → ∃ d, Returns (wcscasecmp lowered m 0 3) d ∧
      Orders d [0x61, 0x62] [0x61, 0x63]) := by
  intro m
  have hlower : Lowers (lowered : BitVec 32 → BitVec 32) := by
    refine ⟨by decide, fun c hc ↦ ?_⟩
    unfold lowered
    split <;> bv_omega
  have hl : Holds m 0 [0x61, 0x42] := ⟨⟨rfl, by decide, rfl, by decide, trivial⟩, rfl⟩
  have hr : Holds m 3 [0x61, 0x63] := ⟨⟨rfl, by decide, rfl, by decide, trivial⟩, rfl⟩
  exact wcsncasecmp_orders hlower (by simp [lowered]) hl hr

section Search

def strncasecmp (tolower : BitVec 8 → BitVec 8) (m : Memory) (l r : ℕ) : ℕ → ℤ
  | 0 => 0
  | n + 1 =>
    if m.bytes l = 0 ∨ tolower (m.bytes l) ≠ tolower (m.bytes r) then
      (tolower (m.bytes l)).toNat - (tolower (m.bytes r)).toNat
    else strncasecmp tolower m (l + 1) (r + 1) n

/-- `for (; *h; h++) if (!strncasecmp(h, n, l)) return (char *)h;` -/
def findTurn (tolower : BitVec 8 → BitVec 8) (m : Memory) (n l h : ℕ) : Turn ℕ :=
  if m.bytes h ≠ 0 ∧ strncasecmp tolower m h n l ≠ 0 then .next (h + 1) else .stop h

/-- The null pointer is `none`. -/
def strcasestr (tolower : BitVec 8 → BitVec 8) (m : Memory) (h n fuel : ℕ) : Option (Option ℕ) :=
  (strlen fuel m n).bind fun l ↦
    (run (findTurn tolower m n l) fuel h).map fun a ↦ if m.bytes a = 0 then none else some a

/-- The needle stands in the haystack at this place, without regard to case. -/
def Stands (tolower : BitVec 8 → BitVec 8) (ns hs : List (BitVec 8)) (i : ℕ) : Prop :=
  ns.map tolower <+: (hs.drop i).map tolower

instance (tolower : BitVec 8 → BitVec 8) (ns hs : List (BitVec 8)) :
    DecidablePred (Stands tolower ns hs) := fun i ↦
  inferInstanceAs (Decidable (ns.map tolower <+: (hs.drop i).map tolower))

variable {tolower : BitVec 8 → BitVec 8} {m : Memory} {h n : ℕ} {hs ns : List (BitVec 8)}

theorem toNat_sub_eq_zero {x y : BitVec 8} : (x.toNat : ℤ) - y.toNat = 0 ↔ x = y := by
  rw [sub_eq_zero, Nat.cast_inj]
  exact BitVec.toNat_inj

/-- The comparison of a string with the needle looks only whether the needle is at its start. -/
theorem strncasecmp_eq_zero (hlower : Lowers tolower) (hhs : Holds m.bytes h hs)
    (hns : Holds m.bytes n ns) :
    strncasecmp tolower m h n ns.length = 0 ↔ Stands tolower ns hs 0 := by
  induction ns generalizing h n hs with
  | nil => exact iff_of_true rfl List.nil_prefix
  | cons y ns ih =>
    obtain ⟨hy, hney, -⟩ := hns.1
    rw [List.length_cons, strncasecmp, hy]
    cases hs with
    | nil =>
      have hnul : m.bytes h = 0 := hhs.2
      rw [if_pos (.inl hnul), hnul, toNat_sub_eq_zero, hlower.zero]
      exact iff_of_false (hlower.ne y hney).symm fun hpre ↦ by simp [Stands] at hpre
    | cons x hs =>
      obtain ⟨hx, hnex, -⟩ := hhs.1
      rw [hx]
      have hcons : Stands tolower (y :: ns) (x :: hs) 0 ↔
          tolower y = tolower x ∧ Stands tolower ns hs 0 := by
        rw [Stands, Stands, List.drop_zero, List.drop_zero, List.map_cons, List.map_cons,
          List.cons_prefix_cons]
      rw [hcons]
      by_cases hfold : tolower x = tolower y
      · rw [if_neg (not_or.mpr ⟨hnex, not_not.mpr hfold⟩), ih hhs.tail hns.tail]
        exact (and_iff_right hfold.symm).symm
      · rw [if_pos (.inr hfold), toNat_sub_eq_zero]
        exact iff_of_false hfold fun h ↦ hfold h.1.symm

theorem findTurn_ends (hlower : Lowers tolower) (hhs : Holds m.bytes h hs)
    (hns : Holds m.bytes n ns) : ∃ k b, Loops.Ends (findTurn tolower m n ns.length) k h b ∧
      (if m.bytes b = 0 then none else some b) =
        ((List.range hs.length).find? (Stands tolower ns hs)).map (h + ·) := by
  induction hs generalizing h with
  | nil =>
    have hnul : m.bytes h = 0 := hhs.2
    exact ⟨0, h, .stop (if_neg fun hne ↦ hne.1 hnul), if_pos hnul⟩
  | cons x hs ih =>
    obtain ⟨hx, hne, -⟩ := hhs.1
    have hbyte : m.bytes h ≠ 0 := hx ▸ hne
    rw [List.length_cons, List.range_succ_eq_map]
    by_cases hstands : Stands tolower ns (x :: hs) 0
    · refine ⟨0, h, .stop (if_neg fun hmore ↦ ?_), ?_⟩
      · exact hmore.2 ((strncasecmp_eq_zero hlower hhs hns).mpr hstands)
      · rw [if_neg hbyte, List.find?_cons_of_pos]
        · rfl
        · exact decide_eq_true hstands
    · obtain ⟨k, b, hends, hfound⟩ := ih hhs.tail
      have hturn : findTurn tolower m n ns.length h = .next (h + 1) :=
        if_pos ⟨hbyte, fun hzero ↦ hstands ((strncasecmp_eq_zero hlower hhs hns).mp hzero)⟩
      refine ⟨k + 1, b, .next hturn hends, ?_⟩
      rw [hfound, List.find?_cons_of_neg (by simpa using hstands), List.find?_map, Option.map_map]
      congr 1
      funext i
      exact Nat.add_right_comm h 1 i |>.trans (Nat.add_assoc h i 1)

end Search

/-- The search answers with the first place where the needle stands, and looks only at places
before the end: an empty haystack has not even an empty needle in it. -/
theorem strcasestr_first {tolower : BitVec 8 → BitVec 8} {m : Memory} {h n : ℕ}
    {hs ns : List (BitVec 8)} (hlower : Lowers tolower) (hhs : Holds m.bytes h hs)
    (hns : Holds m.bytes n ns) :
    Returns (strcasestr tolower m h n)
      (((List.range hs.length).find? (Stands tolower ns hs)).map (h + ·)) := by
  obtain ⟨k, b, hends, hfound⟩ := findTurn_ends hlower hhs hns
  rw [← hfound]
  exact .bind (strlen_holds hns) (hends.returns.map fun a ↦ if m.bytes a = 0 then none else some a)

/-- The first place of `"B"` in `"ab"`. -/
theorem strcasestr_first_letters :
    let m : Memory := ⟨fun a ↦ [0x61, 0x62, 0, 0x42, 0].getD a 0, fun _ ↦ true⟩
    Returns (strcasestr lowered m 0 3) (some 1) := by
  intro m
  have hlower : Lowers (lowered : BitVec 8 → BitVec 8) := by
    refine ⟨by decide, fun c hc ↦ ?_⟩
    unfold lowered
    split <;> bv_omega
  have hhs : Holds m.bytes 0 [0x61, 0x62] := ⟨⟨rfl, by decide, rfl, by decide, trivial⟩, rfl⟩
  have hns : Holds m.bytes 3 [0x42] := ⟨⟨rfl, by decide, trivial⟩, rfl⟩
  exact strcasestr_first hlower hhs hns

end SceLibcPosix.Strings
