import SceLibcPosix.Lib.Loops
import SceLibcPosix.Strings.Words

namespace SceLibcPosix.Strings

open Loops Function

/-- The memory of the process, with the addresses that have been stored to. -/
structure Memory where
  bytes : ℕ → BitVec 8
  stored : ℕ → Bool

def Memory.store (m : Memory) (a : ℕ) (b : BitVec 8) : Memory where
  bytes := update m.bytes a b
  stored := update m.stored a true

/-- A word of the target, which is little-endian. -/
def Memory.loadWord (m : Memory) (a : ℕ) : BitVec 32 :=
  BitVec.ofNat 32 ((m.bytes a).toNat + (m.bytes (a + 1)).toNat * 2 ^ 8 +
    (m.bytes (a + 2)).toNat * 2 ^ 16 + (m.bytes (a + 3)).toNat * 2 ^ 24)

def Memory.storeWord (m : Memory) (a : ℕ) (x : BitVec 32) : Memory :=
  (((m.store a (byteOf x 0)).store (a + 1) (byteOf x 1)).store (a + 2) (byteOf x 2)).store (a + 3)
    (byteOf x 3)

/-- The variables of a copying loop. A routine without a bound has no `n`. -/
@[ext]
structure Cursor where
  m : Memory
  d : ℕ
  s : ℕ
  n : Option ℕ

def Cursor.room (a : Cursor) (k : ℕ) : Bool := a.n.all (k ≤ ·)

/-- `*d = *s`. -/
def Cursor.copy (a : Cursor) : Cursor := { a with m := a.m.store a.d (a.m.bytes a.s) }

def Cursor.advance (a : Cursor) (k : ℕ) : Cursor :=
  { a with d := a.d + k, s := a.s + k, n := a.n.map (· - k) }

/-- `for (; n && (*d = *s) != c; n--, s++, d++);` -/
def byteTurn (c : BitVec 8) (a : Cursor) : Turn Cursor :=
  if a.room 1 then
    if a.m.bytes a.s ≠ c then .next (a.copy.advance 1) else .stop a.copy
  else .stop a

/-- The loop up to the first word: it ends at an aligned `s`, or where the other one ends. -/
def alignTurn (c : BitVec 8) (a : Cursor) : Turn Cursor :=
  if a.s % 4 ≠ 0 then byteTurn c a else .stop a

/-- The loop over the words, while they have room and the test is zero. -/
def wordTurn (test : BitVec 32 → BitVec 32) (a : Cursor) : Turn Cursor :=
  if a.room 4 ∧ test (a.m.loadWord a.s) = 0 then
    .next ({ a with m := a.m.storeWord a.d (a.m.loadWord a.s) }.advance 4)
  else .stop a

def strlen (fuel : ℕ) (m : Memory) (s : ℕ) : Option ℕ :=
  (run (fun a ↦ if m.bytes a ≠ 0 then .next (a + 1) else .stop a) fuel s).map (· - s)

/-- What `__GNUC__` puts before the last loop of `strlcpy`. -/
def strlcpyFast (a : Cursor) (fuel : ℕ) : Option Cursor :=
  if a.s % 4 = a.d % 4 then do
    let a ← run (alignTurn 0) fuel a
    if a.room 1 ∧ a.m.bytes a.s ≠ 0 then run (wordTurn HASZERO) fuel a else some a
  else some a

/-- `strlcpy`; without `__GNUC__` it has its last loop alone. -/
def strlcpy (gnuc : Bool) (m : Memory) (d s n fuel : ℕ) : Option (Memory × ℕ) :=
  if n = 0 then (strlen fuel m s).map fun len ↦ (m, len)
  else do
    let a : Cursor := ⟨m, d, s, some (n - 1)⟩
    let a ← (if gnuc then strlcpyFast a fuel else some a)
    let a ← run (byteTurn 0) fuel a
    let m := a.m.store a.d 0
    let len ← strlen fuel m a.s
    some (m, a.d - d + len)

/-- `stpcpy`. Its first loop returns where it stops at an `s` that is not aligned. -/
def stpcpy (gnuc : Bool) (m : Memory) (d s fuel : ℕ) : Option (Memory × ℕ) := do
  let a : Cursor := ⟨m, d, s, none⟩
  if gnuc ∧ s % 4 = d % 4 then
    let a ← run (alignTurn 0) fuel a
    if a.s % 4 ≠ 0 then some (a.m, a.d)
    else
      let a ← run (wordTurn HASZERO) fuel a
      let a ← run (byteTurn 0) fuel a
      some (a.m, a.d)
  else
    let a ← run (byteTurn 0) fuel a
    some (a.m, a.d)

def memccpyTail (a : Cursor) : Memory × Option ℕ :=
  (a.m, if a.room 1 then some (a.d + 1) else none)

def memccpy (gnuc : Bool) (m : Memory) (dest src : ℕ) (c : BitVec 32) (n fuel : ℕ) :
    Option (Memory × Option ℕ) := do
  let a : Cursor := ⟨m, dest, src, some n⟩
  let c := c.setWidth 8
  if gnuc ∧ src % 4 = dest % 4 then
    let a ← run (alignTurn c) fuel a
    if a.s % 4 ≠ 0 then some (memccpyTail a)
    else
      let k := ONES * c.setWidth 32
      let a ← run (wordTurn fun x ↦ HASZERO (x ^^^ k)) fuel a
      let a ← run (byteTurn c) fuel a
      some (memccpyTail a)
  else
    let a ← run (byteTurn c) fuel a
    some (memccpyTail a)

/-- The plain loop `for (; n && (*d = *s) != c; n--, s++, d++);`, with the memory and `d`, `s` and
`n` where it ends. -/
def byteLoop (c : BitVec 8) : ℕ → Memory → ℕ → ℕ → Memory × ℕ × ℕ × ℕ
  | 0, m, d, s => (m, d, s, 0)
  | n + 1, m, d, s =>
    if m.bytes s = c then (m.store d c, d, s, n + 1)
    else byteLoop c n (m.store d (m.bytes s)) (d + 1) (s + 1)

def memccpyBytes (m : Memory) (dest src : ℕ) (c : BitVec 32) (n : ℕ) : Memory × Option ℕ :=
  let (m, d, _, n) := byteLoop (c.setWidth 8) n m dest src
  (m, if n = 0 then none else some (d + 1))

def strlcpyBytes (m : Memory) (d s n fuel : ℕ) : Option (Memory × ℕ) :=
  match n with
  | 0 => (strlen fuel m s).map fun len ↦ (m, len)
  | n + 1 =>
    let (m, e, s, _) := byteLoop 0 n m d s
    let m := m.store e 0
    (strlen fuel m s).map fun len ↦ (m, e - d + len)

/-- `for (; (*d = *s); s++, d++);` and the return. -/
def stpcpyBytes (m : Memory) (d s : ℕ) : ℕ → Option (Memory × ℕ)
  | 0 => none
  | fuel + 1 =>
    if m.bytes s = 0 then some (m.store d 0, d)
    else stpcpyBytes (m.store d (m.bytes s)) (d + 1) (s + 1) fuel

section Turns

variable {m : Memory} {a b : Cursor} {c : BitVec 8} {i j : ℕ}

theorem Memory.bytes_store_ne {x : BitVec 8} (h : i ≠ j) :
    (m.store i x).bytes j = m.bytes j := update_of_ne h.symm _ _

theorem Memory.bytes_store_self (x : BitVec 8) : (m.store i x).bytes i = x := update_self _ _ _

theorem Memory.store_self (x : BitVec 8) : (m.store i x).store i x = m.store i x := by
  simp [store]

theorem byteOf_loadWord (m : Memory) (a : ℕ) (hi : i < 4) :
    byteOf (m.loadWord a) i = m.bytes (a + i) := by
  have h0 := (m.bytes a).isLt
  have h1 := (m.bytes (a + 1)).isLt
  have h2 := (m.bytes (a + 2)).isLt
  have h3 := (m.bytes (a + 3)).isLt
  apply BitVec.eq_of_toNat_eq
  rw [toNat_byteOf, Memory.loadWord, BitVec.toNat_ofNat]
  obtain rfl | rfl | rfl | rfl : i = 0 ∨ i = 1 ∨ i = 2 ∨ i = 3 := by omega
  · change _ = (m.bytes a).toNat
    omega
  all_goals omega

theorem Memory.storeWord_eq (m : Memory) (d s : ℕ) : m.storeWord d (m.loadWord s) =
    (((m.store d (m.bytes s)).store (d + 1) (m.bytes (s + 1))).store (d + 2)
      (m.bytes (s + 2))).store (d + 3) (m.bytes (s + 3)) := by
  rw [storeWord, byteOf_loadWord _ _ (by omega), byteOf_loadWord _ _ (by omega),
    byteOf_loadWord _ _ (by omega), byteOf_loadWord _ _ (by omega), Nat.add_zero]

theorem room_copy {k : ℕ} : a.copy.room k = a.room k := rfl

theorem copy_bytes (a : Cursor) : a.copy.m.bytes a.s = a.m.bytes a.s := by
  change (a.m.store a.d (a.m.bytes a.s)).bytes a.s = a.m.bytes a.s
  by_cases h : a.d = a.s
  · rw [← h, Memory.bytes_store_self]
  · exact Memory.bytes_store_ne h

theorem copy_copy (a : Cursor) : a.copy.copy = a.copy := by
  have hm : a.copy.m.store a.d (a.copy.m.bytes a.s) = a.copy.m := by
    rw [copy_bytes]
    exact Memory.store_self _
  exact congrArg (fun m ↦ { a with m := m }) hm

theorem byteTurn_stop (h : byteTurn c a = .stop b) : byteTurn c b = .stop b := by
  unfold byteTurn at h
  split at h
  · next hroom =>
    split at h
    · cases h
    · next hbyte =>
      cases h
      have hagain : ¬ a.copy.m.bytes a.copy.s ≠ c := by
        rw [show a.copy.s = a.s from rfl, copy_bytes]
        exact hbyte
      rw [byteTurn, room_copy, if_pos hroom, if_neg hagain, copy_copy]
  · next hroom =>
    cases h
    rw [byteTurn, if_neg hroom]

theorem alignTurn_next (h : alignTurn c a = .next b) : byteTurn c a = .next b := by
  unfold alignTurn at h
  split at h
  · exact h
  · cases h

theorem alignTurn_stop (h : alignTurn c a = .stop b) :
    a.s % 4 = 0 ∧ b = a ∨ a.s % 4 ≠ 0 ∧ byteTurn c a = .stop b := by
  unfold alignTurn at h
  split at h
  · next hs => exact .inr ⟨hs, h⟩
  · next hs =>
    cases h
    exact .inl ⟨not_not.mp hs, rfl⟩

theorem byteTurn_next (h : byteTurn c a = .next b) :
    a.room 1 = true ∧ a.m.bytes a.s ≠ c ∧ b = a.copy.advance 1 := by
  unfold byteTurn at h
  split at h
  · next hroom =>
    split at h
    · next hbyte =>
      cases h
      exact ⟨hroom, hbyte, rfl⟩
    · cases h
  · cases h

theorem byteTurn_of (hroom : a.room 1 = true) (hbyte : a.m.bytes a.s ≠ c) :
    byteTurn c a = .next (a.copy.advance 1) := by
  rw [byteTurn, if_pos hroom, if_pos hbyte]

/-- The loop after some turns that go on. -/
def after (a : Cursor) : ℕ → Cursor
  | 0 => a
  | k + 1 => (after a k).copy.advance 1

theorem after_pointers (a : Cursor) (k : ℕ) :
    (after a k).s = a.s + k ∧ (after a k).d = a.d + k ∧ (after a k).n = a.n.map (· - k) := by
  induction k with
  | zero =>
    refine ⟨rfl, rfl, ?_⟩
    cases hn : a.n <;> simp [after, hn]
  | succ k ih =>
    obtain ⟨hs, hd, hn⟩ := ih
    refine ⟨?_, ?_, ?_⟩
    · exact congrArg (· + 1) hs
    · exact congrArg (· + 1) hd
    · change (after a k).n.map (· - 1) = a.n.map (· - (k + 1))
      rw [hn, Option.map_map]
      rfl

/-- Between pointers at equal distances from word boundaries, the stores of a word do not reach
its bytes that are still to be read. -/
theorem after_bytes (hsd : a.s % 4 = a.d % 4) {k : ℕ} (hk : k ≤ i) (hi : i < 4) :
    (after a k).m.bytes (a.s + i) = a.m.bytes (a.s + i) := by
  induction k with
  | zero => rfl
  | succ k ih =>
    obtain ⟨hs, hd, -⟩ := after_pointers a k
    rw [← ih (by omega)]
    apply Memory.bytes_store_ne
    rw [hd]
    omega

theorem after_turn (hsd : a.s % 4 = a.d % 4) (hroom : a.room 4 = true)
    (hbytes : ∀ i < 4, a.m.bytes (a.s + i) ≠ c) {k : ℕ} (hk : k < 4) :
    byteTurn c (after a k) = .next (after a (k + 1)) := by
  obtain ⟨hs, -, hn⟩ := after_pointers a k
  refine byteTurn_of ?_ ?_
  · unfold Cursor.room at *
    rw [hn]
    cases hcase : a.n with
    | none => rfl
    | some n =>
      rw [hcase, Option.all_some, decide_eq_true_iff] at hroom
      rw [Option.map_some, Option.all_some, decide_eq_true_iff]
      omega
  · rw [hs, after_bytes hsd (Nat.le_refl k) hk]
    exact hbytes k hk

theorem after_word (hsd : a.s % 4 = a.d % 4) :
    after a 4 = { a with m := a.m.storeWord a.d (a.m.loadWord a.s) }.advance 4 := by
  obtain ⟨hs, hd, hn⟩ := after_pointers a 4
  have hcopy (k : ℕ) (hk : k < 4) : (after a (k + 1)).m =
      (after a k).m.store (a.d + k) (a.m.bytes (a.s + k)) := by
    obtain ⟨hs, hd, -⟩ := after_pointers a k
    rw [← after_bytes hsd (Nat.le_refl k) hk, ← hs, ← hd]
    rfl
  have hm : (after a 4).m = a.m.storeWord a.d (a.m.loadWord a.s) := by
    rw [Memory.storeWord_eq, hcopy 3 (by omega), hcopy 2 (by omega), hcopy 1 (by omega),
      hcopy 0 (by omega)]
    rfl
  exact Cursor.ext hm hd hs hn

theorem leads_word (hsd : a.s % 4 = a.d % 4) (hroom : a.room 4 = true)
    (hbytes : ∀ i < 4, a.m.bytes (a.s + i) ≠ c) : Leads (byteTurn c) a
      ({ a with m := a.m.storeWord a.d (a.m.loadWord a.s) }.advance 4) := by
  have hturn (k : ℕ) (hk : k < 4) := after_turn hsd hroom hbytes hk
  have hfirst : Leads (byteTurn c) a (after a 1) := .single (hturn 0 (by omega))
  rw [← after_word hsd]
  exact ((hfirst.tail (hturn 1 (by omega))).tail (hturn 2 (by omega))).tail (hturn 3 (by omega))

end Turns

section Phases

variable {a r : Cursor} {c : BitVec 8} {n : ℕ} {test : BitVec 32 → BitVec 32}

theorem byteTurn_pointers (h : byteTurn c a = .stop r) : r.s = a.s ∧ r.d = a.d := by
  unfold byteTurn at h
  split at h
  · split at h
    · cases h
    · cases h
      exact ⟨rfl, rfl⟩
  · cases h
    exact ⟨rfl, rfl⟩

theorem align_phase (h : Ends (byteTurn c) n a r) (hsd : a.s % 4 = a.d % 4) :
    ∃ k b m, Ends (alignTurn c) k a b ∧ Ends (byteTurn c) m b r ∧
      b.s % 4 = b.d % 4 ∧ (b.s % 4 ≠ 0 → byteTurn c b = .stop b) := by
  refine h.absorb (P := fun a ↦ a.s % 4 = a.d % 4)
    (Q := fun b ↦ b.s % 4 = b.d % 4 ∧ (b.s % 4 ≠ 0 → byteTurn c b = .stop b)) hsd ?_ ?_
  · intro a b hsd hnext
    have hbyte := alignTurn_next hnext
    refine ⟨?_, .single hbyte⟩
    rw [(byteTurn_next hbyte).2.2]
    change (a.s + 1) % 4 = (a.d + 1) % 4
    omega
  · intro a b n hsd hstop hr
    obtain ⟨hs, rfl⟩ | ⟨-, hbyte⟩ := alignTurn_stop hstop
    · exact ⟨⟨hsd, fun hs' ↦ absurd hs hs'⟩, n, hr⟩
    · obtain rfl := hr.of_stop hbyte
      obtain ⟨hs, hd⟩ := byteTurn_pointers hbyte
      have hagain := byteTurn_stop hbyte
      exact ⟨⟨by rw [hs, hd, hsd], fun _ ↦ hagain⟩, 0, .stop hagain⟩

/-- The words that the test passes leave the end of the loop over the single bytes as it is. -/
theorem word_phase (h : Ends (byteTurn c) n a r) (hs : a.s % 4 = 0) (hd : a.d % 4 = 0)
    (htest : ∀ x, test x = 0 → ∀ i < 4, byteOf x i ≠ c) :
    ∃ k b m, Ends (wordTurn test) k a b ∧ Ends (byteTurn c) m b r := by
  have hnext (a b : Cursor) (h : a.s % 4 = 0 ∧ a.d % 4 = 0) (hnext : wordTurn test a = .next b) :
      (b.s % 4 = 0 ∧ b.d % 4 = 0) ∧ Leads (byteTurn c) a b := by
    unfold wordTurn at hnext
    split at hnext
    · next hword =>
      cases hnext
      refine ⟨⟨?_, ?_⟩, leads_word (by omega) hword.1 fun i hi ↦ ?_⟩
      · exact (Nat.add_mod_right a.s 4).trans h.1
      · exact (Nat.add_mod_right a.d 4).trans h.2
      · rw [← byteOf_loadWord _ _ hi]
        exact htest _ hword.2 i hi
    · cases hnext
  have hstop (a b : Cursor) (n : ℕ) (_ : a.s % 4 = 0 ∧ a.d % 4 = 0)
      (hstop : wordTurn test a = .stop b) (h : Ends (byteTurn c) n a r) :
      True ∧ ∃ m, Ends (byteTurn c) m b r := by
    unfold wordTurn at hstop
    split at hstop
    · cases hstop
    · cases hstop
      exact ⟨trivial, n, h⟩
  obtain ⟨k, b, m, hk, hm, -⟩ := h.absorb (Q := fun _ ↦ True) ⟨hs, hd⟩ hnext hstop
  exact ⟨k, b, m, hk, hm⟩

theorem test_zero (x : BitVec 32) (h : HASZERO x = 0) : ∀ i < 4, byteOf x i ≠ 0 := by
  intro i hi hzero
  exact absurd h ((haszero_iff x).mpr ⟨i, hi, hzero⟩)

theorem haszero_xor_iff (x : BitVec 32) (c : BitVec 8) :
    HASZERO (x ^^^ ONES * c.setWidth 32) ≠ 0 ↔ ∃ i < 4, byteOf x i = c := by
  rw [haszero_iff]
  refine exists_congr fun i ↦ and_congr_right fun hi ↦ ?_
  rw [byteOf_xor, byteOf_ones c hi]
  exact BitVec.xor_eq_zero_iff

theorem test_char (x : BitVec 32) (h : HASZERO (x ^^^ ONES * c.setWidth 32) = 0) :
    ∀ i < 4, byteOf x i ≠ c := by
  intro i hi hc
  exact absurd h ((haszero_xor_iff x c).mpr ⟨i, hi, hc⟩)

theorem three_phases {α : Type} {p : Prop} [Decidable p] (h : Ends (byteTurn c) n a r)
    (hp : p → a.s % 4 = a.d % 4) (htest : ∀ x, test x = 0 → ∀ i < 4, byteOf x i ≠ c)
    (tail : Cursor → α) :
    Returns (fun fuel ↦ if p then
        (run (alignTurn c) fuel a).bind fun a ↦
          if a.s % 4 ≠ 0 then some (tail a)
          else (run (wordTurn test) fuel a).bind fun a ↦
            (run (byteTurn c) fuel a).bind fun a ↦ some (tail a)
      else (run (byteTurn c) fuel a).bind fun a ↦ some (tail a)) (tail r) := by
  refine .ite (fun hsd ↦ ?_) fun _ ↦ .bind h.returns (.pure _)
  obtain ⟨k₁, b, k₂, halign, hrest, hbd, hstop⟩ := align_phase h (hp hsd)
  refine .bind halign.returns (.ite (fun hs ↦ ?_) fun hs ↦ ?_)
  · rw [hrest.of_stop (hstop hs)]
    exact .pure _
  · obtain ⟨k₃, b', k₄, hwords, hrest⟩ := word_phase hrest (not_not.mp hs)
      (hbd ▸ not_not.mp hs) htest
    exact .bind hwords.returns (.bind hrest.returns (.pure _))

end Phases

section Plain

variable {m : Memory} {a r : Cursor} {c : BitVec 8} {d s n k : ℕ}

theorem byteLoop_ends (c : BitVec 8) (n : ℕ) (m : Memory) (d s : ℕ) :
    ∃ k, Ends (byteTurn c) k ⟨m, d, s, some n⟩ ⟨(byteLoop c n m d s).1, (byteLoop c n m d s).2.1,
      (byteLoop c n m d s).2.2.1, some (byteLoop c n m d s).2.2.2⟩ := by
  induction n generalizing m d s with
  | zero => exact ⟨0, .stop (if_neg (by simp [Cursor.room]))⟩
  | succ n ih =>
    have hroom : (⟨m, d, s, some (n + 1)⟩ : Cursor).room 1 = true := by simp [Cursor.room]
    by_cases hc : m.bytes s = c
    · have hstop :
          byteTurn c ⟨m, d, s, some (n + 1)⟩ = .stop ⟨m.store d c, d, s, some (n + 1)⟩ := by
        rw [byteTurn, if_pos hroom, if_neg (not_not.mpr hc), Cursor.copy, hc]
      simp only [byteLoop, if_pos hc]
      exact ⟨0, .stop hstop⟩
    · obtain ⟨k, hk⟩ := ih (m.store d (m.bytes s)) (d + 1) (s + 1)
      simp only [byteLoop, if_neg hc]
      exact ⟨k + 1, .next (byteTurn_of hroom hc) hk⟩

theorem stpcpyBytes_returns (h : Ends (byteTurn 0) k a r) (hn : a.n = none) :
    Returns (stpcpyBytes a.m a.d a.s) (r.m, r.d) := by
  have hroom (b : Cursor) (hb : b.n = none) : b.room 1 = true := by rw [Cursor.room, hb]; rfl
  refine ⟨k + 1, fun fuel hfuel ↦ ?_⟩
  obtain ⟨fuel, rfl⟩ : ∃ j, fuel = j + 1 := ⟨fuel - 1, by omega⟩
  induction h generalizing fuel with
  | @stop a b h =>
    rw [byteTurn, if_pos (hroom a hn)] at h
    split at h
    · cases h
    · next hbyte =>
      cases h
      rw [not_not] at hbyte
      rw [stpcpyBytes, if_pos hbyte]
      simp only [Cursor.copy, hbyte]
  | @next a b c k h h' ih =>
    obtain ⟨-, hbyte, rfl⟩ := byteTurn_next h
    obtain ⟨fuel, rfl⟩ : ∃ j, fuel = j + 1 := ⟨fuel - 1, by omega⟩
    rw [stpcpyBytes, if_neg hbyte]
    exact ih (by simp [Cursor.advance, Cursor.copy, hn]) fuel (by omega)

end Plain

section Memccpy

variable {m : Memory} {d s n k : ℕ} {c : BitVec 32} {r : Cursor}

theorem memccpy_bytes (h : Ends (byteTurn (c.setWidth 8)) k ⟨m, d, s, some n⟩ r) :
    Returns (memccpy false m d s c n) (memccpyTail r) := .bind h.returns (.pure _)

theorem memccpy_words (h : Ends (byteTurn (c.setWidth 8)) k ⟨m, d, s, some n⟩ r) :
    Returns (memccpy true m d s c n) (memccpyTail r) :=
  three_phases h And.right test_char memccpyTail

end Memccpy

section Terminated

variable {m : Memory} {d s len : ℕ} {bound : Option ℕ} {a b r : Cursor} {n : ℕ}

/-- A copying loop inside a string of length `len` or less that it does not store to. -/
def Inside (m : Memory) (d s len : ℕ) (bound : Option ℕ) (a : Cursor) : Prop :=
  ∃ t ≤ len, bound.all (t ≤ ·) = true ∧ a.s = s + t ∧ a.d = d + t ∧
    a.n = bound.map (· - t) ∧ ∀ i ≤ len, a.m.bytes (s + i) = m.bytes (s + i)

/-- The string does not meet the bytes that the loop may store to. -/
def Apart (d s len : ℕ) (bound : Option ℕ) : Prop :=
  ∀ i ≤ len, ∀ j ≤ len, bound.all (j < ·) = true → s + i ≠ d + j

theorem room_bound {t : ℕ} (hn : a.n = bound.map (· - t)) (hroom : a.room 1 = true) :
    bound.all (t < ·) = true := by
  rw [Cursor.room, hn] at hroom
  cases bound with
  | none => rfl
  | some k =>
    rw [Option.map_some, Option.all_some, decide_eq_true_iff] at hroom
    rw [Option.all_some, decide_eq_true_iff]
    omega

theorem Inside.copy (hapart : Apart d s len bound) (h : Inside m d s len bound a)
    (hroom : a.room 1 = true) : Inside m d s len bound a.copy := by
  obtain ⟨t, ht, hle, hs, hd, hn, hbytes⟩ := h
  refine ⟨t, ht, hle, hs, hd, hn, fun i hi ↦ ?_⟩
  rw [← hbytes i hi]
  apply Memory.bytes_store_ne
  rw [hd]
  exact (hapart i hi t ht (room_bound hn hroom)).symm

theorem Inside.next (hnul : m.bytes (s + len) = 0) (hapart : Apart d s len bound)
    (h : Inside m d s len bound a) (hturn : byteTurn 0 a = .next b) :
    Inside m d s len bound b ∧ s + len - b.s < s + len - a.s := by
  obtain ⟨hroom, hbyte, rfl⟩ := byteTurn_next hturn
  obtain ⟨t, ht, -, hs, hd, hn, hbytes⟩ := h.copy hapart hroom
  have hlt : t ≠ len := by
    rintro rfl
    obtain ⟨-, -, -, -, -, -, hbytes⟩ := h
    have hsame : a.s = s + t := hs
    rw [hsame, hbytes t (Nat.le_refl t)] at hbyte
    exact hbyte hnul
  have hbound : bound.all (t + 1 ≤ ·) = true := room_bound hn hroom
  refine ⟨⟨t + 1, by omega, hbound, congrArg (· + 1) hs, congrArg (· + 1) hd, ?_, hbytes⟩, ?_⟩
  · change a.copy.n.map (· - 1) = bound.map (· - (t + 1))
    rw [hn, Option.map_map]
    rfl
  · change s + len - (a.copy.s + 1) < s + len - a.copy.s
    omega

theorem Inside.stop (hapart : Apart d s len bound) (h : Inside m d s len bound a)
    (hturn : byteTurn 0 a = .stop b) : Inside m d s len bound b := by
  unfold byteTurn at hturn
  split at hturn
  · next hroom =>
    split at hturn
    · cases hturn
    · cases hturn
      exact h.copy hapart hroom
  · cases hturn
    exact h

theorem ends_inside (bound : Option ℕ) (hnul : m.bytes (s + len) = 0)
    (hapart : Apart d s len bound) :
    ∃ n r, Ends (byteTurn 0) n ⟨m, d, s, bound⟩ r ∧ Inside m d s len bound r := by
  have hstart : Inside m d s len bound ⟨m, d, s, bound⟩ :=
    ⟨0, Nat.zero_le _, by cases bound <;> simp, rfl, rfl, by cases bound <;> rfl, fun _ _ ↦ rfl⟩
  obtain ⟨n, r, hr⟩ := exists_ends (μ := fun a : Cursor ↦ s + len - a.s)
    (fun a b h hturn ↦ h.next hnul hapart hturn) hstart
  exact ⟨n, r, hr, hr.invariant hstart (fun _ _ h hturn ↦ (h.next hnul hapart hturn).1)
    fun _ _ h hturn ↦ h.stop hapart hturn⟩

theorem strlen_returns {p q : ℕ} (hnul : m.bytes q = 0) (hpq : p ≤ q) :
    ∃ l, Returns (fun fuel ↦ strlen fuel m p) l := by
  have hends : ∃ n b, Ends (fun a ↦ if m.bytes a ≠ 0 then .next (a + 1) else .stop a) n p b := by
    refine exists_ends (P := fun a ↦ a ≤ q) (μ := fun a ↦ q - a) (fun a b hle hturn ↦ ?_) hpq
    split at hturn
    · next hne =>
      cases hturn
      have hq : a ≠ q := by
        rintro rfl
        exact hne hnul
      omega
    · cases hturn
  obtain ⟨n, b, h⟩ := hends
  exact ⟨b - p, h.returns.map (· - p)⟩

end Terminated

section Routines

variable {m : Memory} {d s n len k : ℕ} {r : Cursor}

theorem stpcpy_bytes (h : Ends (byteTurn 0) k ⟨m, d, s, none⟩ r) :
    Returns (stpcpy false m d s) (r.m, r.d) := .bind h.returns (.pure _)

theorem stpcpy_words (h : Ends (byteTurn 0) k ⟨m, d, s, none⟩ r) :
    Returns (stpcpy true m d s) (r.m, r.d) :=
  three_phases h And.right test_zero fun a ↦ (a.m, a.d)

theorem strlcpy_bytes (hn : n ≠ 0) (h : Ends (byteTurn 0) k ⟨m, d, s, some (n - 1)⟩ r)
    (hlen : Returns (fun fuel ↦ strlen fuel (r.m.store r.d 0) r.s) len) :
    Returns (strlcpy false m d s n) (r.m.store r.d 0, r.d - d + len) := by
  refine .ite (fun hn' ↦ absurd hn' hn) fun _ ↦ ?_
  exact .bind (.pure _) (.bind h.returns (.bind hlen (.pure _)))

theorem strlcpyFast_returns {a : Cursor} (h : Ends (byteTurn 0) k a r) :
    ∃ b k', Returns (strlcpyFast a) b ∧ Ends (byteTurn 0) k' b r := by
  by_cases hsd : a.s % 4 = a.d % 4
  · obtain ⟨k₁, b, k₂, halign, hrest, hbd, hstop⟩ := align_phase h hsd
    by_cases hmore : b.room 1 = true ∧ b.m.bytes b.s ≠ 0
    · have hb : b.s % 4 = 0 := by
        by_contra hb
        have hnext := byteTurn_of hmore.1 hmore.2
        rw [hstop hb] at hnext
        cases hnext
      obtain ⟨k₃, b', k₄, hwords, hrest⟩ := word_phase hrest hb (hbd ▸ hb) test_zero
      exact ⟨b', k₄, .ite (fun _ ↦ .bind halign.returns (.ite (fun _ ↦ hwords.returns)
        fun h ↦ absurd hmore h)) fun h ↦ absurd hsd h, hrest⟩
    · exact ⟨b, k₂, .ite (fun _ ↦ .bind halign.returns (.ite (fun h ↦ absurd h hmore)
        fun _ ↦ .pure _)) fun h ↦ absurd hsd h, hrest⟩
  · exact ⟨a, k, .ite (fun h ↦ absurd h hsd) fun _ ↦ .pure _, h⟩

theorem strlcpy_words (hn : n ≠ 0) (h : Ends (byteTurn 0) k ⟨m, d, s, some (n - 1)⟩ r)
    (hlen : Returns (fun fuel ↦ strlen fuel (r.m.store r.d 0) r.s) len) :
    Returns (strlcpy true m d s n) (r.m.store r.d 0, r.d - d + len) := by
  refine .ite (fun hn' ↦ absurd hn' hn) fun _ ↦ ?_
  obtain ⟨b, k', hfast, hrest⟩ := strlcpyFast_returns h
  exact .bind hfast (.bind hrest.returns (.bind hlen (.pure _)))

end Routines

end SceLibcPosix.Strings
