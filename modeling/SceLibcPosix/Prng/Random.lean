import Mathlib.Data.BitVec
import Mathlib.Data.Fintype.BigOperators
import Mathlib.Dynamics.PeriodicPts.Lemmas
import SceLibcPosix.Lib.Rings

namespace SceLibcPosix.Prng

open Rings

def init : List (BitVec 32) :=
  [0x00000000, 0x5851f42d, 0xc0b18ccf, 0xcbb5f646,
    0xc7033129, 0x30705b04, 0x20fd5db4, 0x9a8b7f78,
    0x502959d8, 0xab894868, 0x6c0356a7, 0x88cdb7ff,
    0xb477d43f, 0x70a3a52b, 0xa8e4baf1, 0xfd8341fc,
    0x8ae16fd9, 0x742d2f7a, 0x0d1f0796, 0x76035e09,
    0x40f7702c, 0x6fa72ca5, 0xaaa84157, 0x58a0df74,
    0xc74a0364, 0xae533cc4, 0x04185faf, 0x6de3b115,
    0x0cab8628, 0xf043bfa4, 0x398150e9, 0x37521657]

/-- Nothing stores to `n`. -/
abbrev n : ℕ := 31

/-- The words that `x` points to, and the two indices. -/
structure State where
  x : Fin n → BitVec 32
  i : Fin n
  j : Fin n

/-- `x` is `init + 1`. -/
def State.init : State where
  x k := Prng.init.getD (k.val + 1) 0
  i := 3
  j := 0

def lcg31 (x : BitVec 32) : BitVec 32 := (1103515245 * x + 12345) &&& 0x7fffffff

/-- `if (++i == n) i = 0`. -/
def wrap (i : Fin n) : Fin n := if h : i.val + 1 = n then 0 else ⟨i.val + 1, by omega⟩

def random (s : State) : ℤ × State :=
  if n = 0 then
    let k := lcg31 (s.x 0)
    (k.toInt, { s with x := Function.update s.x 0 k })
  else
    let x := Function.update s.x s.i (s.x s.i + s.x s.j)
    ((x s.i >>> 1).toInt, ⟨x, wrap s.i, wrap s.j⟩)

def State.after (s : State) (m : ℕ) : State := (fun s ↦ (random s).2)^[m] s

def State.returns (s : State) (m : ℕ) : ℤ := (random (s.after m)).1

/-- The terms that a table gives: its words from the fourth one on, then the sum of two earlier
terms each. -/
def terms (x : Fin n → BitVec 32) (k : ℕ) : BitVec 32 :=
  if k < 31 then x (cell n (k + 3)) else terms x (k - 31) + terms x (k - 3)

/-- After `m` calls the table holds the last `n` terms. -/
structure Window (x : Fin n → BitVec 32) (m : ℕ) (s : State) : Prop where
  holds : Holds s.x (fun k ↦ terms x (k - 3)) (m + 3)
  i : s.i = cell n (m + 3)
  j : s.j = cell n m

section

variable {x : Fin n → BitVec 32} {m : ℕ} {s : State}

theorem wrap_eq (i : Fin n) : wrap i = next i := by
  have := i.isLt
  unfold wrap next
  split <;> split <;> first | rfl | omega

theorem random_eq (s : State) : random s = (((s.x s.i + s.x s.j) >>> 1).toInt,
    ⟨Function.update s.x s.i (s.x s.i + s.x s.j), next s.i, next s.j⟩) := by
  rw [random, if_neg (by decide : ¬ n = 0), wrap_eq, wrap_eq]
  simp only [Function.update_self]

theorem terms_first (h : m < 31) : terms x m = x (cell n (m + 3)) := by
  rw [terms, if_pos h]

theorem terms_add (x : Fin n → BitVec 32) (m : ℕ) :
    terms x (m + 31) = terms x m + terms x (m + 28) := by
  rw [terms, if_neg (by omega), Nat.add_sub_cancel]
  rfl

theorem Window.start (h : s.i = 3) (h' : s.j = 0) : Window s.x 0 s := by
  refine ⟨fun k hk hlt ↦ ?_, h, h'⟩
  have hn : n = 31 := rfl
  dsimp only
  rw [terms_first (by omega), Nat.sub_add_cancel hk]

theorem Window.words (h : Window x m s) :
    s.x s.i = terms x m ∧ s.x s.j = terms x (m + 28) := by
  have hn : n = 31 := rfl
  constructor
  · have hi := h.holds (m + 3) (by omega) (by omega)
    rw [← h.i] at hi
    simpa only [Nat.add_sub_cancel] using hi
  · have hj := h.holds (m + 31) (by omega) (by omega)
    rwa [show m + 31 = m + n from rfl, cell_add_size, ← h.j] at hj

theorem Window.random (h : Window x m s) :
    (Prng.random s).1 = (terms x (m + 31) >>> 1).toInt ∧
      Window x (m + 1) (Prng.random s).2 := by
  obtain ⟨hi, hj⟩ := h.words
  rw [random_eq, hi, hj, ← terms_add]
  refine ⟨rfl, ?_, ?_, ?_⟩
  · dsimp only
    rw [h.i]
    exact h.holds.push
  · dsimp only
    rw [h.i, next_cell]
  · dsimp only
    rw [h.j, next_cell]

theorem Window.after (h : Window x 0 s) (m : ℕ) : Window x m (s.after m) := by
  induction m with
  | zero => exact h
  | succ m ih =>
    rw [State.after, Function.iterate_succ_apply']
    exact ih.random.2

theorem shifted_toInt (w : BitVec 32) :
    0 ≤ (w >>> 1).toInt ∧ (w >>> 1).toInt < 2 ^ 31 := by
  have hlt := w.isLt
  have hval : (w >>> 1).toNat = w.toNat / 2 := by
    rw [BitVec.toNat_ushiftRight, Nat.shiftRight_eq_div_pow]
  rw [BitVec.toInt_eq_toNat_of_lt (by omega)]
  omega

/-- The numbers of `random` are the terms, without their lowest bits, of a sequence whose terms are
the sums of those 31 and 3 places before. -/
theorem random_lagged : ∃ s : ℕ → BitVec 32,
    (∀ k < 31, s k = State.init.x (cell n (k + 3))) ∧ (∀ k, s (k + 31) = s k + s (k + 28)) ∧
      ∀ m, State.init.returns m = (s (m + 31) >>> 1).toInt ∧ 0 ≤ State.init.returns m ∧
        State.init.returns m < 2 ^ 31 := by
  refine ⟨terms State.init.x, fun k hk ↦ terms_first hk, terms_add _, fun m ↦ ?_⟩
  have hm := ((Window.start (s := State.init) rfl rfl).after m).random.1
  rw [State.returns, hm]
  exact ⟨rfl, shifted_toInt _⟩

end

section Period

/-- No call loses a state, as long as the two indices differ. -/
theorem random_injective {s s' : State} (hs : s.i ≠ s.j) (hs' : s'.i ≠ s'.j)
    (h : (random s).2 = (random s').2) : s = s' := by
  rw [random_eq, random_eq] at h
  obtain ⟨x, i, j⟩ := s
  obtain ⟨x', i', j'⟩ := s'
  simp only [State.mk.injEq] at h
  obtain ⟨hx, hi, hj⟩ := h
  obtain rfl := next_injective hi
  obtain rfl := next_injective hj
  have hother : ∀ k, k ≠ i → x k = x' k := by
    intro k hk
    have := congrFun hx k
    rwa [Function.update_of_ne hk, Function.update_of_ne hk] at this
  have hself := congrFun hx i
  rw [Function.update_self, Function.update_self, hother j (Ne.symm hs)] at hself
  have hxi := add_right_cancel hself
  congr 1
  funext k
  by_cases hk : k = i
  · rw [hk, hxi]
  · exact hother k hk

def Apart : Type := { s : State // s.i ≠ s.j }

def Apart.step (s : Apart) : Apart :=
  ⟨(random s.1).2, by
    rw [random_eq]
    exact fun h ↦ s.2 (next_injective h)⟩

instance : Finite Apart := by
  have hword : Finite (BitVec 32) := .of_equiv _ (BitVec.equivFin (m := 32)).symm.toEquiv
  have hstate : Finite State := by
    refine .of_injective (fun s ↦ (s.x, s.i, s.j)) fun s s' h ↦ ?_
    obtain ⟨x, i, j⟩ := s
    obtain ⟨x', i', j'⟩ := s'
    simpa using h
  exact Subtype.finite

theorem Apart.step_injective : Function.Injective Apart.step := fun s s' h ↦
  Subtype.ext (random_injective s.2 s'.2 (congrArg Subtype.val h))

theorem Apart.after (s : Apart) (m : ℕ) : (Apart.step^[m] s).1 = s.1.after m := by
  induction m with
  | zero => rfl
  | succ m ih =>
    rw [State.after, Function.iterate_succ_apply', Function.iterate_succ_apply', ← State.after,
      ← ih]
    rfl

/-- From any state whose indices differ, so many calls lead back to it, and the numbers come
again. -/
theorem random_periodic (s : State) (h : s.i ≠ s.j) :
    ∃ p, 0 < p ∧ s.after p = s ∧ ∀ m, s.returns (m + p) = s.returns m := by
  obtain ⟨p, hp, hperiod⟩ := Apart.step_injective.mem_periodicPts ⟨s, h⟩
  have hback : s.after p = s := by
    rw [← Apart.after ⟨s, h⟩]
    exact congrArg Subtype.val hperiod
  refine ⟨p, hp, hback, fun m ↦ ?_⟩
  have hadd : s.after (m + p) = (s.after p).after m := Function.iterate_add_apply _ m p s
  rw [State.returns, State.returns, hadd, hback]

theorem random_periodic_init : State.init.i ≠ State.init.j ∧
    ∃ p, 0 < p ∧ State.init.after p = State.init ∧
      ∀ m, State.init.returns (m + p) = State.init.returns m :=
  ⟨by decide, random_periodic State.init (by decide)⟩

end Period

end SceLibcPosix.Prng
