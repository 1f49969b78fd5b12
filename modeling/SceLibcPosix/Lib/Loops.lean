import Mathlib.Data.Nat.Basic
import Mathlib.Logic.Relation

namespace SceLibcPosix.Loops

/-- One turn of a loop: it goes on, or it has come to its end. -/
inductive Turn (σ : Type*)
  | next (a : σ)
  | stop (a : σ)

variable {σ α β : Type*} {turn fast : σ → Turn σ} {P : σ → Prop} {a b c : σ} {n : ℕ}

/-- A loop, if it ends within so many turns. -/
def run (turn : σ → Turn σ) : ℕ → σ → Option σ
  | 0, _ => none
  | n + 1, a =>
    match turn a with
    | .next b => run turn n b
    | .stop b => some b

/-- The loop ends, after `n` turns that go on. -/
inductive Ends (turn : σ → Turn σ) : ℕ → σ → σ → Prop
  | stop {a b : σ} (h : turn a = .stop b) : Ends turn 0 a b
  | next {a b c : σ} {n : ℕ} (h : turn a = .next b) (h' : Ends turn n b c) :
    Ends turn (n + 1) a c

/-- Turns of the loop, one or more, lead from `a` to `b`. -/
def Leads (turn : σ → Turn σ) : σ → σ → Prop := Relation.TransGen fun a b ↦ turn a = .next b

/-- A function of the turns that its loops may take returns `r`, if only there are enough. -/
def Returns (f : ℕ → Option α) (r : α) : Prop := ∃ N, ∀ n, N ≤ n → f n = some r

theorem Ends.run_eq (h : Ends turn n a b) {k : ℕ} (hk : n < k) : run turn k a = some b := by
  induction h generalizing k with
  | stop h =>
    obtain ⟨k, rfl⟩ := Nat.exists_eq_add_of_lt hk
    rw [run, h]
  | next h _ ih =>
    obtain ⟨k, rfl⟩ : ∃ j, k = j + 1 := ⟨k - 1, by omega⟩
    rw [run, h]
    exact ih (by omega)

theorem exists_ends_of_run (h : run turn n a = some b) : ∃ k, Ends turn k a b := by
  induction n generalizing a with
  | zero => cases h
  | succ n ih =>
    rw [run] at h
    cases hturn : turn a with
    | stop c =>
      rw [hturn] at h
      cases h
      exact ⟨0, .stop hturn⟩
    | next c =>
      rw [hturn] at h
      obtain ⟨k, hk⟩ := ih h
      exact ⟨k + 1, .next hturn hk⟩

theorem Ends.returns (h : Ends turn n a b) : Returns (run turn · a) b :=
  ⟨n + 1, fun _ hk ↦ h.run_eq hk⟩

theorem returns_of_run (h : run turn n a = some b) : Returns (run turn · a) b := by
  obtain ⟨k, hk⟩ := exists_ends_of_run h
  exact hk.returns

theorem Returns.unique {f : ℕ → Option α} {x y : α} (hx : Returns f x) (hy : Returns f y) :
    x = y := by
  obtain ⟨N, hN⟩ := hx
  obtain ⟨M, hM⟩ := hy
  have h := hN (max N M) (by omega)
  rw [hM _ (by omega)] at h
  exact (Option.some.inj h).symm

theorem Returns.pure (r : α) : Returns (fun _ ↦ some r) r := ⟨0, fun _ _ ↦ rfl⟩

theorem Returns.bind {f : ℕ → Option α} {g : α → ℕ → Option β} {x : α} {y : β}
    (hf : Returns f x) (hg : Returns (g x) y) : Returns (fun n ↦ (f n).bind (g · n)) y := by
  obtain ⟨N, hN⟩ := hf
  obtain ⟨M, hM⟩ := hg
  refine ⟨max N M, fun n hn ↦ ?_⟩
  dsimp only
  rw [hN n (by omega), Option.bind_some, hM n (by omega)]

theorem Returns.map {f : ℕ → Option α} {x : α} (g : α → β) (hf : Returns f x) :
    Returns (fun n ↦ (f n).map g) (g x) := by
  obtain ⟨N, hN⟩ := hf
  refine ⟨N, fun n hn ↦ ?_⟩
  dsimp only
  rw [hN n hn, Option.map_some]

theorem Returns.ite {p : Prop} [Decidable p] {f g : ℕ → Option α} {x : α}
    (hf : p → Returns f x) (hg : ¬ p → Returns g x) :
    Returns (fun n ↦ if p then f n else g n) x := by
  by_cases hp : p
  · simpa only [if_pos hp] using hf hp
  · simpa only [if_neg hp] using hg hp

/-- A loop ends if its turns keep an invariant and take something that gets smaller. -/
theorem exists_ends {μ : σ → ℕ} (h : ∀ a b, P a → turn a = .next b → P b ∧ μ b < μ a)
    (ha : P a) : ∃ n b, Ends turn n a b := by
  induction hn : μ a using Nat.strong_induction_on generalizing a with
  | h m ih =>
    cases hturn : turn a with
    | stop b => exact ⟨0, b, .stop hturn⟩
    | next b =>
      obtain ⟨hb, hlt⟩ := h a b ha hturn
      obtain ⟨n, c, hc⟩ := ih _ (hn ▸ hlt) hb rfl
      exact ⟨n + 1, c, .next hturn hc⟩

/-- What the turns that go on keep, the last one turns into the postcondition. -/
theorem Ends.invariant {Q : σ → Prop} (h : Ends turn n a b) (ha : P a)
    (hnext : ∀ a b, P a → turn a = .next b → P b) (hstop : ∀ a b, P a → turn a = .stop b → Q b) :
    Q b := by
  induction h with
  | stop h => exact hstop _ _ ha h
  | next h _ ih => exact ih (hnext _ _ ha h)

theorem Ends.of_leads (hlead : Leads turn a b) (h : Ends turn n a c) :
    ∃ m < n, Ends turn m b c := by
  induction hlead using Relation.TransGen.head_induction_on generalizing n with
  | single hab =>
    cases h with
    | stop h => rw [h] at hab; cases hab
    | next h h' =>
      rw [h] at hab
      cases hab
      exact ⟨_, Nat.lt_succ_self _, h'⟩
  | head hab _ ih =>
    cases h with
    | stop h => rw [h] at hab; cases hab
    | next h h' =>
      rw [h] at hab
      cases hab
      obtain ⟨m, hm, hend⟩ := ih h'
      exact ⟨m, by omega, hend⟩

theorem Ends.of_stop (hstop : turn a = .stop b) (h : Ends turn n a c) : c = b := by
  cases h with
  | stop h =>
    rw [h] at hstop
    cases hstop
    rfl
  | next h _ =>
    rw [h] at hstop
    cases hstop

/-- A loop that takes one or more turns of another at a time ends where that one does, and leaves
it with the same end. -/
theorem Ends.absorb {Q : σ → Prop} (h : Ends turn n a c) (ha : P a)
    (hnext : ∀ a b, P a → fast a = .next b → P b ∧ Leads turn a b)
    (hstop : ∀ a b n, P a → fast a = .stop b → Ends turn n a c → Q b ∧ ∃ m, Ends turn m b c) :
    ∃ k b m, Ends fast k a b ∧ Ends turn m b c ∧ Q b := by
  induction n using Nat.strong_induction_on generalizing a with
  | h n ih =>
    cases hfast : fast a with
    | stop b =>
      obtain ⟨hQ, m, hm⟩ := hstop a b n ha hfast h
      exact ⟨0, b, m, .stop hfast, hm, hQ⟩
    | next b =>
      obtain ⟨hb, hlead⟩ := hnext a b ha hfast
      obtain ⟨m, hlt, hm⟩ := h.of_leads hlead
      obtain ⟨k, d, m', hk, hd, hQ⟩ := ih m hlt hm hb
      exact ⟨k + 1, d, m', .next hfast hk, hd, hQ⟩

end SceLibcPosix.Loops
