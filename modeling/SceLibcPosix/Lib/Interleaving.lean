import Mathlib.Logic.Function.Basic
import SceLibcPosix.Lib.Programs

namespace SceLibcPosix.Interleaving

open Programs Function

variable {Q : Type} {A : Q → Type} {S ι α : Type} [DecidableEq ι]

/-- Calls that run at the same time, and the state that they share. -/
structure Pool (Q : Type) (A : Q → Type) (S ι α : Type) where
  shared : S
  calls : ι → Program Q A α

/-- One call asks its next question, and gets one of the answers that the rules allow. -/
inductive Step (R : Rules Q A S) : Pool Q A S ι α → ι → Pool Q A S ι α → Prop
  | ask (w : Pool Q A S ι α) (i : ι) (q : Q) (next : A q → Program Q A α) (x : A q)
    (hi : w.calls i = .ask q next) (hx : R.can w.shared q x) :
    Step R w i ⟨R.next w.shared q x, update w.calls i (next x)⟩

/-- A step of a run. -/
structure Turn (Q : Type) (A : Q → Type) (S ι α : Type) where
  before : Pool Q A S ι α
  call : ι
  after : Pool Q A S ι α

/-- The steps of a run, last step first. -/
inductive Run (R : Rules Q A S) (w : Pool Q A S ι α) :
    List (Turn Q A S ι α) → Pool Q A S ι α → Prop
  | nil : Run R w [] w
  | step {turns : List (Turn Q A S ι α)} {w₁ w₂ : Pool Q A S ι α} {i : ι}
    (h : Run R w turns w₁) (hs : Step R w₁ i w₂) : Run R w (⟨w₁, i, w₂⟩ :: turns) w₂

variable {R : Rules Q A S} {w w' : Pool Q A S ι α} {turns : List (Turn Q A S ι α)} {i : ι}

theorem Step.obeys {post : α → S → Prop} (h : Step R w i w')
    (hi : (w.calls i).Obeys R w.shared post) : (w'.calls i).Obeys R w'.shared post := by
  cases h with
  | ask q next x hq hx =>
    have hcall : update w.calls i (next x) i = next x := update_self ..
    rw [hq] at hi
    dsimp only
    rw [hcall]
    exact hi.2 x hx

theorem Step.other (h : Step R w i w') {j : ι} (hj : j ≠ i) : w'.calls j = w.calls j := by
  cases h with
  | ask => exact update_of_ne hj _ _

theorem Run.ask (h : Run R w turns w') (i : ι) (q : Q) (x : A q) {next : A q → Program Q A α}
    (hi : w'.calls i = .ask q next) (hx : R.can w'.shared q x) :
    Run R w (⟨w', i, ⟨R.next w'.shared q x, update w'.calls i (next x)⟩⟩ :: turns)
      ⟨R.next w'.shared q x, update w'.calls i (next x)⟩ :=
  h.step (.ask w' i q next x hi hx)

theorem Run.turn (h : Run R w turns w') {e : Turn Q A S ι α} (he : e ∈ turns) :
    Step R e.before e.call e.after := by
  induction h with
  | nil => cases he
  | step _ hs ih =>
    rcases List.mem_cons.mp he with rfl | he
    · exact hs
    · exact ih he

/-- What each step keeps holds before each step and at the end. -/
theorem Run.invariant {P : Pool Q A S ι α → Prop}
    (hstep : ∀ w i w', P w → Step R w i w' → P w') (hw : P w) (h : Run R w turns w') :
    P w' ∧ ∀ e ∈ turns, P e.before := by
  induction h with
  | nil => exact ⟨hw, fun _ he ↦ (nomatch he)⟩
  | step _ hs ih =>
    refine ⟨hstep _ _ _ ih.1 hs, fun e he ↦ ?_⟩
    rcases List.mem_cons.mp he with rfl | he
    · exact ih.1
    · exact ih.2 e he

end SceLibcPosix.Interleaving
