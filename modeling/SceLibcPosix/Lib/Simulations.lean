import Mathlib.Logic.Basic

namespace SceLibcPosix.Simulations

variable {σ τ α : Type*} {step : σ → α → σ → Prop} {step' : τ → α → τ → Prop} {s s' : σ} {t : τ}
  {trace : List α}

/-- A run of labelled steps, with its labels, last label first. -/
inductive Run (step : σ → α → σ → Prop) (s : σ) : List α → σ → Prop
  | nil : Run step s [] s
  | step {trace : List α} {s' s'' : σ} {a : α} (h : Run step s trace s') (hs : step s' a s'') :
    Run step s (a :: trace) s''

end SceLibcPosix.Simulations
