import Mathlib.Control.Monad.Writer

namespace SceLibcPosix.Logs

/-- A computation that records what it does. -/
abbrev Logged (E : Type) := Writer (List E)

namespace Logged

variable {E α β : Type} {P : E → Prop} {x : Logged E α} {f : α → Logged E β}

def value (x : Logged E α) : α := x.run.run.1

def log (x : Logged E α) : List E := x.run.run.2

/-- Everything that the computation records has the property. -/
def All (P : E → Prop) (x : Logged E α) : Prop := ∀ e ∈ x.log, P e

@[simp] theorem value_pure (a : α) : (pure a : Logged E α).value = a := rfl

@[simp] theorem value_bind : (x >>= f).value = (f x.value).value := rfl

@[simp] theorem value_ite {c : Prop} [Decidable c] {y : Logged E α} :
    (if c then x else y).value = if c then x.value else y.value := apply_ite value c x y

@[simp] theorem log_bind : (x >>= f).log = x.log ++ (f x.value).log := rfl

@[simp] theorem value_tell (es : List E) : (tell es : Logged E Unit).value = () := rfl

theorem all_pure (a : α) : (pure a : Logged E α).All P := by
  intro e he
  cases he

theorem all_tell {es : List E} : (tell es : Logged E Unit).All P ↔ ∀ e ∈ es, P e := Iff.rfl

theorem all_bind : (x >>= f).All P ↔ x.All P ∧ (f x.value).All P := by
  unfold All
  rw [log_bind]
  exact List.forall_mem_append

end Logged

end SceLibcPosix.Logs
