/-
# Errors that do not occur

`Avoids e x` says that the computation `x` does not end in the error `e`.  It goes through `bind`,
so it is shown of a function from what it calls, whatever the arguments are.
-/
import Mathlib.Tactic.Common

variable {ε α β : Type} {e e' : ε}

/-- `x` does not end in `e`. -/
def Avoids (e : ε) (x : Except ε α) : Prop := x ≠ .error e

namespace Avoids

@[simp] theorem ok (a : α) : Avoids e (Except.ok a : Except ε α) := by simp [Avoids]

@[simp] theorem pure (a : α) : Avoids e (Pure.pure a : Except ε α) := ok a

@[simp] theorem error_iff : Avoids e (Except.error e' : Except ε α) ↔ e' ≠ e := by simp [Avoids]

@[simp] theorem throw_iff : Avoids e (throw e' : Except ε α) ↔ e' ≠ e := error_iff

/-- **A sequence of two parts** avoids what both avoid. -/
@[simp] theorem bind_iff {x : Except ε α} {f : α → Except ε β} :
    Avoids e (x >>= f) ↔ Avoids e x ∧ ∀ a, x = .ok a → Avoids e (f a) := by
  cases x with
  | error e' => simp [Avoids, bind, Except.bind]
  | ok a => simp [Avoids, bind, Except.bind]

@[simp] theorem ite_iff {c : Prop} [Decidable c] {x y : Except ε α} :
    Avoids e (if c then x else y) ↔ (c → Avoids e x) ∧ (¬ c → Avoids e y) := by
  split <;> simp_all

end Avoids
