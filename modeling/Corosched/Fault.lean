/-
# How the program can go wrong

Every function of the model returns `Except Fault`: either the result, or the reason the C
program has no further defined behaviour.  `ASSERT` is compiled in (`-DCS_ASSERT_PANIC`), so a
failed assertion is a fault like the others.
-/
import Mathlib.Tactic.Common

namespace Corosched

/-- Why a run of the C code stops being defined. -/
inductive Fault
  /-- a null pointer was dereferenced -/
  | nilDeref
  /-- freed or never allocated memory was accessed -/
  | dangling
  /-- an `ASSERT` failed -/
  | assertFail
  /-- `abort()` was called -/
  | abort
  /-- a thread entered the scheduler context of the other thread -/
  | foreign
  /-- a loop used up its budget of iterations -/
  | diverge
  deriving DecidableEq, Repr

/-- `ASSERT(_x)` under `CS_ASSERT_PANIC`. -/
def ASSERT (b : Bool) : Except Fault Unit :=
  if b then pure () else throw .assertFail

section Except

variable {α β : Type}

@[simp] theorem ok_bind (a : α) (f : α → Except Fault β) : (Except.ok a >>= f) = f a := rfl
@[simp] theorem error_bind (e : Fault) (f : α → Except Fault β) :
    ((Except.error e : Except Fault α) >>= f) = Except.error e := rfl
@[simp] theorem pure_eq_ok (a : α) : (pure a : Except Fault α) = Except.ok a := rfl
@[simp] theorem throw_eq_error (e : Fault) : (throw e : Except Fault α) = Except.error e := rfl

/-- A computation that succeeds is a first part that succeeds and a rest that does. -/
theorem bind_eq_ok {x : Except Fault α} {f : α → Except Fault β} {b : β} :
    (x >>= f) = Except.ok b ↔ ∃ a, x = Except.ok a ∧ f a = Except.ok b := by
  cases x with
  | error e => simp
  | ok a => simp

@[simp] theorem ASSERT_true : ASSERT true = Except.ok () := rfl
@[simp] theorem ASSERT_false : ASSERT false = Except.error .assertFail := rfl

theorem ASSERT_eq_ok {b : Bool} {u : Unit} : ASSERT b = Except.ok u ↔ b = true := by
  cases b <;> simp

end Except

end Corosched
