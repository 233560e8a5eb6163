/-
# Objects and their specifications

An object takes calls one after another, changes its state and answers.  The specification is a
total function on abstract states; the implementation may go wrong.  Calls are made where they are
legal, which the abstract state decides.  If every legal call keeps a relation between the two
states and is answered alike, then so does every list of calls, and the implementation does not go
wrong on it.
-/
import Mathlib.Tactic.Common

namespace Object

variable {σ δ ι ω ε : Type}

/-- The answers of an implementation to a list of calls. -/
def calls (impl : σ → ι → Except ε (σ × ω)) : σ → List ι → Except ε (σ × List ω)
  | s, [] => pure (s, [])
  | s, i :: is => do
    let (s, a) ← impl s i
    let (s, as) ← calls impl s is
    pure (s, a :: as)

/-- The answers of a specification to a list of calls. -/
def answers (spec : δ → ι → δ × ω) : δ → List ι → δ × List ω
  | d, [] => (d, [])
  | d, i :: is =>
    let (d, a) := spec d i
    let (d, as) := answers spec d is
    (d, a :: as)

/-- Every call of the list is legal where it is made. -/
def Legal (spec : δ → ι → δ × ω) (legal : δ → ι → Prop) : δ → List ι → Prop
  | _, [] => True
  | d, i :: is => legal d i ∧ Legal spec legal (spec d i).1 is

/-- What comes first in a legal list is legal. -/
theorem Legal.of_append {spec : δ → ι → δ × ω} {legal : δ → ι → Prop} {d : δ} {is js : List ι}
    (h : Legal spec legal d (is ++ js)) : Legal spec legal d is := by
  induction is generalizing d with
  | nil => trivial
  | cons i is ih => exact ⟨h.1, ih h.2⟩

/-- **The simulation rule.** -/
theorem refines {impl : σ → ι → Except ε (σ × ω)} {spec : δ → ι → δ × ω} {legal : δ → ι → Prop}
    {R : σ → δ → Prop}
    (step : ∀ s d i, R s d → legal d i →
      ∃ s', impl s i = .ok (s', (spec d i).2) ∧ R s' (spec d i).1)
    {s : σ} {d : δ} {is : List ι} (hR : R s d) (hl : Legal spec legal d is) :
    ∃ s', calls impl s is = .ok (s', (answers spec d is).2) ∧ R s' (answers spec d is).1 := by
  induction is generalizing s d with
  | nil => exact ⟨s, rfl, hR⟩
  | cons i is ih =>
    obtain ⟨s₁, hcode, hR₁⟩ := step s d i hR hl.1
    obtain ⟨s₂, hcodes, hR₂⟩ := ih hR₁ hl.2
    refine ⟨s₂, ?_, hR₂⟩
    simp only [calls, hcode, hcodes, answers, bind, Except.bind, pure, Except.pure]

end Object
