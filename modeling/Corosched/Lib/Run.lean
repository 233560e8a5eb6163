/-
# Runs of a machine that can go wrong

A machine is a function from a state and an action to nothing (the action is not possible there),
to an error, or to the next state.  A run is a list of actions whose steps all succeed and all
meet a side condition `C`, which is how a program, an assumption on the environment or the
condition of a theorem restricts the runs it speaks about.

The machine is deterministic once the actions are given, so a run is determined by its actions
and a property of all states of a run is one of all prefixes of its actions.
-/
import Mathlib.Data.List.Infix
import Mathlib.Tactic.Common

/-- A machine with states `σ`, actions `α` and errors `ε`. -/
abbrev Machine (σ α ε : Type) := σ → α → Option (Except ε σ)

namespace Machine

variable {σ α ε : Type}

/-- `Run m C s as s'`: the actions `as` lead from `s` to `s'`, every step meeting `C`. -/
inductive Run (m : Machine σ α ε) (C : σ → α → Prop) (s : σ) : List α → σ → Prop
  | nil : Run m C s [] s
  | snoc {as : List α} {s₁ s₂ : σ} {a : α} (run : Run m C s as s₁) (cond : C s₁ a)
      (step : m s₁ a = some (.ok s₂)) : Run m C s (as ++ [a]) s₂

/-- No side condition. -/
def Any : σ → α → Prop := fun _ _ => True

variable {m : Machine σ α ε} {C C' : σ → α → Prop} {s s₁ s₂ : σ} {as bs : List α} {a : α}

theorem Run.single (cond : C s a) (step : m s a = some (.ok s₁)) : Run m C s [a] s₁ :=
  .snoc .nil cond step

theorem Run.append (h₁ : Run m C s as s₁) (h₂ : Run m C s₁ bs s₂) : Run m C s (as ++ bs) s₂ := by
  induction h₂ with
  | nil => rwa [List.append_nil]
  | snoc _ cond step ih =>
    rw [← List.append_assoc]
    exact ih.snoc cond step

/-- **The invariant rule**: what holds at the start and is kept by every step that meets the
condition holds at the end. -/
theorem Run.inv {I : σ → Prop} (h : Run m C s as s₁)
    (step : ∀ s a s', I s → C s a → m s a = some (.ok s') → I s') (hs : I s) : I s₁ := by
  induction h with
  | nil => exact hs
  | snoc _ cond hstep ih => exact step _ _ _ ih cond hstep

/-- The condition may be weakened, also to one that needs an invariant of the stronger runs. -/
theorem Run.mono {I : σ → Prop} (h : Run m C s as s₁)
    (step : ∀ s a s', I s → C s a → m s a = some (.ok s') → I s') (hs : I s)
    (hC : ∀ s a s', I s → C s a → m s a = some (.ok s') → C' s a) : Run m C' s as s₁ := by
  induction h with
  | nil => exact .nil
  | snoc run cond hstep ih => exact ih.snoc (hC _ _ _ (run.inv step hs) cond hstep) hstep

theorem Run.imp (h : Run m C s as s₁) (hC : ∀ s a, C s a → C' s a) : Run m C' s as s₁ :=
  h.mono (I := fun _ => True) (fun _ _ _ _ _ _ => trivial) trivial (fun s a _ _ h _ => hC s a h)

theorem Run.any (h : Run m C s as s₁) : Run m Any s as s₁ := h.imp fun _ _ _ => trivial

theorem Run.eq_of_nil (h : Run m C s [] s₁) : s₁ = s := by
  generalize he : ([] : List α) = as at h
  cases h with
  | nil => rfl
  | snoc _ _ _ => simp at he

theorem Run.snoc_inv (h : Run m C s (as ++ [a]) s₂) :
    ∃ s₁, Run m C s as s₁ ∧ C s₁ a ∧ m s₁ a = some (.ok s₂) := by
  generalize he : as ++ [a] = cs at h
  cases h with
  | nil => simp at he
  | snoc run cond step =>
    obtain ⟨rfl, ha⟩ := List.append_inj' he rfl
    injection ha with ha
    subst ha
    exact ⟨_, run, cond, step⟩

theorem Run.append_inv (h : Run m C s (as ++ bs) s₂) :
    ∃ s₁, Run m C s as s₁ ∧ Run m C s₁ bs s₂ := by
  induction bs using List.reverseRecOn generalizing s₂ with
  | nil => exact ⟨s₂, by rwa [List.append_nil] at h, .nil⟩
  | append_singleton bs b ih =>
    rw [← List.append_assoc] at h
    obtain ⟨s₃, h₃, cond, step⟩ := h.snoc_inv
    obtain ⟨s₁, h₁, h₂⟩ := ih h₃
    exact ⟨s₁, h₁, h₂.snoc cond step⟩

theorem Run.cons_inv (h : Run m C s (a :: bs) s₂) :
    ∃ s₁, Run m C s [a] s₁ ∧ Run m C s₁ bs s₂ := by
  rw [← List.singleton_append] at h
  exact h.append_inv

/-- **A run is determined by its actions.** -/
theorem Run.det (h₁ : Run m C s as s₁) (h₂ : Run m C' s as s₂) : s₁ = s₂ := by
  induction h₁ generalizing s₂ with
  | nil => exact h₂.eq_of_nil.symm
  | snoc _ _ step ih =>
    obtain ⟨s₃, h₃, -, step'⟩ := h₂.snoc_inv
    rw [ih h₃, step'] at step
    simpa using step.symm

instance (s : σ) (a : α) : Decidable (Any s a) := isTrue trivial

/-- The machine run on a list of actions, as long as they meet the condition. -/
def exec (m : Machine σ α ε) (C : σ → α → Prop) [∀ s a, Decidable (C s a)] (s : σ) :
    List α → Option (Except ε σ)
  | [] => some (.ok s)
  | a :: as =>
    if C s a then
      match m s a with
      | some (.ok s') => exec m C s' as
      | x => x
    else none

/-- A list of actions that runs to its end is a run. -/
theorem Run.of_exec [∀ s a, Decidable (C s a)] (h : exec m C s as = some (.ok s₁)) :
    Run m C s as s₁ := by
  induction as generalizing s with
  | nil =>
    simp only [exec, Option.some.injEq, Except.ok.injEq] at h
    exact h ▸ .nil
  | cons a as ih =>
    rw [exec] at h
    split at h
    · rename_i hC
      split at h
      · rename_i s' hs'
        exact (Run.single hC hs').append (ih h)
      · rename_i hne
        exact absurd h (hne s₁)
    · exact absurd h (by simp)

/-- `P` holds in every state of the run with actions `as` from `s`. -/
def Throughout (m : Machine σ α ε) (P : σ → Prop) (s : σ) (as : List α) : Prop :=
  ∀ bs s', bs <+: as → Run m Any s bs s' → P s'

/-- Every step of the run with actions `as` from `s` meets `C`. -/
def Meets (m : Machine σ α ε) (C : σ → α → Prop) (s : σ) (as : List α) : Prop :=
  ∀ bs a s', bs ++ [a] <+: as → Run m Any s bs s' → C s' a

theorem Throughout.end (h : Throughout m P s as) (run : Run m C s as s₁) : P s₁ :=
  h as s₁ (List.prefix_refl as) run.any

/-- A run whose steps all meet the condition is a run under the condition, and so are its
prefixes. -/
theorem Meets.run (h : Meets m C s as) (hp : bs <+: as) (run : Run m Any s bs s₁) :
    Run m C s bs s₁ := by
  induction run with
  | nil => exact .nil
  | snoc run _ step ih =>
    exact (ih ((List.prefix_append _ _).trans hp)).snoc (h _ _ _ hp run) step

/-- Every step of a run under a condition meets it. -/
theorem Run.meets (run : Run m C s as s₁) : Meets m C s as := by
  rintro bs a s' ⟨cs, hcs⟩ hbs
  rw [← hcs] at run
  obtain ⟨s₂, run₂, -⟩ := run.append_inv
  obtain ⟨s₃, run₃, cond, -⟩ := run₂.snoc_inv
  rwa [← run₃.det hbs]

/-- **The invariant rule for all states of a run.** -/
theorem Meets.throughout {I P : σ → Prop} (h : Meets m C s as)
    (step : ∀ s a s', I s → C s a → m s a = some (.ok s') → I s') (hs : I s) (hP : ∀ s, I s → P s) :
    Throughout m P s as :=
  fun _ s' hp run => hP s' ((h.run hp run).inv step hs)

/-- An invariant that each step keeps as long as the property holds after it. -/
theorem Throughout.inv {I P : σ → Prop} (hP : Throughout m P s as) (hC : Meets m C s as)
    (step : ∀ s a s', I s → C s a → m s a = some (.ok s') → P s' → I s') (hs : I s) :
    Throughout m I s as := by
  intro bs s' hp run
  induction run with
  | nil => exact hs
  | snoc run _ hstep ih =>
    have hp' := (List.prefix_append _ _).trans hp
    exact step _ _ _ (ih hp') (hC _ _ _ hp run) hstep (hP _ _ hp (run.snoc trivial hstep))

end Machine
