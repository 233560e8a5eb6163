/-
# Address spaces with several owners

An address space says of every page how it is mapped, if it is.  `Holding m rest R` reads the space
`m` as the pages `R i` of each owner `i`, and the space `rest` of everybody else: the owners are
apart from each other and from the rest, and together they are all there is.  A new mapping where
nothing was mapped gives an owner pages, and unmapping them takes nothing from anybody else.
-/
import Mathlib.Data.Set.Basic
import Mathlib.Logic.Function.Basic

namespace Space

variable {π κ ι : Type}

/-- How each page is mapped. -/
abbrev Map (π κ : Type) := π → Option κ

/-- `m'` is `m` but for the pages of `S`. -/
def Elsewhere (S : Set π) (m m' : Map π κ) : Prop := ∀ p, p ∉ S → m' p = m p

/-- **The space `m` is what each owner holds and the rest.** -/
structure Holding (m rest : Map π κ) (R : ι → Set π) : Prop where
  apart : ∀ i j p, p ∈ R i → p ∈ R j → i = j
  mapped : ∀ i p, p ∈ R i → (m p).isSome = true
  unknown : ∀ i p, p ∈ R i → rest p = none
  rest : ∀ p, (∀ i, p ∉ R i) → m p = rest p

variable {m m' rest : Map π κ} {R : ι → Set π} {S : Set π} {i : ι} {p : π} {x : Option κ}

/-- Nobody holds anything yet. -/
theorem Holding.start (m : Map π κ) : Holding m m fun _ : ι => ∅ :=
  ⟨fun _ _ _ h => h.elim, fun _ _ h => h.elim, fun _ _ h => h.elim, fun _ _ => rfl⟩

/-- When nobody holds anything any more, what is left is the rest. -/
theorem Holding.eq_rest (h : Holding m rest R) (hR : ∀ i, R i = ∅) : m = rest :=
  funext fun p => h.rest p fun i hp => by simp [hR i] at hp

/-- An unmapped page is nobody's. -/
theorem Holding.not_mem (h : Holding m rest R) (hp : m p = none) (i : ι) : p ∉ R i := by
  intro hmem
  have := h.mapped i p hmem
  rw [hp] at this
  exact absurd this (by simp)

section owners
variable [DecidableEq ι]

/-- **A new mapping**: the owner `i`, who held nothing, holds `S`, where nothing was mapped. -/
theorem Holding.take (h : Holding m rest R) (hi : R i = ∅) (hS : ∀ p ∈ S, m p = none)
    (hm : Elsewhere S m m') (hm' : ∀ p ∈ S, (m' p).isSome = true) :
    Holding m' rest (Function.update R i S) := by
  have hold : ∀ {j p}, j ≠ i → p ∈ R j → p ∉ S := fun hj hp hpS => h.not_mem (hS _ hpS) _ hp
  refine ⟨fun j k p hj hk => ?_, fun j p hj => ?_, fun j p hj => ?_, fun p hp => ?_⟩
  · by_cases hji : j = i <;> by_cases hki : k = i
    · rw [hji, hki]
    · subst hji
      rw [Function.update_self] at hj
      rw [Function.update_of_ne hki] at hk
      exact absurd hj (hold hki hk)
    · subst hki
      rw [Function.update_self] at hk
      rw [Function.update_of_ne hji] at hj
      exact absurd hk (hold hji hj)
    · rw [Function.update_of_ne hji] at hj
      rw [Function.update_of_ne hki] at hk
      exact h.apart j k p hj hk
  · by_cases hji : j = i
    · subst hji
      rw [Function.update_self] at hj
      exact hm' p hj
    · rw [Function.update_of_ne hji] at hj
      rw [hm p (hold hji hj)]
      exact h.mapped j p hj
  · by_cases hji : j = i
    · subst hji
      rw [Function.update_self] at hj
      rw [← h.rest p (h.not_mem (hS p hj))]
      exact hS p hj
    · rw [Function.update_of_ne hji] at hj
      exact h.unknown j p hj
  · have hpS : p ∉ S := by
      have := hp i
      rwa [Function.update_self] at this
    rw [hm p hpS]
    refine h.rest p fun j hj => ?_
    by_cases hji : j = i
    · rw [hji, hi] at hj
      exact hj
    · have := hp j
      rw [Function.update_of_ne hji] at this
      exact this hj

/-- **Unmapping**: what the owner `i` held is mapped no more. -/
theorem Holding.give (h : Holding m rest R) (hm : Elsewhere (R i) m m')
    (hm' : ∀ p ∈ R i, m' p = none) : Holding m' rest (Function.update R i ∅) := by
  have hold : ∀ {j p}, p ∈ Function.update R i ∅ j → p ∈ R j ∧ p ∉ R i := by
    intro j p hj
    by_cases hji : j = i
    · rw [hji, Function.update_self] at hj
      exact hj.elim
    · rw [Function.update_of_ne hji] at hj
      exact ⟨hj, fun hpi => hji (h.apart j i p hj hpi)⟩
  refine ⟨fun j k p hj hk => h.apart j k p (hold hj).1 (hold hk).1, fun j p hj => ?_,
    fun j p hj => h.unknown j p (hold hj).1, fun p hp => ?_⟩
  · rw [hm p (hold hj).2]
    exact h.mapped j p (hold hj).1
  · by_cases hpi : p ∈ R i
    · rw [hm' p hpi, h.unknown i p hpi]
    · rw [hm p hpi]
      refine h.rest p fun j hj => ?_
      by_cases hji : j = i
      · exact hpi (hji ▸ hj)
      · have := hp j
        rw [Function.update_of_ne hji] at this
        exact this hj

end owners

/-- Everybody else maps or unmaps a page that no owner holds. -/
theorem Holding.other [DecidableEq π] (h : Holding m rest R) (hp : ∀ i, p ∉ R i) :
    Holding (Function.update m p x) (Function.update rest p x) R := by
  have hne : ∀ {i q}, q ∈ R i → q ≠ p := fun hq he => hp _ (he ▸ hq)
  refine ⟨h.apart, fun i q hq => ?_, fun i q hq => ?_, fun q hq => ?_⟩
  · rw [Function.update_of_ne (hne hq)]
    exact h.mapped i q hq
  · rw [Function.update_of_ne (hne hq)]
    exact h.unknown i q hq
  · by_cases hqp : q = p
    · rw [hqp, Function.update_self, Function.update_self]
    · rw [Function.update_of_ne hqp, Function.update_of_ne hqp]
      exact h.rest q hq

end Space
