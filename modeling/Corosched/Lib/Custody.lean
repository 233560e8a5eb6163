/-
# Items at home and away

Items are created and finished; in between they are worked on at home, one at a time, and wait in
the queue at home for their next turn.  Some leave home by the outbox, some are created away.  When
the queue at home is empty, home closes.

`Step leaves` is one step of such a system, and `leaves` says whether an item goes away in it.
As long as none does, every item that is not finished is at home (`Step.homed`), so that home closes
with all items finished (`Homed.finished`).  An item that has gone away is never finished
(`Step.stray`).
-/
import Mathlib.Logic.Function.Basic
import Mathlib.Tactic.Common

namespace Custody

variable {α : Type} [DecidableEq α]

/-- Where the items are.  What is in no place was lost on the way. -/
structure Places (α : Type) where
  /-- created and not finished -/
  alive : α → Bool
  /-- the queue at home, and the item that is worked on -/
  home : List α
  hand : Option α
  /-- the item that is about to leave -/
  outbox : Option α
  /-- the queue away from home, and the item that is worked on there -/
  away : List α
  guest : Option α
  /-- home was told to close, and has closed -/
  stopped : Bool
  closed : Bool

/-- **One step.** -/
inductive Step (p : Places α) : Bool → Places α → Prop
  | idle : Step p false p
  | stop : Step p false { p with stopped := true }
  | create {a : α} (hopen : p.closed = false ∨ p.guest ≠ none) (ha : p.alive a = false) :
      Step p false { p with alive := Function.update p.alive a true, home := p.home ++ [a] }
  | createAway {a : α} (hout : a ∉ p.home ∧ p.hand ≠ some a) :
      Step p true { p with alive := Function.update p.alive a true, away := p.away ++ [a] }
  | take {x : α} {l : List α} (hopen : p.closed = false) (hidle : p.hand = none)
      (hq : p.home = x :: l) :
      Step p false { p with home := l, hand := some x }
  | takeOut {x : α} {l : List α} (hidle : p.hand = none) (hq : p.home = x :: l) (hx : x ∉ l)
      (ha : p.alive x = true) : Step p true { p with home := l, outbox := some x }
  | put {x : α} (hx : p.hand = some x) : Step p false { p with home := p.home ++ [x], hand := none }
  | swap {x y : α} {l : List α} (hx : p.hand = some x) (hq : p.home = y :: l) :
      Step p false { p with home := l ++ [x], hand := some y }
  | finish {x : α} (hx : p.hand = some x) :
      Step p false { p with alive := Function.update p.alive x false, hand := none }
  | send {x : α} (hx : p.outbox = some x) :
      Step p false { p with away := x :: p.away, outbox := none }
  | drop {x : α} (hx : p.outbox = some x) : Step p false { p with outbox := none }
  | takeAway {x : α} {l : List α} (hq : p.away = x :: l) :
      Step p false { p with away := l, guest := some x }
  | dropAway : Step p false { p with guest := none }
  | close (hidle : p.hand = none) (h : p.stopped = true ∨ p.home = []) :
      Step p false { p with closed := true }

variable {p p' : Places α} {a : α} {leaves : Bool}

theorem Step.of_eq {p'' : Places α} (h : Step p leaves p') (he : p'' = p') : Step p leaves p'' :=
  he ▸ h

/-! ## 1. As long as none leaves -/

/-- **Every item that is not finished is at home.** -/
structure Homed (p : Places α) : Prop where
  placed : ∀ a, p.alive a = true → a ∈ p.home ∨ p.hand = some a
  outbox : p.outbox = none
  away : p.away = [] ∧ p.guest = none
  closed : p.closed = true → p.hand = none ∧ (p.stopped = true ∨ p.home = [])

/-- **A step in which none leaves keeps it.** -/
theorem Step.homed (h : Step p false p') (hp : Homed p) : Homed p' := by
  obtain ⟨hplaced, hout, ⟨haway, hguest⟩, hclosed⟩ := hp
  cases h with
  | idle => exact ⟨hplaced, hout, ⟨haway, hguest⟩, hclosed⟩
  | stop => exact ⟨hplaced, hout, ⟨haway, hguest⟩, fun h => ⟨(hclosed h).1, Or.inl rfl⟩⟩
  | @create b hopen hb =>
    refine ⟨fun c hc => ?_, hout, ⟨haway, hguest⟩, fun h => ?_⟩
    · rcases eq_or_ne c b with rfl | hcb
      · exact Or.inl (by simp)
      · simp only [Function.update_of_ne hcb] at hc
        exact (hplaced c hc).imp_left (List.mem_append_left _)
    · simp only at h
      rcases hopen with hopen | hopen
      · rw [h] at hopen
        exact absurd hopen (by simp)
      · exact absurd hguest hopen
  | @take x l hopen hidle hq =>
    refine ⟨fun c hc => ?_, hout, ⟨haway, hguest⟩, fun h => absurd h (by simp [hopen])⟩
    rcases hplaced c hc with hc | hc
    · rw [hq, List.mem_cons] at hc
      rcases hc with rfl | hc
      · exact Or.inr rfl
      · exact Or.inl hc
    · exact absurd hc (by simp [hidle])
  | @put x hx =>
    refine ⟨fun c hc => Or.inl ?_, hout, ⟨haway, hguest⟩, fun h => ?_⟩
    · rcases hplaced c hc with hc | hc
      · exact List.mem_append_left _ hc
      · obtain rfl := Option.some.inj (hx.symm.trans hc)
        simp
    · exact absurd hx (by simp [(hclosed h).1])
  | @swap x y l hx hq =>
    refine ⟨fun c hc => ?_, hout, ⟨haway, hguest⟩, fun h => ?_⟩
    · rcases hplaced c hc with hc | hc
      · rw [hq, List.mem_cons] at hc
        rcases hc with rfl | hc
        · exact Or.inr rfl
        · exact Or.inl (List.mem_append_left _ hc)
      · obtain rfl := Option.some.inj (hx.symm.trans hc)
        exact Or.inl (by simp)
    · exact absurd hx (by simp [(hclosed h).1])
  | @finish x hx =>
    refine ⟨fun c hc => ?_, hout, ⟨haway, hguest⟩, fun h => ?_⟩
    · rcases eq_or_ne c x with rfl | hcx
      · simp at hc
      · simp only [Function.update_of_ne hcx] at hc
        rcases hplaced c hc with hc | hc
        · exact Or.inl hc
        · exact absurd (Option.some.inj (hx.symm.trans hc)).symm hcx
    · exact absurd hx (by simp [(hclosed h).1])
  | send hx | drop hx => exact absurd hx (by simp [hout])
  | takeAway hq => exact absurd hq (by simp [haway])
  | dropAway => exact ⟨hplaced, hout, ⟨haway, rfl⟩, hclosed⟩
  | close hidle h => exact ⟨hplaced, hout, ⟨haway, hguest⟩, fun _ => ⟨hidle, h⟩⟩

omit [DecidableEq α] in
/-- **Home closes with all items finished**, unless it was told to. -/
theorem Homed.finished (hp : Homed p) (hclosed : p.closed = true) (hstop : p.stopped = false)
    (a : α) :
    p.alive a = false := by
  obtain ⟨hidle, h⟩ := hp.closed hclosed
  rcases h with h | hnil
  · exact absurd h (by simp [hstop])
  · rw [Bool.eq_false_iff]
    intro ha
    rcases hp.placed a ha with ha | ha
    · simp [hnil] at ha
    · simp [hidle] at ha

/-! ## 2. When one has left -/

/-- `a` is not finished and not at home. -/
structure Stray (p : Places α) (a : α) : Prop where
  alive : p.alive a = true
  home : a ∉ p.home
  hand : p.hand ≠ some a

/-- **An item that has gone away** is never finished and never comes home. -/
theorem Step.stray (h : Step p leaves p') (hp : Stray p a) : Stray p' a := by
  obtain ⟨halive, hhome, hhand⟩ := hp
  cases h with
  | idle | stop | send | drop | takeAway | dropAway | close => exact ⟨halive, hhome, hhand⟩
  | @create b _ hb =>
    have hab : a ≠ b := by
      rintro rfl
      exact absurd halive (by simp [hb])
    exact ⟨(Function.update_of_ne hab _ _).trans halive, by simp [hhome, hab], hhand⟩
  | @createAway b hout =>
    refine ⟨?_, hhome, hhand⟩
    rcases eq_or_ne a b with rfl | hab
    · exact Function.update_self _ _ _
    · exact (Function.update_of_ne hab _ _).trans halive
  | @take x l _ _ hq =>
    rw [hq, List.mem_cons, not_or] at hhome
    exact ⟨halive, hhome.2, by simpa [eq_comm] using hhome.1⟩
  | @takeOut x l _ hq _ _ =>
    rw [hq, List.mem_cons, not_or] at hhome
    exact ⟨halive, hhome.2, hhand⟩
  | @put x hx =>
    have hax : a ≠ x := by
      rintro rfl
      exact hhand hx
    exact ⟨halive, by simp [hhome, hax], by simp⟩
  | @swap x y l hx hq =>
    have hax : a ≠ x := by
      rintro rfl
      exact hhand hx
    rw [hq, List.mem_cons, not_or] at hhome
    exact ⟨halive, by simp [hhome.2, hax], by simpa [eq_comm] using hhome.1⟩
  | @finish x hx =>
    have hax : a ≠ x := by
      rintro rfl
      exact hhand hx
    exact ⟨(Function.update_of_ne hax _ _).trans halive, hhome, by simp⟩

/-- **A step in which an item leaves** makes a stray of it. -/
theorem Step.strays (h : Step p true p') : ∃ a, Stray p' a := by
  cases h with
  | @createAway a hout => exact ⟨a, Function.update_self _ _ _, hout.1, hout.2⟩
  | @takeOut x l hidle hq hx ha => exact ⟨x, ha, hx, by simp [hidle]⟩

end Custody
