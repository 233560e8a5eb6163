/-
# Queues ordered by a key

Entries come with a key and leave in whatever order the user chooses.  The queue keeps them by key,
and entries of one key in the order they came.  `Log evs l` says that the events `evs` leave the
entries `l`; an entry comes only while it is out.

The order of arrival is counted by `stamp`, and `Log.ordered` says that a log is ordered by key and,
where the keys are equal, by arrival.  In particular the head is the entry that came first among
those with the least key.
-/
import Mathlib.Data.List.Induction
import Mathlib.Data.List.Sort
import Mathlib.Order.Basic

namespace Prio

/-- One event. -/
inductive Ev (α κ : Type)
  /-- `a` comes with the key `k` -/
  | put (a : α) (k : κ)
  /-- `a` leaves -/
  | drop (a : α)

variable {α κ : Type} [DecidableEq α]

/-! ## 1. The order of arrival -/

/-- One event more, and when each entry came last. -/
def tick (x : Nat × (α → Nat)) : Ev α κ → Nat × (α → Nat)
  | .put a _ => (x.1 + 1, Function.update x.2 a (x.1 + 1))
  | .drop _ => (x.1 + 1, x.2)

/-- When each entry came last: the number of the event, counted from `1`. -/
def stamp (evs : List (Ev α κ)) : α → Nat := (evs.foldl tick (0, fun _ => 0)).2

theorem ticks (evs : List (Ev α κ)) (x : Nat × (α → Nat)) :
    (evs.foldl tick x).1 = x.1 + evs.length := by
  induction evs generalizing x with
  | nil => rfl
  | cons e evs ih =>
    rw [List.foldl_cons, ih, List.length_cons]
    cases e with
    | put a k =>
      simp only [tick]
      omega
    | drop a =>
      simp only [tick]
      omega

theorem stamp_put (evs : List (Ev α κ)) (a : α) (k : κ) :
    stamp (evs ++ [.put a k]) = Function.update (stamp evs) a (evs.length + 1) := by
  have hcount := ticks evs (0, fun _ => 0)
  rw [Nat.zero_add] at hcount
  simp only [stamp, List.foldl_append, List.foldl_cons, List.foldl_nil, tick, hcount]

theorem stamp_drop (evs : List (Ev α κ)) (a : α) : stamp (evs ++ [.drop a]) = stamp evs := by
  simp only [stamp, List.foldl_append, List.foldl_cons, List.foldl_nil, tick]

theorem stamp_le (evs : List (Ev α κ)) (a : α) : stamp evs a ≤ evs.length := by
  induction evs using List.reverseRecOn with
  | nil => simp [stamp]
  | append_singleton evs e ih =>
    rw [List.length_append, List.length_singleton]
    cases e with
    | put b k =>
      rw [stamp_put]
      by_cases hb : a = b
      · subst hb
        rw [Function.update_self]
      · rw [Function.update_of_ne hb]
        omega
    | drop b =>
      rw [stamp_drop]
      omega

/-! ## 2. The queue -/

section Queue

variable [LinearOrder κ] {evs : List (Ev α κ)} {l : List (α × κ)}

/-- `a` comes: in front of the first larger key. -/
def put (l : List (α × κ)) (a : α) (k : κ) : List (α × κ) :=
  l.orderedInsert (fun x y => x.2 < y.2) (a, k)

/-- `a` leaves. -/
def drop (l : List (α × κ)) (a : α) : List (α × κ) := l.filter fun e => e.1 ≠ a

/-- The queue after a list of events. -/
inductive Log : List (Ev α κ) → List (α × κ) → Prop
  | nil : Log [] []
  | put {evs : List (Ev α κ)} {l : List (α × κ)} {a : α} {k : κ} (log : Log evs l)
      (out : ∀ e ∈ l, e.1 ≠ a) : Log (evs ++ [.put a k]) (put l a k)
  | drop {evs : List (Ev α κ)} {l : List (α × κ)} {a : α} (log : Log evs l) :
      Log (evs ++ [.drop a]) (drop l a)

/-- `x` comes before `y`: its key is smaller, or equal and `x` came earlier. -/
def Before (evs : List (Ev α κ)) (x y : α × κ) : Prop :=
  x.2 < y.2 ∨ x.2 = y.2 ∧ stamp evs x.1 < stamp evs y.1

omit [DecidableEq α] in
theorem mem_put {l : List (α × κ)} {a b : α} {k : κ} :
    b ∈ (put l a k).map Prod.fst ↔ b = a ∨ b ∈ l.map Prod.fst := by
  have hperm : ((put l a k).map Prod.fst).Perm (a :: l.map Prod.fst) :=
    (List.perm_orderedInsert _ (a, k) l).map Prod.fst
  rw [hperm.mem_iff, List.mem_cons]

omit [LinearOrder κ] in
theorem mem_drop {l : List (α × κ)} {a b : α} :
    b ∈ (drop l a).map Prod.fst ↔ b ≠ a ∧ b ∈ l.map Prod.fst := by
  simp only [drop, List.mem_map, List.mem_filter, decide_eq_true_eq]
  constructor
  · rintro ⟨e, ⟨he, hne⟩, rfl⟩
    exact ⟨hne, e, he, rfl⟩
  · rintro ⟨hne, e, he, rfl⟩
    exact ⟨e, ⟨he, hne⟩, rfl⟩

omit [DecidableEq α] in
/-- **Where `put` puts**: after all keys that are not larger. -/
theorem put_eq {A B : List (α × κ)} {a : α} {k : κ} (hA : ∀ e ∈ A, e.2 ≤ k)
    (hB : ∀ e ∈ B, k < e.2) : put (A ++ B) a k = A ++ (a, k) :: B := by
  induction A with
  | nil =>
    cases B with
    | nil => rfl
    | cons b B =>
      have hb : k < b.2 := hB b List.mem_cons_self
      exact List.orderedInsert_cons_of_le _ B hb
  | cons b A ih =>
    have hb : ¬ k < b.2 := not_lt.mpr (hA b List.mem_cons_self)
    have ih' := ih fun e he => hA e (List.mem_cons_of_mem b he)
    simp only [put, List.cons_append] at ih' ⊢
    rw [List.orderedInsert_of_not_le (fun x y : α × κ => x.2 < y.2) _ hb, ih']

omit [DecidableEq α] in
/-- A list ordered by key falls apart at every key. -/
theorem exists_split {l : List (α × κ)} (h : l.Pairwise fun x y => x.2 ≤ y.2) (k : κ) :
    ∃ A B, l = A ++ B ∧ (∀ e ∈ A, e.2 ≤ k) ∧ ∀ e ∈ B, k < e.2 := by
  induction l with
  | nil => exact ⟨[], [], rfl, by simp, by simp⟩
  | cons x l ih =>
    obtain ⟨hx, hl⟩ := List.pairwise_cons.mp h
    by_cases hk : x.2 ≤ k
    · obtain ⟨A, B, rfl, hA, hB⟩ := ih hl
      refine ⟨x :: A, B, rfl, fun e he => ?_, hB⟩
      rcases List.mem_cons.mp he with rfl | he
      · exact hk
      · exact hA e he
    · refine ⟨[], x :: l, rfl, by simp, fun e he => ?_⟩
      rcases List.mem_cons.mp he with rfl | he
      · exact not_le.mp hk
      · exact lt_of_lt_of_le (not_le.mp hk) (hx e he)

theorem Before.key_le {x y : α × κ} (h : Before evs x y) : x.2 ≤ y.2 := by
  rcases h with h | ⟨h, -⟩
  · exact h.le
  · exact h.le

/-- **The order.**  The queue is ordered by key and, among equal keys, by arrival. -/
theorem Log.ordered (h : Log evs l) : l.Pairwise (Before evs) := by
  induction h with
  | nil => exact .nil
  | @put evs l a k log out ih =>
    -- the stamps of what is in stay, and the new one is the largest
    have hstay : ∀ e ∈ l, stamp (evs ++ [.put a k]) e.1 = stamp evs e.1 := by
      intro e he
      rw [stamp_put, Function.update_of_ne (out e he)]
    have hlast : ∀ e ∈ l, stamp (evs ++ [.put a k]) e.1 < stamp (evs ++ [.put a k]) a := by
      intro e he
      rw [hstay e he, stamp_put, Function.update_self]
      exact Nat.lt_succ_of_le (stamp_le evs e.1)
    have ih' : l.Pairwise (Before (evs ++ [.put a k])) := by
      refine ih.imp_of_mem fun hx hy hxy => ?_
      rw [Before, hstay _ hx, hstay _ hy]
      exact hxy
    obtain ⟨A, B, rfl, hA, hB⟩ := exists_split (ih.imp Before.key_le) k
    rw [put_eq hA hB]
    rw [List.pairwise_append] at ih'
    obtain ⟨ihA, ihB, hAB⟩ := ih'
    refine List.pairwise_append.mpr ⟨ihA, List.pairwise_cons.mpr ⟨fun e he => ?_, ihB⟩, ?_⟩
    · exact Or.inl (hB e he)
    · intro x hx y hy
      rcases List.mem_cons.mp hy with rfl | hy
      · rcases (hA x hx).lt_or_eq with hlt | heq
        · exact Or.inl hlt
        · exact Or.inr ⟨heq, hlast x (List.mem_append_left _ hx)⟩
      · exact hAB x hx y hy
  | @drop evs l a log ih =>
    refine (ih.imp fun {x y} hxy => ?_).filter _
    rw [Before, stamp_drop]
    exact hxy

omit [LinearOrder κ] in
/-- **What `drop` leaves**, where the entry is in. -/
theorem drop_eq {A B : List (α × κ)} {e : α × κ} (h : ((A ++ e :: B).map Prod.fst).Nodup) :
    drop (A ++ e :: B) e.1 = A ++ B := by
  rw [List.map_append, List.map_cons, List.nodup_middle, List.nodup_cons, ← List.map_append] at h
  have hne : ∀ x ∈ A ++ B, x.1 ≠ e.1 := by
    intro x hx he
    exact h.1 (he ▸ List.mem_map_of_mem hx)
  rw [drop, List.filter_append, List.filter_cons_of_neg (by simp), ← List.filter_append]
  exact List.filter_eq_self.mpr fun x hx => decide_eq_true (hne x hx)

end Queue

end Prio
