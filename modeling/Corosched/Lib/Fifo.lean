/-
# First in, first out

The abstract queue: a list of insertions and removals, and what it leaves in the queue.  The two
facts a user of a queue relies on follow from the order of the removals alone: the `i`-th removal
takes what the `i`-th insertion put in, and between an insertion of `a` and the removal that
answers it, exactly what was queued before `a` is removed.
-/
import Mathlib.Data.List.Basic

namespace Fifo

/-- One use of the queue. -/
inductive Ev (α : Type)
  | enq (a : α)
  | deq (a : α)

variable {α : Type} {evs more : List (Ev α)} {q q' ds rest : List α} {a : α}

/-- What was inserted, in order. -/
def enqs (evs : List (Ev α)) : List α := evs.filterMap fun
  | .enq a => some a
  | .deq _ => none

/-- What was removed, in order. -/
def deqs (evs : List (Ev α)) : List α := evs.filterMap fun
  | .enq _ => none
  | .deq a => some a

@[simp] theorem enqs_nil : enqs ([] : List (Ev α)) = [] := rfl
@[simp] theorem deqs_nil : deqs ([] : List (Ev α)) = [] := rfl
@[simp] theorem enqs_enq : enqs (.enq a :: evs) = a :: enqs evs := rfl
@[simp] theorem enqs_deq : enqs (.deq a :: evs) = enqs evs := rfl
@[simp] theorem deqs_enq : deqs (.enq a :: evs) = deqs evs := rfl
@[simp] theorem deqs_deq : deqs (.deq a :: evs) = a :: deqs evs := rfl

@[simp] theorem enqs_append : enqs (evs ++ more) = enqs evs ++ enqs more :=
  List.filterMap_append

@[simp] theorem deqs_append : deqs (evs ++ more) = deqs evs ++ deqs more :=
  List.filterMap_append

/-- `Served evs q`: the queue serves `evs`, starting empty, and contains `q` afterwards. -/
inductive Served : List (Ev α) → List α → Prop
  | nil : Served [] []
  | enq {evs : List (Ev α)} {q : List α} (a : α) (h : Served evs q) :
      Served (evs ++ [.enq a]) (q ++ [a])
  | deq {evs : List (Ev α)} {q : List α} {a : α} (h : Served evs (a :: q)) :
      Served (evs ++ [.deq a]) q

/-- **Nothing is lost, nothing is doubled and the order is kept.** -/
theorem Served.order (h : Served evs q) : enqs evs = deqs evs ++ q := by
  induction h with
  | nil => rfl
  | enq a _ ih => simp [ih]
  | deq _ ih => simp [ih]

/-- **The `i`-th removal answers the `i`-th insertion.** -/
theorem Served.in_order (h : Served evs q) : deqs evs <+: enqs evs :=
  ⟨q, h.order.symm⟩

/-- The part of a list before the first `a` is determined. -/
theorem eq_of_append_cons {xs ys : List α} (h : q ++ a :: xs = ds ++ a :: ys) (hq : a ∉ q)
    (hd : a ∉ ds) : ds = q := by
  rcases List.append_eq_append_iff.mp h with ⟨c, rfl, hc⟩ | ⟨c, rfl, hc⟩
  all_goals
    cases c with
    | nil => simp
    | cons b c =>
      obtain ⟨rfl, -⟩ := List.cons_eq_cons.mp hc
      simp at hq hd

/-- **What is removed while `a` waits** is what was queued when it came. -/
theorem Served.between (h : Served evs q) (h' : Served (evs ++ .enq a :: more) q') (hq : a ∉ q)
    (hds : deqs more = ds ++ a :: rest) (hd : a ∉ ds) : ds = q := by
  have horder := h'.order
  rw [enqs_append, deqs_append, enqs_enq, deqs_enq, h.order, hds] at horder
  simp only [List.append_assoc, List.cons_append] at horder
  exact eq_of_append_cons (List.append_cancel_left horder) hq hd

/-- **Whose turn it is**: what has `i` elements before it in the queue is the one that is removed
after `i` more removals, whatever comes in between. -/
theorem Served.turn (h : Served evs q) (h' : Served (evs ++ more) q') {i : Nat}
    (hi : q[i]? = some a) (hlt : i < (deqs more).length) : (deqs more)[i]? = some a := by
  have horder := h'.order
  rw [enqs_append, deqs_append, h.order, List.append_assoc, List.append_assoc] at horder
  have hget := congrArg (·[i]?) (List.append_cancel_left horder)
  obtain ⟨hiq, -⟩ := List.getElem?_eq_some_iff.mp hi
  simp only [List.getElem?_append_left hiq, List.getElem?_append_left hlt, hi] at hget
  exact hget.symm

/-- **Round robin.**  If what is removed is inserted again before the next removal, the removals go
round what was in the queue at first. -/
theorem Served.rotation (h : Served evs q) (h' : Served (evs ++ more) q')
    (hback : enqs more <+: deqs more) (hq : q ≠ []) {i : Nat} (hi : i < (deqs more).length) :
    (deqs more)[i]? = q[i % q.length]? := by
  have hpos := List.length_pos_iff.mpr hq
  induction i using Nat.strongRecOn with
  | ind i ih =>
    rcases Nat.lt_or_ge i q.length with hlt | hge
    · rw [Nat.mod_eq_of_lt hlt, List.getElem?_eq_getElem hlt]
      exact h.turn h' (List.getElem?_eq_getElem hlt) hi
    · -- the one that was removed a round ago
      have horder := h'.order
      rw [enqs_append, deqs_append, h.order, List.append_assoc, List.append_assoc] at horder
      have hget := congrArg (·[i]?) (List.append_cancel_left horder)
      have hlen := congrArg List.length (List.append_cancel_left horder)
      simp only [List.length_append] at hlen
      simp only [List.getElem?_append_right hge, List.getElem?_append_left hi] at hget
      have hsub : i - q.length < (enqs more).length := by omega
      have hprev : (deqs more)[i - q.length]? = (enqs more)[i - q.length]? := by
        obtain ⟨z, hz⟩ := hback
        rw [← hz, List.getElem?_append_left hsub]
      rw [← hget, ← hprev, ih _ (by omega) (by omega), Nat.mod_eq_sub_mod hge]

end Fifo
