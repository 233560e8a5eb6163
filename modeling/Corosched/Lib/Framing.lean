/-
# Messages in a stream

A stream knows no messages, only their bytes one after the other.  Whoever takes as many bytes at a
time as the messages have gets the messages back.
-/
import Mathlib.Data.List.Basic

namespace Framing

variable {β : Type} {xs ys : List (List β)} {rest : List β}

/-- **Pieces of the same lengths are the same pieces.** -/
theorem pieces_prefix (hflat : xs.flatten <+: ys.flatten)
    (hlen : xs.map List.length <+: ys.map List.length) : xs <+: ys := by
  induction xs generalizing ys with
  | nil => exact List.nil_prefix
  | cons x xs ih =>
    cases ys with
    | nil => simp at hlen
    | cons y ys =>
      simp only [List.map_cons, List.cons_prefix_cons] at hlen
      obtain ⟨hxy, hlen⟩ := hlen
      simp only [List.flatten_cons] at hflat
      have hx : x = y := by
        have h := (List.prefix_append x xs.flatten).trans hflat
        exact (List.prefix_of_prefix_length_le h (List.prefix_append y ys.flatten)
          (Nat.le_of_eq hxy)).eq_of_length hxy
      subst hx
      rw [List.prefix_append_right_inj] at hflat
      exact (List.cons_prefix_cons).mpr ⟨rfl, ih hflat hlen⟩

end Framing
