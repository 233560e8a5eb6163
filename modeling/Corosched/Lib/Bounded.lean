/-
# A buffer that keeps what fits

Texts are appended to a buffer, each as far as there is room for it.  The buffer then has the
beginning of all of them together, wherever one text ended and the next one began.
-/
import Mathlib.Data.List.Basic

namespace Bounded

variable {α : Type} {buf buf' s t w : List α} {cap len off : Nat}

/-- `w` is written into the buffer at `off`, if there is room for it. -/
def store (buf : List α) (off : Nat) (w : List α) : Option (List α) :=
  if off + w.length ≤ buf.length then some (buf.take off ++ (w ++ buf.drop (off + w.length)))
  else none

/-- The first `len` elements of the buffer are the text `s`, of which no more than `cap` fit. -/
structure Shows (cap : Nat) (buf : List α) (len : Nat) (s : List α) : Prop where
  len_eq : len = min cap s.length
  text : buf.take len = s.take cap

theorem Shows.start (cap : Nat) (buf : List α) : Shows cap buf 0 [] := ⟨by simp, by simp⟩

theorem Shows.len_le (h : Shows cap buf len s) : len ≤ cap := by
  rw [h.len_eq]
  exact Nat.min_le_left _ _

/-- What a write leaves. -/
theorem store_eq_some (h : off + w.length ≤ buf.length) :
    ∃ buf', store buf off w = some buf' ∧ buf'.length = buf.length ∧
      ∀ n, n ≤ w.length → buf'.take (off + n) = buf.take off ++ w.take n := by
  have hoff : (buf.take off).length = off := by simp; omega
  refine ⟨_, if_pos h, by simp; omega, fun n hn => ?_⟩
  rw [List.take_append, hoff, List.take_of_length_le (by omega), Nat.add_sub_cancel_left,
    List.take_append_of_le_length hn]

/-- **An append.**  What is written begins with as much of the text as fits. -/
theorem Shows.append (h : Shows cap buf len s) (t : List α)
    (hw : t.take (cap - len) <+: w) (hroom : len + w.length ≤ buf.length) :
    ∃ buf', store buf len w = some buf' ∧ buf'.length = buf.length ∧
      Shows cap buf' (len + min (cap - len) t.length) (s ++ t) := by
  obtain ⟨buf', hstore, hlength, htake⟩ := store_eq_some hroom
  refine ⟨buf', hstore, hlength, ?_, ?_⟩
  · have := h.len_eq
    rw [List.length_append]
    omega
  · have hn : (t.take (cap - len)).length ≤ w.length := hw.length_le
    have hpre := List.prefix_iff_eq_take.mp hw
    rw [← List.length_take, htake _ hn, ← hpre, h.text, List.take_append]
    congr 2
    have := h.len_eq
    omega

/-- What is written behind the text does not matter. -/
theorem Shows.scratch (h : Shows cap buf len s) (hroom : len + w.length ≤ buf.length) :
    ∃ buf', store buf len w = some buf' ∧ buf'.length = buf.length ∧ Shows cap buf' len s := by
  obtain ⟨buf', hstore, hlength, htake⟩ := store_eq_some hroom
  refine ⟨buf', hstore, hlength, h.len_eq, ?_⟩
  have := htake 0 (Nat.zero_le _)
  rw [Nat.add_zero, List.take_zero, List.append_nil] at this
  rw [this, h.text]

/-- A buffer that is full shows every longer text as well. -/
theorem Shows.full (h : Shows cap buf len s) (hfull : cap ≤ s.length) (t : List α) :
    Shows cap buf len (s ++ t) := by
  refine ⟨?_, ?_⟩
  · have := h.len_eq
    rw [List.length_append]
    omega
  · rw [h.text, List.take_append_of_le_length hfull]

end Bounded
