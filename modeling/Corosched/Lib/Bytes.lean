/-
# Memory of bytes

Memory with 64-bit addresses and a byte at every address: little-endian words, a fill, and ranges
that do not meet.  Addresses wrap around, and a range is the bytes at less than its length from its
start, so the facts below hold of ranges that wrap as well.
-/
import Mathlib.Algebra.Group.Nat.Defs
import Mathlib.Tactic.Common

namespace Bytes

/-- A byte at every address. -/
abbrev Mem := BitVec 64 → BitVec 8

/-- The byte `x` is in the range of `n` bytes at `a`. -/
def In (x a : BitVec 64) (n : Nat) : Prop := (x - a).toNat < n

instance (x a : BitVec 64) (n : Nat) : Decidable (In x a n) := inferInstanceAs (Decidable (_ < _))

/-- The ranges of `n` bytes at `a` and of `k` bytes at `b` do not meet. -/
def Apart (a : BitVec 64) (n : Nat) (b : BitVec 64) (k : Nat) : Prop := ∀ x, In x a n → ¬ In x b k

namespace Mem

/-- The word at `a`, little endian. -/
def load (m : Mem) (a : BitVec 64) : BitVec 64 :=
  m (a + 7#64) ++ (m (a + 6#64) ++ (m (a + 5#64) ++ (m (a + 4#64) ++ (m (a + 3#64) ++
    (m (a + 2#64) ++ (m (a + 1#64) ++ m (a + 0#64)))))))

/-- The word `v` is written at `a`. -/
def store (m : Mem) (a v : BitVec 64) : Mem := fun x =>
  if In x a 8 then v.extractLsb' (8 * (x - a).toNat) 8 else m x

/-- `memset(a, b, n)`. -/
def fill (m : Mem) (a : BitVec 64) (b : BitVec 8) (n : Nat) : Mem := fun x =>
  if In x a n then b else m x

end Mem

/-! ## 1. Ranges -/

variable {a b x : BitVec 64} {n k n' k' : Nat}

theorem Apart.symm (h : Apart a n b k) : Apart b k a n := fun x hb ha => h x ha hb

/-- Smaller ranges are apart as well. -/
theorem Apart.mono (h : Apart a n b k) {a' b' : BitVec 64} (ha : ∀ x, In x a' n' → In x a n)
    (hb : ∀ x, In x b' k' → In x b k) : Apart a' n' b' k' := fun x hx hy => h x (ha x hx) (hb x hy)

/-- The bytes from `d` on in a range. -/
theorem In.of_add {d : Nat} (h : In x (a + BitVec.ofNat 64 d) k) (hd : d + k ≤ n) : In x a n := by
  simp only [In, BitVec.toNat_sub, BitVec.toNat_add, BitVec.toNat_ofNat] at h ⊢
  omega

theorem apart_of_le (h : a.toNat + n ≤ b.toNat) (hb : b.toNat + k ≤ 2 ^ 64) : Apart a n b k := by
  intro x ha hx
  simp only [In, BitVec.toNat_sub] at ha hx
  omega

/-- A range and the one that follows it. -/
theorem apart_next (a : BitVec 64) (h : n + k ≤ 2 ^ 64) :
    Apart (a + BitVec.ofNat 64 n) k a n := by
  intro x hx ha
  simp only [In, BitVec.toNat_sub, BitVec.toNat_add, BitVec.toNat_ofNat] at hx ha
  omega

/-! ## 2. Reads after writes -/

variable {m m' : Mem} {v : BitVec 64}

theorem Mem.store_of_not_in (hx : ¬ In x a 8) : m.store a v x = m x := if_neg hx

theorem Mem.fill_of_not_in {w : BitVec 8} (hx : ¬ In x a n) : m.fill a w n x = m x := if_neg hx

theorem Mem.fill_of_in {w : BitVec 8} (hx : In x a n) : m.fill a w n x = w := if_pos hx

theorem Mem.load_congr (h : ∀ x, In x a 8 → m' x = m x) : m'.load a = m.load a := by
  have hi : ∀ i : Nat, i < 8 → m' (a + BitVec.ofNat 64 i) = m (a + BitVec.ofNat 64 i) := by
    intro i hi
    refine h _ ?_
    simp only [In, BitVec.toNat_sub, BitVec.toNat_add, BitVec.toNat_ofNat]
    omega
  rw [Mem.load, hi 0 (by omega), hi 1 (by omega), hi 2 (by omega), hi 3 (by omega),
    hi 4 (by omega), hi 5 (by omega), hi 6 (by omega), hi 7 (by omega), Mem.load]

theorem Mem.load_zero (h : ∀ x, In x a 8 → m x = 0#8) : m.load a = 0#64 :=
  (load_congr (m := fun _ => 0#8) h).trans (by simp [load])

theorem Mem.load_store_same (m : Mem) (a v : BitVec 64) : (m.store a v).load a = v := by
  have hi : ∀ i : Nat, i < 8 →
      m.store a v (a + BitVec.ofNat 64 i) = v.extractLsb' (8 * i) 8 := by
    intro i hi
    have hoff : (a + BitVec.ofNat 64 i - a).toNat = i := by
      simp only [BitVec.toNat_sub, BitVec.toNat_add, BitVec.toNat_ofNat]
      omega
    have hin : In (a + BitVec.ofNat 64 i) a 8 := by rwa [In, hoff]
    rw [Mem.store, if_pos hin, hoff]
  rw [Mem.load, hi 0 (by omega), hi 1 (by omega), hi 2 (by omega), hi 3 (by omega),
    hi 4 (by omega), hi 5 (by omega), hi 6 (by omega), hi 7 (by omega)]
  -- the bytes join from the low end
  have join : ∀ {i n : Nat}, 8 * i = n →
      v.extractLsb' (8 * i) 8 ++ v.extractLsb' 0 n = v.extractLsb' 0 (8 + n) :=
    fun h => BitVec.extractLsb'_append_extractLsb'_eq_extractLsb' (by omega)
  rw [Nat.mul_zero, join rfl, join rfl, join rfl, join rfl, join rfl, join rfl, join rfl]
  exact BitVec.extractLsb'_eq_self

theorem Mem.load_store_apart (h : Apart a 8 b 8) : (m.store b v).load a = m.load a :=
  load_congr fun x hx => store_of_not_in (h x hx)

theorem Mem.load_fill_apart {w : BitVec 8} (h : Apart a 8 b n) :
    (m.fill b w n).load a = m.load a :=
  load_congr fun x hx => fill_of_not_in (h x hx)

/-! ## 3. Words in a row -/

/-- The words `ws` are in memory from `a` on. -/
def Mem.Words (m : Mem) : BitVec 64 → List (BitVec 64) → Prop
  | _, [] => True
  | a, w :: ws => m.load a = w ∧ m.Words (a + 8#64) ws

theorem Mem.Words.congr {ws : List (BitVec 64)} (h : m.Words a ws)
    (hm : ∀ x, In x a (8 * ws.length) → m' x = m x) : m'.Words a ws := by
  induction ws generalizing a with
  | nil => trivial
  | cons w ws ih =>
    rw [List.length_cons] at hm
    refine ⟨(load_congr fun x hx => hm x ?_).trans h.1, ih h.2 fun x hx => hm x ?_⟩
    · exact Nat.lt_of_lt_of_le hx (by omega)
    · exact In.of_add (d := 8) hx (by omega)

theorem Mem.words_zero (h : ∀ x, In x a (8 * n) → m x = 0#8) :
    m.Words a (List.replicate n 0#64) := by
  induction n generalizing a with
  | zero => trivial
  | succ n ih =>
    refine ⟨load_zero fun x hx => h x ?_, ih fun x hx => h x ?_⟩
    · exact Nat.lt_of_lt_of_le hx (by omega)
    · exact In.of_add (d := 8) hx (by omega)

theorem Mem.words_append {ws vs : List (BitVec 64)} :
    m.Words a (ws ++ vs) ↔ m.Words a ws ∧ m.Words (a + BitVec.ofNat 64 (8 * ws.length)) vs := by
  induction ws generalizing a with
  | nil => simp [Words]
  | cons w ws ih =>
    have hstep : a + 8#64 + BitVec.ofNat 64 (8 * ws.length)
        = a + BitVec.ofNat 64 (8 * (ws.length + 1)) := by
      rw [Nat.mul_add_one, Nat.add_comm, BitVec.ofNat_add, BitVec.add_assoc]
    rw [List.cons_append, Words, Words, ih, hstep, List.length_cons, and_assoc]

end Bytes
