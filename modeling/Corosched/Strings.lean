/-
# `cs_string.c`

A `struct string` has a length and a pointer to a block that it owns.  The model has the blocks byte
by byte, and says of every read and write whether it stays inside its block.

`string_copy_exact` says for which arguments `string_copy` does, and for which an `ASSERT` stops it.
`strings_are_values` is about every run of calls on many strings: each string behaves as a value of
its own, and every block belongs to one string.  `string_compare_decides` says what `string_compare`
makes of them.
-/
import Corosched.Fault
import Corosched.Lib.Run
import Mathlib.Algebra.Group.Nat.Defs
import Mathlib.Data.List.Basic

namespace Corosched
namespace Strings

/-! ## 1. The code -/

abbrev Byte := BitVec 8

/-- A pointer to the start of a block. -/
abbrev Ptr := Nat

/-- The allocated blocks. -/
abbrev Heap := Ptr → Option (List Byte)

/-- `struct string`. -/
structure CString where
  len : BitVec 32
  data : Option Ptr
  deriving DecidableEq

/-- `M_OK` and `M_ENOMEM`. -/
inductive Status
  | ok
  | enomem
  deriving DecidableEq

/-- The bytes that can be read from a pointer on. -/
def readable (h : Heap) (p : Option Ptr) : List Byte := (p.bind h).getD []

/-- `strndup(s, n)`, where `s` can be read for the given bytes: the new block. -/
def strndup : List Byte → Nat → Except Fault (List Byte)
  | _, 0 => pure [0]
  | [], _ + 1 => throw .dangling
  | b :: bs, n + 1 =>
    if b = 0 then pure [0]
    else do
      let block ← strndup bs n
      pure (b :: block)

/-- `data[i] = '\0'`. -/
def storeNul (block : List Byte) (i : Nat) : Except Fault (List Byte) :=
  if i < block.length then pure (block.set i 0) else throw .dangling

/-- `string_init`. -/
def stringInit : CString := ⟨0, none⟩

/-- `(len == 0 && data == NULL) || (len != 0 && data != NULL)`. -/
def CString.valid (s : CString) : Bool :=
  decide (s.len = 0 ∧ s.data = none ∨ s.len ≠ 0 ∧ s.data ≠ none)

/-- `string_deinit`. -/
def stringDeinit (h : Heap) (s : CString) : Except Fault (Heap × CString) := do
  ASSERT s.valid
  match s.data with
  | none => pure (h, s)
  | some p =>
    if (h p).isSome then pure (Function.update h p none, stringInit) else throw .dangling

/-- `string_empty`. -/
def stringEmpty (s : CString) : Except Fault Bool := do
  ASSERT s.valid
  pure (decide (s.len = 0))

/-- What `string_copy` and `string_duplicate` do with the bytes they are given; the allocator
returns `mem`. -/
def copyBytes (h : Heap) (dst : CString) (src : List Byte) (len : BitVec 32) (mem : Option Ptr) :
    Except Fault (Heap × CString × Status) := do
  let block ← strndup src (len + 1).toNat
  match mem with
  | none => pure (h, dst, .enomem)
  | some p =>
    let block ← storeNul block len.toNat
    pure (Function.update h p (some block), ⟨len, some p⟩, .ok)

/-- `string_copy(dst, src, srclen)`, where `src` is not nil and can be read for the given bytes. -/
def stringCopy (h : Heap) (dst : CString) (src : List Byte) (srclen : BitVec 32)
    (mem : Option Ptr) : Except Fault (Heap × CString × Status) := do
  ASSERT (decide (dst.len = 0 ∧ dst.data = none))
  ASSERT (decide (srclen ≠ 0))
  copyBytes h dst src srclen mem

/-- `string_duplicate(dst, src)`. -/
def stringDuplicate (h : Heap) (dst src : CString) (mem : Option Ptr) :
    Except Fault (Heap × CString × Status) := do
  ASSERT (decide (dst.len = 0 ∧ dst.data = none))
  ASSERT (decide (src.len ≠ 0 ∧ src.data ≠ none))
  copyBytes h dst (readable h src.data) src.len mem

/-- `strncmp`, with the difference of the bytes as its result. -/
def strncmp : Nat → List Byte → List Byte → Except Fault Int
  | 0, _, _ => pure 0
  | n + 1, a :: as, b :: bs =>
    if a ≠ b then pure ((a.toNat : Int) - b.toNat)
    else if a = 0 then pure 0
    else strncmp n as bs
  | _ + 1, _, _ => throw .dangling

/-- `string_compare`: the difference of the lengths is unsigned. -/
def stringCompare (h : Heap) (s₁ s₂ : CString) : Except Fault Int :=
  if s₁.len ≠ s₂.len then pure (if 0 < s₁.len - s₂.len then 1 else -1)
  else strncmp s₁.len.toNat (readable h s₁.data) (readable h s₂.data)

/-! ## 2. `string_copy` -/

variable {h h' : Heap} {dst src s s₁ s₂ : CString} {bs t t₁ t₂ rest : List Byte} {len : BitVec 32}
  {p : Ptr} {mem : Option Ptr} {n : Nat}

/-- The bytes `strndup` copies. -/
def copied (bs : List Byte) (n : Nat) : List Byte := (bs.take n).takeWhile (· ≠ 0)

theorem copied_cons {b : Byte} (hb : b ≠ 0) (bs : List Byte) (n : Nat) :
    copied (b :: bs) (n + 1) = b :: copied bs n := by
  simp only [copied, List.take_succ_cons]
  exact List.takeWhile_cons_of_pos (by simpa using hb)

theorem copied_zero (bs : List Byte) (n : Nat) : copied (0 :: bs) n = [] := by
  cases n with
  | zero => rfl
  | succ n => exact List.takeWhile_cons_of_neg (by simp)

theorem strndup_eq (bs : List Byte) (n : Nat) :
    strndup bs n = if n ≤ (copied bs n).length ∨ (copied bs n).length < bs.length
      then .ok (copied bs n ++ [0]) else .error .dangling := by
  induction n generalizing bs with
  | zero => simp [strndup, copied]
  | succ n ih =>
    cases bs with
    | nil => simp [strndup, copied]
    | cons b bs =>
      rw [strndup]
      by_cases hb : b = 0
      · subst hb
        rw [copied_zero]
        simp
      · rw [if_neg hb, ih, copied_cons hb]
        simp only [List.length_cons, Nat.add_le_add_iff_right, Nat.add_lt_add_iff_right]
        split <;> simp

/-- What `string_copy` needs of its arguments: no zero among the first `len` bytes, one more byte
that can be read, and a length whose successor does not wrap around. -/
structure CopyOk (bs : List Byte) (len : BitVec 32) : Prop where
  bound : len.toNat + 1 < 2 ^ 32
  readable : len.toNat < bs.length
  nonzero : 0 ∉ bs.take len.toNat

theorem length_copied_le (bs : List Byte) (n : Nat) : (copied bs n).length ≤ n :=
  ((List.takeWhile_prefix _).length_le).trans (List.length_take_le _ _)

/-- `strndup` has copied `n` bytes and more if there is no zero among the first `n`. -/
theorem le_length_copied {m : Nat} (hnm : n ≤ m) :
    n ≤ (copied bs m).length ↔ n ≤ bs.length ∧ 0 ∉ bs.take n := by
  induction bs generalizing n m with
  | nil => simp [copied]
  | cons b bs ih =>
    cases n with
    | zero => simp
    | succ n =>
      obtain ⟨m, rfl⟩ := Nat.exists_eq_add_of_lt hnm
      by_cases hb : b = 0
      · subst hb
        rw [copied_zero]
        simp
      · rw [show n + m + 1 = (n + m) + 1 from rfl, copied_cons hb]
        have := ih (n := n) (m := n + m) (by omega)
        simp only [List.length_cons, Nat.add_le_add_iff_right, List.take_succ_cons,
          List.mem_cons, not_or, this]
        exact ⟨fun h => ⟨h.1, fun h0 => hb h0.symm, h.2⟩, fun h => ⟨h.1, h.2.2⟩⟩

/-- A string without a zero in it, in a block of its own. -/
def Block (t : List Byte) (block : List Byte) : Prop := ∃ rest, block = t ++ 0 :: rest

/-- **What `copyBytes` leaves**, where its arguments are as they should be. -/
theorem copyBytes_ok (h : Heap) (dst : CString) (hok : CopyOk bs len) (p : Ptr) :
    ∃ block, Block (bs.take len.toNat) block ∧
      copyBytes h dst bs len (some p)
        = .ok (Function.update h p (some block), ⟨len, some p⟩, .ok) ∧
      copyBytes h dst bs len none = .ok (h, dst, .enomem) := by
  obtain ⟨hbound, hread, hzero⟩ := hok
  have hn : (len + 1).toNat = len.toNat + 1 := by
    rw [BitVec.toNat_add, show (1 : BitVec 32).toNat = 1 from rfl]
    omega
  have hle : len.toNat ≤ (copied bs (len.toNat + 1)).length :=
    (le_length_copied (Nat.le_succ _)).mpr ⟨hread.le, hzero⟩
  have htake : (copied bs (len.toNat + 1)).take len.toNat = bs.take len.toNat := by
    have hprefix : (copied bs (len.toNat + 1)).take len.toNat <+: bs :=
      (List.take_prefix _ _).trans ((List.takeWhile_prefix _).trans (List.take_prefix _ _))
    rw [List.prefix_iff_eq_take.mp hprefix, List.length_take, Nat.min_eq_left hle]
  have hdup : strndup bs (len + 1).toNat = .ok (copied bs (len.toNat + 1) ++ [0]) := by
    rw [hn, strndup_eq, if_pos (by omega)]
  -- the zero is written behind the first `len` bytes
  refine ⟨(copied bs (len.toNat + 1) ++ [0]).set len.toNat 0,
    ⟨(copied bs (len.toNat + 1) ++ [0]).drop (len.toNat + 1), ?_⟩, ?_, ?_⟩
  · rw [List.set_eq_take_append_cons_drop, if_pos (by simp; omega),
      List.take_append_of_le_length hle, htake]
  · rw [copyBytes, hdup, ok_bind, storeNul, if_pos (by simp; omega)]
    rfl
  · rw [copyBytes, hdup]
    rfl

/-- **Otherwise it leaves its blocks.** -/
theorem copyBytes_bad (h : Heap) (dst : CString) (hpos : 0 < len.toNat) (hbad : ¬ CopyOk bs len)
    (p : Ptr) : copyBytes h dst bs len (some p) = .error .dangling := by
  rw [copyBytes, strndup_eq]
  split
  · rename_i hdup
    rw [ok_bind, storeNul, if_neg]
    · rfl
    · -- the block is too short for the zero
      rw [List.length_append, List.length_singleton]
      intro hlt
      have hle : len.toNat ≤ (copied bs (len + 1).toNat).length := by omega
      have hcopied := length_copied_le bs (len + 1).toNat
      have hsum : (len + 1).toNat = (len.toNat + 1) % 2 ^ 32 := by
        rw [BitVec.toNat_add, show (1 : BitVec 32).toNat = 1 from rfl]
      have hlen := len.isLt
      have hn : (len + 1).toNat = len.toNat + 1 := by omega
      rw [hn] at hle hdup
      obtain ⟨hread, hzero⟩ := (le_length_copied (Nat.le_succ _)).mp hle
      refine hbad ⟨by omega, ?_, hzero⟩
      have hall : (copied bs (len.toNat + 1)).length ≤ bs.length :=
        ((List.takeWhile_prefix _).trans (List.take_prefix _ _)).length_le
      omega
  · rfl

theorem eq_stringInit_iff (s : CString) : s = stringInit ↔ s.len = 0 ∧ s.data = none := by
  cases s
  rw [stringInit, CString.mk.injEq]

theorem stringCopy_eq (h : Heap) (hd : dst = stringInit) (hlen : len ≠ 0) (mem : Option Ptr) :
    stringCopy h dst bs len mem = copyBytes h dst bs len mem := by
  have hne : len ≠ 0#32 := hlen
  simp [stringCopy, hd, stringInit, hne, ASSERT]

/-- Where there is a string already, or nothing to copy, an `ASSERT` stops the call. -/
theorem stringCopy_assert (h : Heap) (hbad : ¬ (dst = stringInit ∧ len ≠ 0)) (bs : List Byte)
    (mem : Option Ptr) : stringCopy h dst bs len mem = .error .assertFail := by
  rw [stringCopy]
  by_cases hd : dst.len = 0 ∧ dst.data = none
  · have hlen : ¬ len ≠ 0 := fun hne => hbad ⟨(eq_stringInit_iff dst).mpr hd, hne⟩
    rw [decide_eq_true hd, decide_eq_false hlen]
    rfl
  · rw [decide_eq_false hd]
    rfl

theorem stringDuplicate_eq (h : Heap) (hd : dst = stringInit) (hlen : src.len ≠ 0)
    (hdata : src.data ≠ none) (mem : Option Ptr) :
    stringDuplicate h dst src mem = copyBytes h dst (readable h src.data) src.len mem := by
  have hne : src.len ≠ 0#32 := hlen
  simp [stringDuplicate, hd, stringInit, hne, hdata, ASSERT]

/-- **When `string_copy` is safe.**  Into an empty string, and for an `srclen` other than 0, it
copies the first `srclen` bytes, with a zero behind them, if there is no zero among them, one more
byte can be read, and `srclen` is not the greatest number; else it reads or writes outside of a
block.  For a string in use or an `srclen` of 0 an `ASSERT` stops it before it does anything. -/
theorem string_copy_exact (h : Heap) (dst : CString) (bs : List Byte) (len : BitVec 32) (p : Ptr) :
    (dst = stringInit ∧ len ≠ 0 ∧ CopyOk bs len →
      ∃ block, Block (bs.take len.toNat) block ∧
        stringCopy h dst bs len (some p)
          = .ok (Function.update h p (some block), ⟨len, some p⟩, .ok)) ∧
    (dst = stringInit ∧ len ≠ 0 ∧ ¬ CopyOk bs len →
      stringCopy h dst bs len (some p) = .error .dangling) ∧
    (¬ (dst = stringInit ∧ len ≠ 0) →
      stringCopy h dst bs len (some p) = .error .assertFail) := by
  refine ⟨?_, ?_, fun hbad => stringCopy_assert h hbad bs (some p)⟩
  · rintro ⟨hd, hlen, hok⟩
    obtain ⟨block, hblock, hcopy, -⟩ := copyBytes_ok h dst hok p
    exact ⟨block, hblock, (stringCopy_eq h hd hlen _).trans hcopy⟩
  · rintro ⟨hd, hlen, hbad⟩
    have hpos : 0 < len.toNat := Nat.pos_of_ne_zero fun h0 => hlen (BitVec.eq_of_toNat_eq h0)
    rw [stringCopy_eq h hd hlen]
    exact copyBytes_bad h dst hpos hbad p

/-- Five bytes of a block of six. -/
theorem string_copy_exact_five :
    ∃ block, Block [104, 101, 108, 108, 111] block ∧
      stringCopy (fun _ => none) stringInit [104, 101, 108, 108, 111, 33] 5#32 (some 7)
        = .ok (Function.update (fun _ => none) 7 (some block), ⟨5#32, some 7⟩, .ok) :=
  (string_copy_exact (fun _ => none) stringInit [104, 101, 108, 108, 111, 33] 5#32 7).1
    ⟨rfl, by decide, by decide, by decide, by decide⟩

/-! ## 3. Many strings -/

/-- The blocks and the strings. -/
structure Memory where
  heap : Heap
  str : Nat → CString

/-- The calls, each on the string with the given number; `mem` is what the allocator returns. -/
inductive Act
  | copy (i : Nat) (bs : List Byte) (len : BitVec 32) (mem : Option Ptr)
  | duplicate (i j : Nat) (mem : Option Ptr)
  | deinit (i : Nat)

def step : Machine Memory Act Fault := fun s act =>
  some (match act with
    | .copy i bs len mem => do
      let (h, d, _) ← stringCopy s.heap (s.str i) bs len mem
      pure ⟨h, Function.update s.str i d⟩
    | .duplicate i j mem => do
      let (h, d, _) ← stringDuplicate s.heap (s.str i) (s.str j) mem
      pure ⟨h, Function.update s.str i d⟩
    | .deinit i => do
      let (h, d) ← stringDeinit s.heap (s.str i)
      pure ⟨h, Function.update s.str i d⟩)

/-- The calls as they are meant: a string is created where there is none, from bytes or from a
string; and the allocator returns a new block. -/
def Meant (s : Memory) : Act → Prop
  | .copy i bs len mem => s.str i = stringInit ∧ len ≠ 0 ∧ CopyOk bs len ∧
      ∀ p ∈ mem, s.heap p = none
  | .duplicate i j mem => s.str i = stringInit ∧ s.str j ≠ stringInit ∧ ∀ p ∈ mem, s.heap p = none
  | .deinit _ => True

/-- No string has been created. -/
def Memory.start : Memory := ⟨fun _ => none, fun _ => stringInit⟩

/-- What the calls do to values. -/
def Act.value (v : Nat → List Byte) : Act → Nat → List Byte
  | .copy i bs len (some _) => Function.update v i (bs.take len.toNat)
  | .duplicate i j (some _) => Function.update v i (v j)
  | .deinit i => Function.update v i []
  | _ => v

/-- The string `s` has the value `t`. -/
def Has (h : Heap) (s : CString) (t : List Byte) : Prop :=
  t = [] ∧ s = stringInit ∨
    t ≠ [] ∧ 0 ∉ t ∧ s.len.toNat = t.length ∧ t.length + 1 < 2 ^ 32 ∧
      ∃ p block, s.data = some p ∧ h p = some block ∧ Block t block

/-- **The strings are the values `v`**, each in a block of its own, and no other block is
allocated. -/
structure Values (s : Memory) (v : Nat → List Byte) : Prop where
  has : ∀ i, Has s.heap (s.str i) (v i)
  apart : ∀ i j p, (s.str i).data = some p → (s.str j).data = some p → i = j
  owned : ∀ p, s.heap p ≠ none → ∃ i, (s.str i).data = some p

variable {m m' : Memory} {v : Nat → List Byte} {act : Act} {i j : Nat}

/-- A string with a value that is not empty has a length. -/
theorem len_ne_zero (ht : t ≠ []) (hlen : s.len.toNat = t.length) : s.len ≠ 0#32 := by
  intro h0
  have hpos := List.length_pos_iff.mpr ht
  rw [h0] at hlen
  simp at hlen
  omega

theorem Has.copyOk (h₁ : Has h s t) (hne : s ≠ stringInit) :
    s.len ≠ 0 ∧ s.data ≠ none ∧ CopyOk (readable h s.data) s.len ∧
      (readable h s.data).take s.len.toNat = t := by
  rcases h₁ with ⟨-, hs⟩ | ⟨ht, hzero, hlen, hbound, p, block, hp, hblock, rest, rfl⟩
  · exact absurd hs hne
  · have hread : readable h s.data = t ++ 0 :: rest := by simp [readable, hp, hblock]
    have htake : (t ++ 0 :: rest).take s.len.toNat = t := by rw [hlen, List.take_left]
    rw [hread]
    exact ⟨len_ne_zero ht hlen, by simp [hp], ⟨by omega, by simp [hlen], htake.symm ▸ hzero⟩, htake⟩

/-- A block elsewhere does not change a string. -/
theorem Has.congr (h₁ : Has h s t) (hh : ∀ p, s.data = some p → h' p = h p) : Has h' s t := by
  refine h₁.imp id ?_
  rintro ⟨ht, hzero, hlen, hbound, p, block, hp, hblock, htext⟩
  exact ⟨ht, hzero, hlen, hbound, p, block, hp, (hh p hp).trans hblock, htext⟩

/-- A string whose data is null has the empty value. -/
theorem Has.data_none (h₁ : Has h s t) (hd : s.data = none) : t = [] ∧ s = stringInit := by
  rcases h₁ with h₁ | ⟨-, -, -, -, p, block, hp, -⟩
  · exact h₁
  · exact absurd (hd.symm.trans hp) (by simp)

/-- `string_empty` finds the empty value. -/
theorem Has.stringEmpty_eq (h₁ : Has h s t) : stringEmpty s = .ok (decide (t = [])) := by
  rcases h₁ with ⟨rfl, rfl⟩ | ⟨ht, -, hlen, -, p, block, hp, -⟩
  · rfl
  · have hne := len_ne_zero ht hlen
    simp [stringEmpty, CString.valid, hne, hp, ht]

/-- **A new string.** -/
theorem Values.create (hv : Values m v) (hi : m.str i = stringInit) {bs block : List Byte}
    (hlen : len ≠ 0) (hok : CopyOk bs len) (hp : m.heap p = none)
    (hblock : Block (bs.take len.toNat) block) :
    Values ⟨Function.update m.heap p (some block), Function.update m.str i ⟨len, some p⟩⟩
      (Function.update v i (bs.take len.toNat)) := by
  have hpos : 0 < len.toNat := Nat.pos_of_ne_zero fun h0 => hlen (BitVec.eq_of_toNat_eq h0)
  have hread := hok.readable
  have hlength : (bs.take len.toNat).length = len.toNat := by simp [hread.le]
  -- no string has had that block
  have hfresh : ∀ k, (m.str k).data ≠ some p := by
    intro k hk
    rcases hv.has k with ⟨-, hs⟩ | ⟨-, -, -, -, q, b, hq, hb, -⟩
    · rw [hs] at hk
      exact absurd hk (by simp [stringInit])
    · obtain rfl := Option.some.inj (hk.symm.trans hq)
      exact absurd (hp.symm.trans hb) (by simp)
  refine ⟨fun k => ?_, fun k l q hk hl => ?_, fun q hq => ?_⟩
  · by_cases hki : k = i
    · subst hki
      simp only [Function.update_self]
      refine Or.inr ⟨fun h0 => ?_, hok.nonzero, hlength.symm, ?_, p, block, rfl,
        Function.update_self _ _ _, hblock⟩
      · rw [h0] at hlength
        simp at hlength
        omega
      · rw [hlength]
        exact hok.bound
    · simp only [Function.update_of_ne hki]
      refine (hv.has k).congr fun q hq => Function.update_of_ne ?_ _ _
      rintro rfl
      exact hfresh k hq
  · simp only [Function.update_apply] at hk hl
    split_ifs at hk hl with hki hli hli
    · rw [hki, hli]
    · exact absurd (hl.trans hk.symm) (hfresh l)
    · exact absurd (hk.trans hl.symm) (hfresh k)
    · exact hv.apart k l q hk hl
  · by_cases hqp : q = p
    · exact ⟨i, by simp [hqp]⟩
    · simp only [Function.update_of_ne hqp] at hq
      obtain ⟨k, hk⟩ := hv.owned q hq
      have hki : k ≠ i := by
        rintro rfl
        rw [hi] at hk
        exact absurd hk (by simp [stringInit])
      exact ⟨k, by simp [hki, hk]⟩

/-- **The end of a string.** -/
theorem Values.destroy (hv : Values m v) (hp : (m.str i).data = some p) :
    Values ⟨Function.update m.heap p none, Function.update m.str i stringInit⟩
      (Function.update v i []) := by
  refine ⟨fun k => ?_, fun k l q hk hl => ?_, fun q hq => ?_⟩
  · by_cases hki : k = i
    · subst hki
      simp only [Function.update_self]
      exact Or.inl ⟨rfl, rfl⟩
    · simp only [Function.update_of_ne hki]
      refine (hv.has k).congr fun q hq => Function.update_of_ne ?_ _ _
      rintro rfl
      exact hki (hv.apart k i q hq hp)
  · simp only [Function.update_apply] at hk hl
    split_ifs at hk hl
    all_goals first
      | exact absurd hk (by simp [stringInit])
      | exact absurd hl (by simp [stringInit])
      | exact hv.apart k l q hk hl
  · by_cases hqp : q = p
    · simp [hqp] at hq
    · simp only [Function.update_of_ne hqp] at hq
      obtain ⟨k, hk⟩ := hv.owned q hq
      have hki : k ≠ i := by
        rintro rfl
        exact hqp (Option.some.inj (hk.symm.trans hp))
      exact ⟨k, by simp [hki, hk]⟩

/-- What `copyBytes` does to a memory of values. -/
theorem Values.copy (hv : Values m v) (hi : m.str i = stringInit) {bs : List Byte}
    (hlen : len ≠ 0) (hok : CopyOk bs len) (hmem : ∀ p ∈ mem, m.heap p = none) :
    ∃ h d st, copyBytes m.heap (m.str i) bs len mem = .ok (h, d, st) ∧
      Values ⟨h, Function.update m.str i d⟩
        (if mem.isSome then Function.update v i (bs.take len.toNat) else v) := by
  cases mem with
  | none =>
    obtain ⟨-, -, -, hcode⟩ := copyBytes_ok m.heap (m.str i) hok 0
    refine ⟨_, _, _, hcode, ?_⟩
    rw [Function.update_eq_self]
    exact hv
  | some p =>
    obtain ⟨block, hblock, hcode, -⟩ := copyBytes_ok m.heap (m.str i) hok p
    exact ⟨_, _, _, hcode, hv.create hi hlen hok (hmem p rfl) hblock⟩

/-- **Every call succeeds**, and does to the strings what it does to the values. -/
theorem Values.step (hv : Values m v) (hact : Meant m act) :
    ∃ m', Strings.step m act = some (.ok m') ∧ Values m' (act.value v) := by
  cases act with
  | copy i bs len mem =>
    obtain ⟨hi, hlen, hok, hmem⟩ := hact
    obtain ⟨h, d, st, hcode, hv'⟩ := hv.copy hi hlen hok hmem
    rw [← stringCopy_eq m.heap hi hlen] at hcode
    refine ⟨⟨h, Function.update m.str i d⟩, ?_, ?_⟩
    · simp only [Strings.step, hcode, ok_bind, pure_eq_ok]
    · cases mem <;> exact hv'
  | duplicate i j mem =>
    obtain ⟨hi, hj, hmem⟩ := hact
    obtain ⟨hlen, hdata, hok, htext⟩ := (hv.has j).copyOk hj
    obtain ⟨h, d, st, hcode, hv'⟩ := hv.copy hi hlen hok hmem
    rw [← stringDuplicate_eq m.heap hi hlen hdata] at hcode
    refine ⟨⟨h, Function.update m.str i d⟩, ?_, ?_⟩
    · simp only [Strings.step, hcode, ok_bind, pure_eq_ok]
    · rw [htext] at hv'
      cases mem <;> exact hv'
  | deinit i =>
    cases hd : (m.str i).data with
    | none =>
      obtain ⟨ht, hs⟩ := (hv.has i).data_none hd
      have hcode : stringDeinit m.heap (m.str i) = .ok (m.heap, m.str i) := by
        rw [hs]
        rfl
      refine ⟨m, ?_, ?_⟩
      · simp only [Strings.step, hcode, ok_bind, Function.update_eq_self, pure_eq_ok]
      · rw [Act.value, ← ht, Function.update_eq_self]
        exact hv
    | some p =>
      rcases hv.has i with ⟨-, hs⟩ | ⟨ht, -, hlen, -, q, block, hq, hblock, -⟩
      · rw [hs] at hd
        exact absurd hd (by simp [stringInit])
      · obtain rfl := Option.some.inj (hd.symm.trans hq)
        have hne := len_ne_zero ht hlen
        refine ⟨_, ?_, hv.destroy hd⟩
        simp [Strings.step, stringDeinit, CString.valid, hd, hne, hblock, ASSERT]

theorem Values.start : Values Memory.start fun _ => [] :=
  ⟨fun _ => Or.inl ⟨rfl, rfl⟩, fun _ _ _ h => absurd h (by simp [Memory.start, stringInit]),
    fun _ h => absurd rfl h⟩

theorem Values.run {as : List Act} (h : Machine.Run Strings.step Meant .start as m) :
    Values m (as.foldl Act.value fun _ => []) := by
  induction h with
  | nil => exact Values.start
  | snoc _ hact hstep ih =>
    rw [List.foldl_append]
    obtain ⟨m', hcode, hv'⟩ := ih.step hact
    obtain rfl := Except.ok.inj (Option.some.inj (hcode.symm.trans hstep))
    exact hv'

/-- **Strings are values.**  In every run of calls as they are meant, with every answer of the
allocator, no call reads or writes outside of a block or fails an assertion; each string has the
value that the calls give it, whatever happens to the others, and `string_empty` says whether that
value is empty; and every block is the block of one string, so that nothing is leaked or freed
twice. -/
theorem strings_are_values {as : List Act} (h : Machine.Run Strings.step Meant .start as m) :
    Values m (as.foldl Act.value fun _ => []) ∧
      (∀ act, Meant m act → ∃ m', Strings.step m act = some (.ok m')) ∧
      ∀ i, stringEmpty (m.str i) = .ok (decide (as.foldl Act.value (fun _ => []) i = [])) := by
  have hv := Values.run h
  exact ⟨hv, fun act hact => (hv.step hact).imp fun _ h => h.1, fun i => (hv.has i).stringEmpty_eq⟩

/-- The string with the number 0 is created from three bytes. -/
theorem hiRun : Machine.Run Strings.step Meant .start [.copy 0 [104, 105, 0] 2#32 (some 7)]
    ⟨Function.update (fun _ => none) 7 (some [104, 105, 0]),
      Function.update (fun _ => stringInit) 0 ⟨2#32, some 7⟩⟩ :=
  .single ⟨rfl, by decide, ⟨by decide, by decide, by decide⟩, fun _ _ => rfl⟩ rfl

/-- A second string is a copy of the first, and then the first is given up. -/
theorem strings_are_values_two :
    ∃ m, Machine.Run Strings.step Meant .start
        [.copy 0 [104, 105, 0] 2#32 (some 7), .duplicate 1 0 (some 8), .deinit 0] m ∧
      Has m.heap (m.str 0) [] ∧ Has m.heap (m.str 1) [104, 105] := by
  have run₂ := hiRun.append (Machine.Run.single (show Meant _ (.duplicate 1 0 (some 8)) from
    ⟨rfl, by decide, fun p hp => by obtain rfl := Option.some.inj hp; rfl⟩) rfl)
  have run := run₂.append (Machine.Run.single (show Meant _ (.deinit 0) from trivial) rfl)
  obtain ⟨hv, -⟩ := strings_are_values run
  exact ⟨_, run, hv.has 0, hv.has 1⟩

/-! ## 4. `string_compare` -/

/-- Two strings of the same length are compared byte by byte. -/
theorem strncmp_text (r₁ r₂ : List Byte) (hlen : t₁.length = t₂.length) (h₁ : 0 ∉ t₁) :
    ∃ v, strncmp t₁.length (t₁ ++ r₁) (t₂ ++ r₂) = .ok v ∧ (v = 0 ↔ t₁ = t₂) ∧
      (v < 0 ↔ t₁ < t₂) := by
  induction t₁ generalizing t₂ with
  | nil =>
    obtain rfl := List.eq_nil_of_length_eq_zero hlen.symm
    exact ⟨0, rfl, by simp, by simp⟩
  | cons a as ih =>
    cases t₂ with
    | nil => simp at hlen
    | cons b bs =>
      simp only [List.mem_cons, not_or] at h₁
      simp only [List.length_cons, Nat.add_right_cancel_iff] at hlen
      simp only [List.length_cons, List.cons_append, strncmp, List.cons_lt_cons_iff,
        List.cons.injEq]
      by_cases hab : a = b
      · subst hab
        obtain ⟨v, hcode, hv⟩ := ih hlen h₁.2
        refine ⟨v, ?_, by simpa using hv⟩
        rw [if_neg (by simp), if_neg (Ne.symm h₁.1)]
        exact hcode
      · have hne : a.toNat ≠ b.toNat := fun h => hab (BitVec.eq_of_toNat_eq h)
        refine ⟨_, if_pos hab, ?_, ?_⟩
        · simp only [hab, false_and, iff_false]
          omega
        · simp only [hab, false_and, or_false, BitVec.lt_def]
          omega

/-- What can be read of a string. -/
theorem Has.reads (h₁ : Has h s t) :
    s.len.toNat = t.length ∧ 0 ∉ t ∧ ∃ r, readable h s.data = t ++ r := by
  rcases h₁ with ⟨rfl, rfl⟩ | ⟨-, hzero, hlen, -, p, block, hp, hblock, r, rfl⟩
  · exact ⟨rfl, by simp, [], rfl⟩
  · exact ⟨hlen, hzero, 0 :: r, by simp [readable, hp, hblock]⟩

/-- **What `string_compare` decides.**  After any run of calls as they are meant, two strings are
equal if and only if the result is 0.  Of two different strings of the same length it finds the
smaller one; of two strings of different lengths it never does, since the result is 1 both ways. -/
theorem string_compare_decides {as : List Act} (h : Machine.Run Strings.step Meant .start as m)
    (i j : Nat) (hv : as.foldl Act.value (fun _ => []) = v) :
    ∃ r, stringCompare m.heap (m.str i) (m.str j) = .ok r ∧ (r = 0 ↔ v i = v j) ∧
      ((v i).length = (v j).length → (r < 0 ↔ v i < v j)) ∧
      ((v i).length ≠ (v j).length → r = 1) := by
  have hvals := hv ▸ Values.run h
  obtain ⟨hi, hzero, r₁, hread₁⟩ := (hvals.has i).reads
  obtain ⟨hj, -, r₂, hread₂⟩ := (hvals.has j).reads
  have hlen : (m.str i).len = (m.str j).len ↔ (v i).length = (v j).length := by
    rw [← hi, ← hj]
    exact ⟨congrArg _, BitVec.eq_of_toNat_eq⟩
  by_cases heq : (v i).length = (v j).length
  · rw [stringCompare, if_neg (not_not.mpr (hlen.mpr heq)), hi, hread₁, hread₂]
    obtain ⟨r, hcode, heqv, hneg⟩ := strncmp_text r₁ r₂ heq hzero
    exact ⟨r, hcode, heqv, fun _ => hneg, fun hne => absurd heq hne⟩
  · -- the difference of two different lengths is positive, whichever is greater
    have hpos : 0 < (m.str i).len - (m.str j).len := by
      rw [BitVec.lt_def, BitVec.toNat_sub, hi, hj]
      have := (m.str i).len.isLt
      have := (m.str j).len.isLt
      have hz : (0 : BitVec 32).toNat = 0 := rfl
      omega
    rw [stringCompare, if_pos (mt hlen.mp heq), if_pos hpos]
    refine ⟨1, rfl, ?_, fun h => absurd h heq, fun _ => rfl⟩
    exact ⟨fun h => absurd h (by decide), fun h => absurd (congrArg _ h) heq⟩

/-- A short string and a long one, both ways. -/
theorem string_compare_decides_short :
    ∃ m, Machine.Run Strings.step Meant .start
        [.copy 0 [104, 105, 0] 2#32 (some 7), .copy 1 [104, 0] 1#32 (some 8)] m ∧
      stringCompare m.heap (m.str 0) (m.str 1) = .ok 1 ∧
      stringCompare m.heap (m.str 1) (m.str 0) = .ok 1 := by
  have run := hiRun.append (Machine.Run.single (show Meant _ (.copy 1 [104, 0] 1#32 (some 8)) from
    ⟨rfl, by decide, ⟨by decide, by decide, by decide⟩,
      fun p hp => by obtain rfl := Option.some.inj hp; rfl⟩) rfl)
  obtain ⟨r, hcode, -, -, hone⟩ := string_compare_decides run 0 1 rfl
  obtain ⟨r', hcode', -, -, hone'⟩ := string_compare_decides run 1 0 rfl
  rw [hone (by decide)] at hcode
  rw [hone' (by decide)] at hcode'
  exact ⟨_, run, hcode, hcode'⟩

end Strings
end Corosched
