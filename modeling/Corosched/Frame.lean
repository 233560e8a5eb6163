/-
# The first frame of a coroutine

`coro_alloc` at the level of bytes: one block holds the header `struct coroutine` and, after it,
the stack, and `coro_create` lays on top of the stack what the first `coro_transfer` into it pops.
The configuration is amd64 with `CORO_ASM` and `CS_ASSERT_PANIC`.  Sizes and addresses are 64-bit
words and wrap around, and `ctx->sp` is read from memory wherever the source reads it.

`frame_in_block` says when the eight words that `coro_create` writes lie in the stack, and
`FrameInBlock.headerHas` that the header is then as `coro_alloc` of `Corosched.Coroutine` has it.
-/
import Corosched.Coroutine
import Corosched.Lib.Amd64

namespace Corosched
namespace Frame

open Bytes Amd64

/-! ## 1. The layout of `struct coroutine` -/

/-- The size and the alignment of a type. -/
structure Layout where
  size : Nat
  align : Nat

/-- The first multiple of `a` from `n` on. -/
def alignUp (a n : Nat) : Nat := (n + a - 1) / a * a

/-- The offsets of the members that start at `n` or later, and where the last ends. -/
def offsets : Nat → List Layout → List Nat × Nat
  | n, [] => ([], n)
  | n, f :: fs =>
    let o := alignUp f.align n
    let (os, e) := offsets (o + f.size) fs
    (o :: os, e)

/-- A `struct`: padded to the largest alignment of its members. -/
def struct (fs : List Layout) : Layout :=
  let a := fs.foldl (fun a f => max a f.align) 1
  ⟨alignUp a (offsets 0 fs).2, a⟩

/-- A pointer, and the integers that are as wide. -/
def word : Layout := ⟨8, 8⟩
def int : Layout := ⟨4, 4⟩
def byte : Layout := ⟨1, 1⟩

/-- `struct rbnode`: `left`, `right`, `parent`, `key`, `data`, `color`. -/
def rbnode : Layout := struct [word, word, word, word, word, byte]

/-- `struct coroutine`: `ws_tqe`, `cid`, `ctx`, `status`, `sched`, `need_parallel`, `node`. -/
def coroutine : List Layout :=
  [struct [word, word], word, struct [word], int, word, byte, rbnode]

/-- `sizeof(coroutine)`. -/
def header : BitVec 64 := BitVec.ofNat 64 (struct coroutine).size

/-- The offset of the `i`th member. -/
def member (i : Nat) : BitVec 64 := BitVec.ofNat 64 ((offsets 0 coroutine).1.getD i 0)

/-- The offset of `ctx`. -/
def ctxOffset : BitVec 64 := member 2

theorem header_toNat : header.toNat = 104 := rfl
theorem ctxOffset_toNat : ctxOffset.toNat = 24 := rfl

/-! ## 2. `coro_create` -/

/-- The addresses of two functions. -/
structure Symbols where
  abort : BitVec 64
  coroInit : BitVec 64

/-- Memory, and the static variables of `cs_coro.c`. -/
structure Process where
  mem : Mem
  coroInitFunc : BitVec 64
  coroInitArg : BitVec 64
  newCoro : BitVec 64
  createCoro : BitVec 64

/-- `NUM_SAVED`. -/
def NUM_SAVED : Nat := 6

/-- `*--ctx->sp = v`, and the address of the word written. -/
def pushWord (m : Mem) (ctx v : BitVec 64) : Mem × BitVec 64 :=
  let sp := m.load ctx - 8#64
  ((m.store ctx sp).store sp v, sp)

/-- `coro_create(ctx, coro, arg, sptr, ssize)` up to its `coro_transfer`, where `nctx` is the
address of its local context, and the words it has written through `ctx->sp`. -/
def coroCreate (sym : Symbols) (s : Process) (nctx ctx coro arg sptr ssize : BitVec 64) :
    Process × List (BitVec 64) :=
  if coro = 0#64 then (s, [])
  else
    let m := s.mem.store ctx (ssize + sptr)
    let (m, w₁) := pushWord m ctx sym.abort
    let (m, w₂) := pushWord m ctx sym.coroInit
    let m := m.store ctx (m.load ctx - BitVec.ofNat 64 (8 * NUM_SAVED))
    let sp := m.load ctx
    let m := m.fill sp 0 (8 * NUM_SAVED)
    (⟨m, coro, arg, ctx, nctx⟩,
      w₁ :: w₂ :: (List.range NUM_SAVED).map fun i => sp + BitVec.ofNat 64 (8 * i))

/-- The eight words below `top`, in the order of `coro_create`. -/
def frameWords (top : BitVec 64) : List (BitVec 64) :=
  (top - 8#64) :: (top - 16#64) ::
    (List.range NUM_SAVED).map fun i => top - 64#64 + BitVec.ofNat 64 (8 * i)

variable {sym : Symbols} {s : Process} {nctx ctx coro arg sptr ssize : BitVec 64}

/-- A frame is set up if there is a function to run. -/
theorem coroCreate_nil_iff :
    (coroCreate sym s nctx ctx coro arg sptr ssize).2 = [] ↔ coro = 0#64 := by
  rw [coroCreate]
  split_ifs with hcoro
  · simp [hcoro]
  · simp [hcoro]

theorem pushWord_spec {m : Mem} {ctx sp v : BitVec 64} (h : m.load ctx = sp)
    (hsp : Apart ctx 8 (sp - 8#64) 8) :
    ∃ m', pushWord m ctx v = (m', sp - 8#64) ∧ m'.load ctx = sp - 8#64 ∧
      m'.load (sp - 8#64) = v ∧ ∀ x, ¬ In x ctx 8 → ¬ In x (sp - 8#64) 8 → m' x = m x := by
  subst h
  refine ⟨_, rfl, ?_, Mem.load_store_same _ _ _, fun x hx hxs => ?_⟩
  · rw [Mem.load_store_apart hsp, Mem.load_store_same]
  · rw [Mem.store_of_not_in hxs, Mem.store_of_not_in hx]

/-- **What `coro_create` leaves**, if the frame does not reach `ctx`: the frame is the eight words
below `sptr + ssize`, `ctx->sp` points to the lowest, `coro_init` is the return address, and
nothing else is written. -/
theorem coroCreate_spec (sym : Symbols) (s : Process) (nctx arg : BitVec 64) (hcoro : coro ≠ 0#64)
    {top : BitVec 64} (htop : ssize + sptr = top) (hctx : Apart ctx 8 (top - 64#64) 64) :
    ∃ m, coroCreate sym s nctx ctx coro arg sptr ssize
        = (⟨m, coro, arg, ctx, nctx⟩, frameWords top) ∧
      m.load ctx = top - 64#64 ∧ m.load (top - 64#64 + 48#64) = sym.coroInit ∧
      ∀ x, ¬ In x ctx 8 → ¬ In x (top - 64#64) 64 → m x = s.mem x := by
  -- the frame, as parts of the 64 bytes below `top`
  have part : ∀ {d k : Nat}, d + k ≤ 64 → Apart ctx 8 (top - 64#64 + BitVec.ofNat 64 d) k :=
    fun hd => hctx.mono (fun _ => id) fun _ hx => hx.of_add hd
  have h8 : top - 8#64 = top - 64#64 + BitVec.ofNat 64 56 := by bv_omega
  have h16 : top - 8#64 - 8#64 = top - 64#64 + BitVec.ofNat 64 48 := by bv_omega
  have h64 : top - 64#64 + BitVec.ofNat 64 48 - BitVec.ofNat 64 (8 * NUM_SAVED) = top - 64#64 :=
    BitVec.add_sub_cancel _ _
  obtain ⟨m₁, hpush₁, hsp₁, -, hframe₁⟩ := pushWord_spec (v := sym.abort)
    (Mem.load_store_same s.mem ctx top) (h8 ▸ part (by omega))
  obtain ⟨m₂, hpush₂, hsp₂, hinit, hframe₂⟩ := pushWord_spec (v := sym.coroInit) hsp₁
    (h16 ▸ part (by omega))
  rw [h16] at hpush₂ hsp₂ hinit hframe₂
  rw [h8] at hframe₁
  rw [coroCreate, if_neg hcoro, htop]
  simp only [hpush₁, hpush₂, hsp₂, h64, Mem.load_store_same]
  refine ⟨(m₂.store ctx (top - 64#64)).fill (top - 64#64) 0 (8 * NUM_SAVED), ?_, ?_, ?_,
    fun x hx hxf => ?_⟩
  · rw [frameWords, show top - 64#64 + 48#64 = top - 16#64 by bv_omega]
  · have hsaved : Apart ctx 8 (top - 64#64) 48 :=
      hctx.mono (fun _ => id) fun _ hx => Nat.lt_of_lt_of_le hx (by omega)
    exact (Mem.load_fill_apart hsaved).trans (Mem.load_store_same _ _ _)
  · refine (Mem.load_fill_apart (apart_next _ (by decide))).trans ?_
    exact (Mem.load_store_apart (part (d := 48) (k := 8) (by omega)).symm).trans hinit
  · have out : ∀ {d k : Nat}, d + k ≤ 64 → ¬ In x (top - 64#64 + BitVec.ofNat 64 d) k :=
      fun hd hin => hxf (hin.of_add hd)
    have hsaved : ¬ In x (top - 64#64) 48 := fun hin => hxf (Nat.lt_of_lt_of_le hin (by omega))
    exact (Mem.fill_of_not_in hsaved).trans ((Mem.store_of_not_in hx).trans
      ((hframe₂ x hx (out (by omega))).trans ((hframe₁ x hx (out (by omega))).trans
        (Mem.store_of_not_in hx))))

/-- The eight words lie below the top, which may be the end of memory. -/
theorem frameWords_bounds {e : Nat} (he : 64 ≤ e) (he' : e ≤ 2 ^ 64) {w : BitVec 64}
    (hw : w ∈ frameWords (BitVec.ofNat 64 e)) : e - 64 ≤ w.toNat ∧ w.toNat + 8 ≤ e := by
  simp only [frameWords, List.mem_cons, List.mem_map, List.mem_range, NUM_SAVED] at hw
  rcases hw with rfl | rfl | ⟨i, hi, rfl⟩
  all_goals
    simp only [BitVec.toNat_sub, BitVec.toNat_add, BitVec.toNat_ofNat]
    omega

theorem mem_frameWords (top : BitVec 64) : top - 64#64 ∈ frameWords top := by
  simp only [frameWords, List.mem_cons, List.mem_map, List.mem_range]
  exact Or.inr (Or.inr ⟨0, by decide, BitVec.add_zero _⟩)

/-! ## 3. `coro_alloc` -/

/-- What `coro_alloc` leaves: memory, what it returns, and the words of the frame. -/
structure Allocated where
  process : Process
  co : Option (BitVec 64)
  words : List (BitVec 64)

/-- `coro_alloc(fn, arg, stack)` up to the `coro_transfer` of `coro_create`. -/
def coroAlloc (sym : Symbols) (s : Process) (malloc : BitVec 64 → Option (BitVec 64))
    (nctx fn arg stack : BitVec 64) : Except Fault Allocated := do
  let size := header + stack
  ASSERT (decide (size ≠ 0#64))
  match malloc size with
  | none => pure ⟨s, none, []⟩
  | some co =>
    let s := { s with mem := s.mem.fill co 0 header.toNat }
    let (s, words) := coroCreate sym s nctx (co + ctxOffset) fn arg (co + header) stack
    pure ⟨s, some co, words⟩

/-- A block is not at the null address and does not wrap around. -/
def MallocOk (malloc : BitVec 64 → Option (BitVec 64)) : Prop :=
  ∀ n p, malloc n = some p → p ≠ 0#64 ∧ p.toNat + n.toNat ≤ 2 ^ 64

/-- **The frame lies in the block, after the header.** -/
def FrameInBlock (stack : BitVec 64) (a : Allocated) : Prop :=
  ∀ co, a.co = some co → ∀ w ∈ a.words,
    co.toNat + header.toNat ≤ w.toNat ∧ w.toNat + 8 ≤ co.toNat + (header + stack).toNat

variable {malloc : BitVec 64 → Option (BitVec 64)} {fn stack co : BitVec 64}

theorem header_add_toNat (stack : BitVec 64) :
    (header + stack).toNat = (104 + stack.toNat) % 2 ^ 64 := by
  rw [BitVec.toNat_add, header_toNat]

theorem coroAlloc_some {nctx arg : BitVec 64} {s' : Process} {words : List (BitVec 64)}
    (hsize : header + stack ≠ 0#64) (hco : malloc (header + stack) = some co)
    (hcreate : coroCreate sym { s with mem := s.mem.fill co 0 header.toNat } nctx (co + ctxOffset)
      fn arg (co + header) stack = (s', words)) :
    coroAlloc sym s malloc nctx fn arg stack = .ok ⟨s', some co, words⟩ := by
  simp only [coroAlloc, decide_eq_true hsize, hco, hcreate]
  rfl

theorem coroAlloc_ok (sym : Symbols) (s : Process) (nctx fn arg : BitVec 64)
    (hsize : header + stack ≠ 0#64) (hco : malloc (header + stack) = some co) :
    ∃ a, coroAlloc sym s malloc nctx fn arg stack = .ok a ∧ a.co = some co := by
  rcases hcreate : coroCreate sym { s with mem := s.mem.fill co 0 header.toNat } nctx
    (co + ctxOffset) fn arg (co + header) stack with ⟨s', words⟩
  exact ⟨_, coroAlloc_some hsize hco hcreate, rfl⟩

/-- Where `coro_alloc` returns a coroutine the size was accepted and the block is `malloc`'s. -/
theorem coroAlloc_inv {nctx arg : BitVec 64} {a : Allocated}
    (h : coroAlloc sym s malloc nctx fn arg stack = .ok a) (hco : a.co = some co) :
    header + stack ≠ 0#64 ∧ malloc (header + stack) = some co ∧ (a.words = [] ↔ fn = 0#64) := by
  by_cases hne : header + stack = 0#64
  · simp [coroAlloc, hne] at h
  · simp only [coroAlloc, decide_eq_true hne, ASSERT_true, ok_bind] at h
    cases hblock : malloc (header + stack) with
    | none =>
      rw [hblock] at h
      cases h
      cases hco
    | some p =>
      rw [hblock] at h
      cases h
      exact ⟨hne, hco, coroCreate_nil_iff⟩

/-- **The frame `coro_alloc` sets up**, where the size does not wrap: eight words below the end of
the block. -/
theorem coroAlloc_spec (sym : Symbols) (s : Process) (nctx arg : BitVec 64)
    (hmalloc : MallocOk malloc) (hfn : fn ≠ 0#64) (hsize : stack.toNat + 104 < 2 ^ 64)
    (hco : malloc (header + stack) = some co) :
    ∃ m top, top = BitVec.ofNat 64 (co.toNat + 104 + stack.toNat) ∧
      coroAlloc sym s malloc nctx fn arg stack
        = .ok ⟨⟨m, fn, arg, co + ctxOffset, nctx⟩, some co, frameWords top⟩ ∧
      m.load (co + ctxOffset) = top - 64#64 ∧ m.load (top - 64#64 + 48#64) = sym.coroInit ∧
      ∀ x, ¬ In x (co + ctxOffset) 8 → ¬ In x (top - 64#64) 64 →
        m x = s.mem.fill co 0 header.toNat x := by
  obtain ⟨-, hend⟩ := hmalloc _ _ hco
  rw [header_add_toNat] at hend
  rw [Nat.mod_eq_of_lt (by omega)] at hend
  have hne : header + stack ≠ 0#64 := by
    intro h0
    have hmod := (congrArg BitVec.toNat h0).symm.trans (header_add_toNat stack)
    rw [BitVec.toNat_ofNat] at hmod
    omega
  have htop : stack + (co + header) = BitVec.ofNat 64 (co.toNat + 104 + stack.toNat) := by
    apply BitVec.eq_of_toNat_eq
    simp only [BitVec.toNat_add, header_toNat, BitVec.toNat_ofNat]
    omega
  -- even without any stack the frame starts above `ctx`
  have hctx : Apart (co + ctxOffset) 8
      (BitVec.ofNat 64 (co.toNat + 104 + stack.toNat) - 64#64) 64 := by
    refine apart_of_le ?_ ?_
    all_goals
      simp only [BitVec.toNat_add, BitVec.toNat_sub, ctxOffset_toNat, BitVec.toNat_ofNat]
      omega
  obtain ⟨m, hcode, hload, hinit, hframe⟩ := coroCreate_spec sym
    { s with mem := s.mem.fill co 0 header.toNat } nctx arg hfn htop hctx
  exact ⟨m, _, rfl, coroAlloc_some hne hco hcode, hload, hinit, hframe⟩

/-- A frame that lies in the block shows that there was room. -/
theorem FrameInBlock.room {a : Allocated} {nctx arg : BitVec 64} (h : FrameInBlock stack a)
    (hmalloc : MallocOk malloc) (hfn : fn ≠ 0#64)
    (ha : coroAlloc sym s malloc nctx fn arg stack = .ok a) (hco : a.co = some co) :
    64 ≤ stack.toNat ∧ stack.toNat + 104 < 2 ^ 64 := by
  obtain ⟨-, hblock, hnil⟩ := coroAlloc_inv ha hco
  by_cases hsize : stack.toNat + 104 < 2 ^ 64
  · -- the lowest word is 64 bytes below the top
    obtain ⟨m, top, htop, hcode, -⟩ := coroAlloc_spec sym s nctx arg hmalloc hfn hsize hblock
    obtain rfl := Except.ok.inj (hcode.symm.trans ha)
    obtain ⟨hlow, -⟩ := h co rfl _ (mem_frameWords top)
    obtain ⟨-, hend⟩ := hmalloc _ _ hblock
    rw [header_add_toNat] at hend
    rw [header_toNat, htop] at hlow
    simp only [BitVec.toNat_sub, BitVec.toNat_ofNat] at hlow
    omega
  · -- a block shorter than the header has no room for any word
    obtain ⟨w, hw⟩ := List.exists_mem_of_ne_nil _ (mt hnil.mp hfn)
    obtain ⟨hlow, hhigh⟩ := h co hco w hw
    rw [header_toNat] at hlow
    rw [header_add_toNat] at hhigh
    have := stack.isLt
    omega

/-- Where there is room the frame lies in the block. -/
theorem frameInBlock_of_room {a : Allocated} {nctx arg : BitVec 64} (hmalloc : MallocOk malloc)
    (hroom : 64 ≤ stack.toNat) (hsize : stack.toNat + 104 < 2 ^ 64)
    (ha : coroAlloc sym s malloc nctx fn arg stack = .ok a) : FrameInBlock stack a := by
  intro co hco w hw
  obtain ⟨-, hblock, hnil⟩ := coroAlloc_inv ha hco
  have hfn : fn ≠ 0#64 := fun hfn => List.ne_nil_of_mem hw (hnil.mpr hfn)
  obtain ⟨m, top, rfl, hcode, -⟩ := coroAlloc_spec sym s nctx arg hmalloc hfn hsize hblock
  obtain rfl := Except.ok.inj (hcode.symm.trans ha)
  obtain ⟨-, hend⟩ := hmalloc _ _ hblock
  rw [header_add_toNat] at hend ⊢
  obtain ⟨hlow, hhigh⟩ := frameWords_bounds (by omega) (by omega) hw
  rw [header_toNat]
  omega

/-- **The header is left cleared** but for `ctx`, where the frame lies in the block. -/
theorem FrameInBlock.header_clear {a : Allocated} {nctx arg : BitVec 64}
    (h : FrameInBlock stack a) (hmalloc : MallocOk malloc) (hfn : fn ≠ 0#64)
    (ha : coroAlloc sym s malloc nctx fn arg stack = .ok a) (hco : a.co = some co) {x : BitVec 64}
    (hx : In x co header.toNat) (hctx : ¬ In x (co + ctxOffset) 8) : a.process.mem x = 0 := by
  obtain ⟨hroom, hsize⟩ := h.room hmalloc hfn ha hco
  obtain ⟨-, hblock, -⟩ := coroAlloc_inv ha hco
  obtain ⟨m, top, rfl, hcode, -, -, hframe⟩ :=
    coroAlloc_spec sym s nctx arg hmalloc hfn hsize hblock
  obtain rfl := Except.ok.inj (hcode.symm.trans ha)
  obtain ⟨-, hend⟩ := hmalloc _ _ hblock
  rw [header_add_toNat] at hend
  refine (hframe x hctx fun hin => ?_).trans (Mem.fill_of_in hx)
  rw [header_toNat] at hx
  simp only [In, BitVec.toNat_sub, BitVec.toNat_ofNat] at hx hin
  omega

/-- The header at `co` has the links `e`, and of the coroutine `c` what `coro_alloc` sets before
`coro_create`; a null pointer is 0, and so is `false`. -/
structure HeaderHas (m : Mem) (co : BitVec 64) (e : Tailq.Entry SchedId Addr) (c : Coroutine) :
    Prop where
  tqe_next : m.load (co + member 0) = 0#64 ↔ e.tqe_next = none
  tqe_prev : m.load (co + member 0 + 8#64) = 0#64 ↔ e.tqe_prev = none
  cid : (m.load (co + member 1)).toInt = c.cid
  sched : m.load (co + member 4) = 0#64 ↔ c.sched = none
  needParallel : m (co + member 5) = 0#8 ↔ c.needParallel = false

/-- **Both levels allocate the same coroutine.**  Where the frame lies in the block, the header that
`coro_create` leaves is what `coro_alloc` puts into the state of `Corosched.State`. -/
theorem FrameInBlock.headerHas {a : Allocated} {nctx arg : BitVec 64} {co : Addr}
    (h : FrameInBlock stack a) (hmalloc : MallocOk malloc) (hfn : fn ≠ 0#64)
    (ha : coroAlloc sym s malloc nctx fn arg stack = .ok a) (hco : a.co = some co.val) (st : State)
    (body : Body) :
    ∃ e c, (Corosched.coroAlloc st body co).queue.entry co = some e ∧
      (Corosched.coroAlloc st body co).coro co = some c ∧
      HeaderHas a.process.mem co.val e c := by
  -- the members are in the header, below or above `ctx`
  have hclear : ∀ {d n : Nat}, d + n ≤ 24 ∨ 32 ≤ d ∧ d + n ≤ 104 →
      ∀ x, In x (co.val + BitVec.ofNat 64 d) n → a.process.mem x = 0#8 := by
    intro d n hd x hx
    refine h.header_clear hmalloc hfn ha hco (hx.of_add ?_) fun hctx => ?_
    · rw [header_toNat]
      omega
    · simp only [In, BitVec.toNat_sub, BitVec.toNat_add, BitVec.toNat_ofNat, ctxOffset_toNat]
        at hx hctx
      omega
  have hword : ∀ {d : Nat}, d + 8 ≤ 24 ∨ 32 ≤ d ∧ d + 8 ≤ 104 →
      a.process.mem.load (co.val + BitVec.ofNat 64 d) = 0#64 := fun hd => Mem.load_zero (hclear hd)
  refine ⟨.clear, ⟨0, body, .free, none, false⟩, Function.update_self _ _ _,
    Function.update_self _ _ _, ?_, ?_, ?_, ?_, ?_⟩
  · exact iff_of_true (hword (d := 0) (by omega)) rfl
  · rw [show member 0 = 0#64 from rfl, BitVec.add_zero]
    exact iff_of_true (hword (d := 8) (by omega)) rfl
  · rw [show co.val + member 1 = co.val + BitVec.ofNat 64 16 from rfl, hword (by omega)]
    rfl
  · exact iff_of_true (hword (d := 40) (by omega)) rfl
  · refine iff_of_true (hclear (d := 48) (n := 1) (by omega) _ ?_) rfl
    rw [In, show member 5 = BitVec.ofNat 64 48 from rfl, BitVec.sub_self]
    decide

/-- **Where the frame lies.**  The eight words that `coro_create` writes are in the block and leave
the header alone exactly if there are none (no function, no block, or the assertion stops a size
that wraps to `0`) or the stack has room for eight words and its size together with the header does
not wrap.  Nothing is said of the switch at the end of `coro_create`: the frame of `coro_init`
itself needs more than these 64 bytes. -/
theorem frame_in_block (sym : Symbols) (s : Process) (nctx fn arg stack : BitVec 64)
    (hmalloc : MallocOk malloc) :
    (∀ a, coroAlloc sym s malloc nctx fn arg stack = .ok a → FrameInBlock stack a) ↔
      fn = 0#64 ∨ malloc (header + stack) = none ∨ header + stack = 0#64 ∨
        (64 ≤ stack.toNat ∧ stack.toNat + 104 < 2 ^ 64) := by
  constructor
  · intro h
    by_cases hfn : fn = 0#64
    · exact Or.inl hfn
    cases hco : malloc (header + stack) with
    | none => exact Or.inr (Or.inl rfl)
    | some co =>
      by_cases hne : header + stack = 0#64
      · exact Or.inr (Or.inr (Or.inl hne))
      · obtain ⟨a, hcode, haco⟩ := coroAlloc_ok sym s nctx fn arg hne hco
        exact Or.inr (Or.inr (Or.inr ((h a hcode).room hmalloc hfn hcode haco)))
  · intro h a ha co hco w hw
    obtain ⟨hne, hblock, hnil⟩ := coroAlloc_inv ha hco
    have hfn : fn ≠ 0#64 := fun hfn => List.ne_nil_of_mem hw (hnil.mpr hfn)
    obtain ⟨hroom, hsize⟩ : 64 ≤ stack.toNat ∧ stack.toNat + 104 < 2 ^ 64 := by
      simpa only [hfn, hblock, hne, false_or, reduceCtorEq] using h
    exact frameInBlock_of_room hmalloc hroom hsize ha co hco w hw

/-- A `malloc` with 64 KiB to give, at address 4096. -/
def malloc64K (n : BitVec 64) : Option (BitVec 64) := if n.toNat ≤ 65536 then some 4096#64 else none

theorem malloc64K_ok : MallocOk malloc64K := by
  intro n p hp
  rw [malloc64K] at hp
  split_ifs at hp with hn
  cases hp
  exact ⟨by decide, by simp only [BitVec.toNat_ofNat]; omega⟩

/-- A stack of 1024 bytes. -/
theorem frame_in_block_kilobyte :
    (∀ a, coroAlloc ⟨1#64, 2#64⟩ ⟨fun _ => 0, 0#64, 0#64, 0#64, 0#64⟩ malloc64K 131072#64 3#64 0#64
        1024#64 = .ok a → FrameInBlock 1024#64 a) ↔
      3#64 = 0#64 ∨ malloc64K (header + 1024#64) = none ∨ header + 1024#64 = 0#64 ∨
        (64 ≤ (1024#64).toNat ∧ (1024#64).toNat + 104 < 2 ^ 64) :=
  frame_in_block _ _ _ _ _ _ malloc64K_ok

/-- Without any stack all eight words fall into the header. -/
theorem frame_in_header :
    ∃ a, coroAlloc ⟨1#64, 2#64⟩ ⟨fun _ => 0, 0#64, 0#64, 0#64, 0#64⟩ malloc64K 131072#64 3#64 0#64
        0#64 = .ok a ∧
      a.co = some 4096#64 ∧ (∀ w ∈ a.words, 4096 ≤ w.toNat ∧ w.toNat + 8 ≤ 4096 + header.toNat) ∧
      a.words.length = 8 ∧ ¬ FrameInBlock 0#64 a := by
  obtain ⟨m, top, rfl, hcode, -⟩ := coroAlloc_spec ⟨1#64, 2#64⟩
    ⟨fun _ => 0, 0#64, 0#64, 0#64, 0#64⟩ 131072#64 0#64 malloc64K_ok
    (show 3#64 ≠ 0#64 by decide) (show (0#64).toNat + 104 < 2 ^ 64 by decide)
    (show malloc64K (header + 0#64) = some 4096#64 by decide)
  refine ⟨_, hcode, rfl, ?_, rfl, fun h => ?_⟩
  · intro w hw
    obtain ⟨hlow, hhigh⟩ := frameWords_bounds (e := 4200) (by omega) (by omega) hw
    rw [header_toNat]
    omega
  · exact absurd (h _ rfl _ (mem_frameWords _)).1 (by decide)

end Frame
end Corosched
