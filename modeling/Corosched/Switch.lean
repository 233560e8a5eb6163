/-
# The first switch into a coroutine

`coro_transfer` on amd64 saves six registers on the old stack, changes the stack pointer and takes
six registers and a return address from the new stack.  The first switch into a coroutine takes
what `coro_create` has laid there, and so arrives in `coro_init` with the stack pointer just below
the end of the block of `coro_alloc`.  The header in front of the stack is 104 bytes, which is not
a multiple of 16, so a block and a stack size that are leave the stack misaligned by 8.
-/
import Corosched.Frame

namespace Corosched
namespace Frame

open Bytes Amd64

/-! ## 1. `coro_transfer` -/

/-- `coro_transfer(prev, next)`, with `prev` in `rdi` and `next` in `rsi`. -/
def coroTransfer : List Instr :=
  [.push .rbp, .push .rbx, .push .r12, .push .r13, .push .r14, .push .r15,
    .movTo .rsp .rdi, .movFrom .rsi .rsp,
    .pop .r15, .pop .r14, .pop .r13, .pop .r12, .pop .rbx, .pop .rbp,
    .pop .rcx, .jmp .rcx]

/-- **A switch** continues at the return address above the saved registers of `next`, with the
stack pointer above it, if the two writes on the way, to the old stack and to `prev`, are apart
from `next` and from that address. -/
theorem coroTransfer_spec (c : Cpu) {sp : BitVec 64} (hsp : c.mem.load (c.reg .rsi) = sp)
    (hnext : Apart (c.reg .rsi) 8 (c.reg .rsp - 48#64) 48)
    (hnext' : Apart (c.reg .rsi) 8 (c.reg .rdi) 8)
    (hret : Apart (sp + 48#64) 8 (c.reg .rsp - 48#64) 48)
    (hret' : Apart (sp + 48#64) 8 (c.reg .rdi) 8) :
    (run c coroTransfer).reg .rsp = sp + 56#64 ∧
      (run c coroTransfer).rip = c.mem.load (sp + 48#64) := by
  have hcode : coroTransfer = [Reg.rbp, .rbx, .r12, .r13, .r14, .r15].map .push ++
      ([.movTo .rsp .rdi, .movFrom .rsi .rsp] ++
        ([Reg.r15, .r14, .r13, .r12, .rbx, .rbp].map .pop ++ [.pop .rcx, .jmp .rcx])) := rfl
  rw [hcode, run_append, run_append, run_append]
  obtain ⟨hreg₁, hmem₁⟩ := run_pushes c [.rbp, .rbx, .r12, .r13, .r14, .r15]
  generalize run c ([Reg.rbp, .rbx, .r12, .r13, .r14, .r15].map .push) = c₁ at hreg₁ hmem₁ ⊢
  -- the two writes spare what is read below
  have kept : ∀ a, Apart a 8 (c.reg .rsp - 48#64) 48 → Apart a 8 (c.reg .rdi) 8 →
      (c₁.mem.store (c₁.reg .rdi) (c₁.reg .rsp)).load a = c.mem.load a := by
    intro a hold hprev
    have hrdi : c₁.reg .rdi = c.reg .rdi := hreg₁ .rdi
    rw [hrdi, Mem.load_store_apart hprev]
    exact Mem.load_congr fun x hx => hmem₁ x (hold x hx)
  have hrsi : c₁.reg .rsi = c.reg .rsi := hreg₁ .rsi
  have hload := kept _ hnext hnext'
  have hinit := kept _ hret hret'
  generalize hc₂ : run c₁ [.movTo .rsp .rdi, .movFrom .rsi .rsp] = c₂
  have hmem₂ : c₂.mem = c₁.mem.store (c₁.reg .rdi) (c₁.reg .rsp) := by
    rw [← hc₂]
    rfl
  have hsp₂ : c₂.reg .rsp = sp := by
    rw [← hc₂, ← hsp, ← hload, ← hrsi]
    rfl
  have hrsp : Reg.rsp ∉ [Reg.r15, .r14, .r13, .r12, .rbx, .rbp] := by decide
  obtain ⟨hmem₃, hsp₃, -⟩ := run_pops c₂ hrsp
  generalize run c₂ ([Reg.r15, .r14, .r13, .r12, .rbx, .rbp].map .pop) = c₃ at hmem₃ hsp₃ ⊢
  replace hsp₃ : c₃.reg .rsp = sp + 48#64 := hsp₂ ▸ hsp₃
  constructor
  · show c₃.reg .rsp + 8#64 = _
    rw [hsp₃, BitVec.add_assoc]
    rfl
  · show c₃.mem.load (c₃.reg .rsp) = _
    rw [hmem₃, hmem₂, hsp₃]
    exact hinit

/-! ## 2. The switch in `coro_create` -/

/-- `coro_transfer(create_coro, new_coro)`, called with the return address `ret` on a thread whose
other registers are those of `c`, where it jumps. -/
def firstTransfer (s : Process) (c : Cpu) (ret entry : BitVec 64) : Cpu :=
  let c := (({ c with mem := s.mem } : Cpu).set .rdi s.createCoro).set .rsi s.newCoro
  run (c.call ret entry) coroTransfer

/-- At the entry of a function the stack pointer plus 8 is a multiple of 16. -/
def AbiAligned (c : Cpu) : Prop := (c.reg .rsp + 8#64).toNat % 16 = 0

/-- **Where the first switch arrives**: in `coro_init`, with the stack pointer one word below the
end of the block. -/
theorem firstTransfer_spec {sym : Symbols} {s : Process}
    {malloc : BitVec 64 → Option (BitVec 64)} {nctx fn arg stack co : BitVec 64} {a : Allocated}
    (c : Cpu) (ret entry : BitVec 64) (hmalloc : MallocOk malloc) (hfn : fn ≠ 0#64)
    (ha : coroAlloc sym s malloc nctx fn arg stack = .ok a) (hco : a.co = some co)
    (hroom : 64 ≤ stack.toNat) (hsize : stack.toNat + 104 < 2 ^ 64)
    (hold : Apart co (header + stack).toNat (c.reg .rsp - 56#64) 56)
    (hnctx : Apart co (header + stack).toNat nctx 8) :
    (firstTransfer a.process c ret entry).rip = sym.coroInit ∧
      (firstTransfer a.process c ret entry).reg .rsp
        = BitVec.ofNat 64 (co.toNat + 104 + stack.toNat) - 8#64 := by
  obtain ⟨-, hblock, -⟩ := coroAlloc_inv ha hco
  obtain ⟨m, top, htop, hcode, hsp, hinit, -⟩ :=
    coroAlloc_spec sym s nctx arg hmalloc hfn hsize hblock
  obtain rfl := Except.ok.inj (hcode.symm.trans ha)
  have hlen : (header + stack).toNat = 104 + stack.toNat := by
    rw [header_add_toNat]
    omega
  rw [hlen] at hold hnctx
  -- what the call and the switch write on the way is apart from every word of the block
  have old : ∀ {d e k : Nat}, d + 8 ≤ 104 + stack.toNat → e + k ≤ 56 →
      Apart (co + BitVec.ofNat 64 d) 8 (c.reg .rsp - 56#64 + BitVec.ofNat 64 e) k :=
    fun hd he => hold.mono (fun _ hx => hx.of_add hd) fun _ hx => hx.of_add he
  have prev : ∀ {d : Nat}, d + 8 ≤ 104 + stack.toNat → Apart (co + BitVec.ofNat 64 d) 8 nctx 8 :=
    fun hd => hnctx.mono (fun _ hx => hx.of_add hd) fun _ => id
  have hcall : c.reg .rsp - 8#64 = c.reg .rsp - 56#64 + BitVec.ofNat 64 48 := by bv_omega
  have hsaved : c.reg .rsp - 8#64 - 48#64 = c.reg .rsp - 56#64 + BitVec.ofNat 64 0 := by bv_omega
  have hret : top - 64#64 + 48#64 = co + BitVec.ofNat 64 (104 + stack.toNat - 16) := by
    rw [htop]
    apply BitVec.eq_of_toNat_eq
    simp only [BitVec.toNat_add, BitVec.toNat_sub, BitVec.toNat_ofNat]
    omega
  have hload : (m.store (c.reg .rsp - 8#64) ret).load (co + ctxOffset) = top - 64#64 := by
    rw [Mem.load_store_apart (hcall ▸ old (d := 24) (by omega) (by omega)), hsp]
  have hload' : (m.store (c.reg .rsp - 8#64) ret).load (top - 64#64 + 48#64) = sym.coroInit := by
    rw [hret] at hinit ⊢
    rw [Mem.load_store_apart (hcall ▸ old (by omega) (by omega)), hinit]
  obtain ⟨hrsp, hrip⟩ := coroTransfer_spec (((({ c with mem := m } : Cpu).set .rdi nctx).set .rsi
    (co + ctxOffset)).call ret entry) hload (hsaved ▸ old (d := 24) (by omega) (by omega))
    (prev (d := 24) (by omega)) (hret ▸ hsaved ▸ old (by omega) (by omega))
    (hret ▸ prev (by omega))
  refine ⟨hrip.trans hload', hrsp.trans ?_⟩
  rw [htop]
  bv_omega

/-- The stack pointer plus 8 is the end of the block. -/
theorem not_abiAligned {c : Cpu} {co stack : BitVec 64}
    (hsp : c.reg .rsp = BitVec.ofNat 64 (co.toNat + 104 + stack.toNat) - 8#64)
    (halign : co.toNat % 16 = 0) (hstack : stack.toNat % 16 = 0) : ¬ AbiAligned c := by
  rw [AbiAligned, hsp, BitVec.sub_add_cancel, BitVec.toNat_ofNat]
  omega

/-- **No coroutine starts on an aligned stack.**  Whatever multiple of 16 `malloc` returns, and
whatever multiple of 16 the size is, if the frame lies in the block and the block is apart from the
stack of the caller, the first switch jumps to `coro_init` with the stack pointer off by 8. -/
theorem starts_misaligned {sym : Symbols} {s : Process}
    {malloc : BitVec 64 → Option (BitVec 64)} {nctx fn arg stack co : BitVec 64} {a : Allocated}
    (c : Cpu) (ret entry : BitVec 64) (hmalloc : MallocOk malloc) (hfn : fn ≠ 0#64)
    (ha : coroAlloc sym s malloc nctx fn arg stack = .ok a) (hco : a.co = some co)
    (halign : co.toNat % 16 = 0) (hstack : stack.toNat % 16 = 0) (hframe : FrameInBlock stack a)
    (hold : Apart co (header + stack).toNat (c.reg .rsp - 56#64) 56)
    (hnctx : Apart co (header + stack).toNat nctx 8) :
    (firstTransfer a.process c ret entry).rip = sym.coroInit ∧
      ¬ AbiAligned (firstTransfer a.process c ret entry) := by
  obtain ⟨hroom, hsize⟩ := hframe.room hmalloc hfn ha hco
  obtain ⟨hrip, hsp⟩ := firstTransfer_spec c ret entry hmalloc hfn ha hco hroom hsize hold hnctx
  exact ⟨hrip, not_abiAligned hsp halign hstack⟩

/-- A stack of 1024 bytes. -/
theorem starts_misaligned_kilobyte :
    ∃ a, coroAlloc ⟨1#64, 2#64⟩ ⟨fun _ => 0, 0#64, 0#64, 0#64, 0#64⟩ malloc64K 131072#64 3#64 0#64
        1024#64 = .ok a ∧
      (firstTransfer a.process ⟨fun _ => 131064#64, fun _ => 0, 0#64⟩ 5#64 6#64).rip = 2#64 ∧
      ¬ AbiAligned (firstTransfer a.process ⟨fun _ => 131064#64, fun _ => 0, 0#64⟩ 5#64 6#64) := by
  obtain ⟨a, ha, hco⟩ := coroAlloc_ok ⟨1#64, 2#64⟩ ⟨fun _ => 0, 0#64, 0#64, 0#64, 0#64⟩ 131072#64
    3#64 0#64 (show header + 1024#64 ≠ 0#64 by decide)
    (show malloc64K (header + 1024#64) = some 4096#64 by decide)
  exact ⟨a, ha, starts_misaligned ⟨fun _ => 131064#64, fun _ => 0, 0#64⟩ 5#64 6#64 malloc64K_ok
    (by decide) ha hco (by decide) (by decide)
    (frameInBlock_of_room malloc64K_ok (by decide) (by decide) ha)
    (apart_of_le (by decide) (by decide)) (apart_of_le (by decide) (by decide))⟩

/-- A stack of `DEFAULT_STACK_SIZE`. -/
theorem default_stack_misaligned :
    ∃ a, coroAlloc ⟨1#64, 2#64⟩ ⟨fun _ => 0, 0#64, 0#64, 0#64, 0#64⟩ malloc64K 131072#64 3#64 0#64
        8192#64 = .ok a ∧
      (firstTransfer a.process ⟨fun _ => 131064#64, fun _ => 0, 0#64⟩ 5#64 6#64).rip = 2#64 ∧
      ¬ AbiAligned (firstTransfer a.process ⟨fun _ => 131064#64, fun _ => 0, 0#64⟩ 5#64 6#64) := by
  obtain ⟨a, ha, hco⟩ := coroAlloc_ok ⟨1#64, 2#64⟩ ⟨fun _ => 0, 0#64, 0#64, 0#64, 0#64⟩ 131072#64
    3#64 0#64 (show header + 8192#64 ≠ 0#64 by decide)
    (show malloc64K (header + 8192#64) = some 4096#64 by decide)
  obtain ⟨hrip, hsp⟩ := firstTransfer_spec ⟨fun _ => 131064#64, fun _ => 0, 0#64⟩ 5#64 6#64
    malloc64K_ok (by decide) ha hco (by decide) (by decide)
    (apart_of_le (by decide) (by decide)) (apart_of_le (by decide) (by decide))
  exact ⟨a, ha, hrip, not_abiAligned hsp (by decide) (by decide)⟩

end Frame
end Corosched
