/-
# A few instructions of amd64

The registers, a byte memory and the instructions a context switch is written with: pushes and
pops, moves between a register and the word another register points to, and an indirect jump.
`rip` is where control was last sent; straight-line code does not move it.
-/
import Corosched.Lib.Bytes
import Mathlib.Logic.Function.Basic

namespace Amd64

open Bytes

/-- The general registers. -/
inductive Reg
  | rax | rbx | rcx | rdx | rsi | rdi | rbp | rsp | r8 | r9 | r10 | r11 | r12 | r13 | r14 | r15
  deriving DecidableEq

structure Cpu where
  reg : Reg → BitVec 64
  mem : Mem
  rip : BitVec 64

/-- One instruction. -/
inductive Instr
  /-- `pushq %r` -/
  | push (r : Reg)
  /-- `popq %r` -/
  | pop (r : Reg)
  /-- `movq %src, (%base)` -/
  | movTo (src base : Reg)
  /-- `movq (%base), %dst` -/
  | movFrom (base dst : Reg)
  /-- `jmpq *%r` -/
  | jmp (r : Reg)

def Cpu.set (c : Cpu) (r : Reg) (v : BitVec 64) : Cpu := { c with reg := Function.update c.reg r v }

/-- A word goes onto the stack. -/
def Cpu.pushWord (c : Cpu) (v : BitVec 64) : Cpu :=
  let sp := c.reg .rsp - 8#64
  { c.set .rsp sp with mem := c.mem.store sp v }

/-- `call target`, with the return address `ret`. -/
def Cpu.call (c : Cpu) (ret target : BitVec 64) : Cpu := { c.pushWord ret with rip := target }

def Instr.exec (c : Cpu) : Instr → Cpu
  | .push r => c.pushWord (c.reg r)
  | .pop r => (c.set .rsp (c.reg .rsp + 8#64)).set r (c.mem.load (c.reg .rsp))
  | .movTo src base => { c with mem := c.mem.store (c.reg base) (c.reg src) }
  | .movFrom base dst => c.set dst (c.mem.load (c.reg base))
  | .jmp r => { c with rip := c.reg r }

/-- Straight-line code. -/
def run (c : Cpu) (is : List Instr) : Cpu := is.foldl Instr.exec c

variable {c : Cpu} {r : Reg} {v : BitVec 64} {rs : List Reg}

@[simp] theorem Cpu.set_mem : (c.set r v).mem = c.mem := rfl
@[simp] theorem Cpu.set_rip : (c.set r v).rip = c.rip := rfl

theorem Cpu.set_reg (c : Cpu) (r r' : Reg) (v : BitVec 64) :
    (c.set r v).reg r' = if r' = r then v else c.reg r' := by
  simp [Cpu.set, Function.update_apply]

theorem Cpu.pushWord_reg (c : Cpu) (v : BitVec 64) (r : Reg) :
    (c.pushWord v).reg r = if r = .rsp then c.reg .rsp - 8#64 else c.reg r :=
  c.set_reg .rsp r _

theorem Cpu.pushWord_mem (c : Cpu) (v : BitVec 64) {x : BitVec 64}
    (hx : ¬ In x (c.reg .rsp - 8#64) 8) : (c.pushWord v).mem x = c.mem x := if_neg hx

theorem run_append (c : Cpu) (is js : List Instr) : run c (is ++ js) = run (run c is) js :=
  List.foldl_append

/-- What the stack pointer is after `n` more words. -/
theorem sub_words (a : BitVec 64) (n : Nat) :
    a - 8#64 - BitVec.ofNat 64 (8 * n) = a - BitVec.ofNat 64 (8 * (n + 1)) := by
  rw [Nat.mul_add_one, Nat.add_comm, BitVec.ofNat_add]
  exact BitVec.sub_sub _ _ _

/-- **Pushes** move the stack pointer, and write below it only. -/
theorem run_pushes (c : Cpu) (rs : List Reg) :
    (∀ r, (run c (rs.map .push)).reg r
      = if r = .rsp then c.reg .rsp - BitVec.ofNat 64 (8 * rs.length) else c.reg r) ∧
    ∀ x, ¬ In x (c.reg .rsp - BitVec.ofNat 64 (8 * rs.length)) (8 * rs.length) →
      (run c (rs.map .push)).mem x = c.mem x := by
  induction rs generalizing c with
  | nil =>
    refine ⟨fun r => ?_, fun x _ => rfl⟩
    by_cases hr : r = .rsp <;> simp [run, hr]
  | cons a rs ih =>
    obtain ⟨hreg, hmem⟩ := ih (c.pushWord (c.reg a))
    simp only [Cpu.pushWord_reg, if_true, sub_words] at hreg hmem
    refine ⟨fun r => ?_, fun x hx => ?_⟩
    · refine (hreg r).trans ?_
      split <;> rfl
    · refine (hmem x fun hin => hx ?_).trans (c.pushWord_mem _ fun hin => hx ?_)
      · exact Nat.lt_of_lt_of_le hin (Nat.mul_le_mul_left 8 (Nat.le_succ _))
      · rw [List.length_cons, ← sub_words]
        refine In.of_add (k := 8) ?_ (Nat.le_of_eq (Nat.mul_succ 8 rs.length).symm)
        rwa [BitVec.sub_add_cancel]

/-- **Pops** move the stack pointer and change nothing but their registers. -/
theorem run_pops (c : Cpu) (hrs : Reg.rsp ∉ rs) :
    (run c (rs.map .pop)).mem = c.mem ∧
    (run c (rs.map .pop)).reg .rsp = c.reg .rsp + BitVec.ofNat 64 (8 * rs.length) ∧
    ∀ r, r ≠ .rsp → r ∉ rs → (run c (rs.map .pop)).reg r = c.reg r := by
  induction rs generalizing c with
  | nil => simp [run]
  | cons a rs ih =>
    rw [List.mem_cons, not_or] at hrs
    obtain ⟨hmem, hsp, hreg⟩ := ih (Instr.exec c (.pop a)) hrs.2
    refine ⟨hmem, ?_, fun r hr hra => ?_⟩
    · refine hsp.trans ?_
      rw [Instr.exec, Cpu.set_reg, if_neg hrs.1, Cpu.set_reg, if_pos rfl]
      rw [List.length_cons, Nat.mul_add_one, Nat.add_comm, BitVec.ofNat_add, BitVec.add_assoc]
    · rw [List.mem_cons, not_or] at hra
      refine (hreg r hr hra.2).trans ?_
      rw [Instr.exec, Cpu.set_reg, if_neg hra.1, Cpu.set_reg, if_neg hr]

/-- A return with the address in a register. -/
theorem run_pop_jmp (c : Cpu) (hr : r ≠ .rsp) :
    (run c [.pop r, .jmp r]).mem = c.mem ∧ (run c [.pop r, .jmp r]).reg .rsp = c.reg .rsp + 8#64 ∧
    (run c [.pop r, .jmp r]).rip = c.mem.load (c.reg .rsp) ∧
    ∀ q, q ≠ .rsp → q ≠ r → (run c [.pop r, .jmp r]).reg q = c.reg q := by
  simp only [run, List.foldl_cons, List.foldl_nil, Instr.exec, Cpu.set_mem, Cpu.set_reg, if_true,
    if_neg (Ne.symm hr), true_and]
  intro q hq hqr
  rw [if_neg hqr, if_neg hq]

/-- **What pops load**: the words on the stack, whatever register each is for. -/
theorem run_pops_words (c : Cpu) {f : Reg → BitVec 64} (hrs : Reg.rsp ∉ rs)
    (h : c.mem.Words (c.reg .rsp) (rs.map f)) : ∀ r ∈ rs, (run c (rs.map .pop)).reg r = f r := by
  induction rs generalizing c with
  | nil => simp
  | cons a rs ih =>
    rw [List.mem_cons, not_or] at hrs
    obtain ⟨hload, hwords⟩ := h
    have hsp : (Instr.exec c (.pop a)).reg .rsp = c.reg .rsp + 8#64 := by
      rw [Instr.exec, Cpu.set_reg, if_neg hrs.1, Cpu.set_reg, if_pos rfl]
    have hself : (Instr.exec c (.pop a)).reg a = f a := by
      rw [Instr.exec, Cpu.set_reg, if_pos rfl, hload]
    have hrest := ih (Instr.exec c (.pop a)) hrs.2 (by rwa [hsp])
    intro r hr
    by_cases hmem : r ∈ rs
    · exact hrest r hmem
    · obtain rfl := (List.mem_cons.mp hr).resolve_right hmem
      exact ((run_pops _ hrs.2).2.2 r (Ne.symm hrs.1) hmem).trans hself

/-- **What pushes store**: the registers, the last at the bottom. -/
theorem run_pushes_words (c : Cpu) (rs : List Reg) (hrs : Reg.rsp ∉ rs)
    (hlen : 8 * rs.length ≤ 2 ^ 64) :
    (run c (rs.map .push)).mem.Words (c.reg .rsp - BitVec.ofNat 64 (8 * rs.length))
      (rs.reverse.map c.reg) := by
  induction rs generalizing c with
  | nil => trivial
  | cons a rs ih =>
    rw [List.mem_cons, not_or] at hrs
    rw [List.length_cons] at hlen ⊢
    have hsp : (c.pushWord (c.reg a)).reg .rsp = c.reg .rsp - 8#64 := by
      rw [Cpu.pushWord_reg, if_pos rfl]
    have hreg : ∀ r ∈ rs.reverse, (c.pushWord (c.reg a)).reg r = c.reg r := by
      intro r hr
      rw [Cpu.pushWord_reg, if_neg]
      rintro rfl
      exact hrs.2 (List.mem_reverse.mp hr)
    have hwords := ih (c.pushWord (c.reg a)) hrs.2 (by omega)
    rw [hsp, sub_words, List.map_congr_left hreg] at hwords
    obtain ⟨-, hmem⟩ := run_pushes (c.pushWord (c.reg a)) rs
    rw [hsp] at hmem
    -- the first push is above all others
    have htop : c.reg .rsp - BitVec.ofNat 64 (8 * (rs.length + 1))
        + BitVec.ofNat 64 (8 * (rs.reverse.map c.reg).length) = c.reg .rsp - 8#64 := by
      rw [List.length_map, List.length_reverse, ← sub_words, BitVec.sub_add_cancel]
    have hbelow := apart_next (c.reg .rsp - 8#64 - BitVec.ofNat 64 (8 * rs.length))
      (n := 8 * rs.length) (k := 8) (by omega)
    rw [BitVec.sub_add_cancel] at hbelow
    rw [List.reverse_cons, List.map_append, Mem.words_append, htop]
    refine ⟨hwords, ?_, trivial⟩
    have hload : (run (c.pushWord (c.reg a)) (rs.map .push)).mem.load (c.reg .rsp - 8#64)
        = c.reg a :=
      (Mem.load_congr fun x hx => hmem x (hbelow x hx)).trans (Mem.load_store_same _ _ _)
    exact hload

end Amd64
