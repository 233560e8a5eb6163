/-
# Many contexts on one thread

A thread takes turns on many contexts: `coro_create` lays out the first frame of a context, and
`coro_transfer` leaves one context and goes on with another.  Between two transfers any code may
run.  The model says nothing about that code but that it keeps away from the stacks of the contexts
that are not running, and from where `ctx->sp` of each is stored.

`transfer_returns` says that `coro_transfer` is then a call like any other: whatever the thread does
in between, when it comes back to the context it comes back behind the call, with the registers that
a function keeps for its caller and with the stack as they were.  `starts_its_function` says that a
context runs the function and the argument it was created with, though `coro_create` passes them
through static variables that the next call overwrites.
-/
import Corosched.Lib.Run
import Corosched.Switch

namespace Corosched
namespace Frame

open Bytes Amd64

/-! ## 1. What a transfer saves and loads -/

/-- The registers saved on the stack, from the lowest word up. -/
def savedRegs : List Reg := [.r15, .r14, .r13, .r12, .rbx, .rbp]

/-- **All of `coro_transfer`.**  It writes the six words below the stack pointer and `prev`, and
nothing else; then stack pointer, registers and return address come from where `next` points. -/
theorem coroTransfer_all (c : Cpu) (hprev : Apart (c.reg .rdi) 8 (c.reg .rsp - 48#64) 48) :
    (∀ x, ¬ In x (c.reg .rsp - 48#64) 48 → ¬ In x (c.reg .rdi) 8 →
      (run c coroTransfer).mem x = c.mem x) ∧
    (run c coroTransfer).mem.load (c.reg .rdi) = c.reg .rsp - 48#64 ∧
    (run c coroTransfer).mem.Words (c.reg .rsp - 48#64) (savedRegs.map c.reg) ∧
    ∀ sp, (run c coroTransfer).mem.load (c.reg .rsi) = sp →
      (run c coroTransfer).reg .rsp = sp + 56#64 ∧
      (run c coroTransfer).rip = (run c coroTransfer).mem.load (sp + 48#64) ∧
      ∀ f, (run c coroTransfer).mem.Words sp (savedRegs.map f) →
        ∀ r ∈ savedRegs, (run c coroTransfer).reg r = f r := by
  have hcode : coroTransfer = [Reg.rbp, .rbx, .r12, .r13, .r14, .r15].map .push ++
      ([.movTo .rsp .rdi, .movFrom .rsi .rsp] ++
        (savedRegs.map .pop ++ [.pop .rcx, .jmp .rcx])) := rfl
  rw [hcode, run_append, run_append, run_append]
  obtain ⟨hreg₁, hmem₁⟩ := run_pushes c [.rbp, .rbx, .r12, .r13, .r14, .r15]
  have hwords₁ := run_pushes_words c [.rbp, .rbx, .r12, .r13, .r14, .r15] (by decide) (by decide)
  generalize run c ([Reg.rbp, .rbx, .r12, .r13, .r14, .r15].map .push) = c₁ at hreg₁ hmem₁ hwords₁ ⊢
  have hrdi : c₁.reg .rdi = c.reg .rdi := hreg₁ .rdi
  have hrsi : c₁.reg .rsi = c.reg .rsi := hreg₁ .rsi
  have hrsp : c₁.reg .rsp = c.reg .rsp - 48#64 := hreg₁ .rsp
  generalize hc₂ : run c₁ [.movTo .rsp .rdi, .movFrom .rsi .rsp] = c₂
  have hmem₂ : c₂.mem = c₁.mem.store (c.reg .rdi) (c.reg .rsp - 48#64) := by
    rw [← hc₂, ← hrdi, ← hrsp]
    rfl
  have hsp₂ : c₂.reg .rsp = c₂.mem.load (c.reg .rsi) := by
    rw [hmem₂, ← hc₂, ← hrsi, ← hrdi, ← hrsp]
    rfl
  have hnot : Reg.rsp ∉ savedRegs := by decide
  obtain ⟨hmem₃, hsp₃, -⟩ := run_pops c₂ hnot
  have hwords₃ := fun f => run_pops_words c₂ (f := f) hnot
  generalize run c₂ (savedRegs.map .pop) = c₃ at hmem₃ hsp₃ hwords₃ ⊢
  obtain ⟨hmem₄, hsp₄, hrip₄, hreg₄⟩ := run_pop_jmp c₃ (r := .rcx) (by decide)
  generalize run c₃ [.pop .rcx, .jmp .rcx] = c₄ at hmem₄ hsp₄ hrip₄ hreg₄ ⊢
  rw [hmem₄, hmem₃]
  refine ⟨fun x hx hxp => ?_, ?_, ?_, fun sp hsp => ⟨?_, ?_, fun f hf r hr => ?_⟩⟩
  · rw [hmem₂, Mem.store_of_not_in hxp]
    exact hmem₁ x hx
  · rw [hmem₂]
    exact Mem.load_store_same _ _ _
  · rw [hmem₂]
    exact hwords₁.congr fun x hx => Mem.store_of_not_in fun hxp => hprev x hxp hx
  · rw [hsp₄, hsp₃, hsp₂, hsp, BitVec.add_assoc]
    rfl
  · rw [hrip₄, hmem₃, hsp₃, hsp₂, hsp]
    rfl
  · have hcx : r ≠ .rcx := by
      rintro rfl
      exact absurd hr (by decide)
    have hrs : r ≠ .rsp := by
      rintro rfl
      exact hnot hr
    rw [hreg₄ r hrs hcx]
    refine hwords₃ f ?_ r hr
    rwa [hsp₂, hsp]

/-- The saved registers of a new context are zero. -/
theorem coroCreate_zero {sym : Symbols} {s : Process} {nctx ctx coro arg sptr ssize top : BitVec 64}
    (hcoro : coro ≠ 0#64)
    (hwords : (coroCreate sym s nctx ctx coro arg sptr ssize).2 = frameWords top) {x : BitVec 64}
    (hx : In x (top - 64#64) 48) :
    (coroCreate sym s nctx ctx coro arg sptr ssize).1.mem x = 0 := by
  simp only [coroCreate, if_neg hcoro, frameWords, NUM_SAVED] at hwords ⊢
  injection hwords with _ hwords
  injection hwords with _ hwords
  have hsp := List.map_inj_left.mp hwords 0 (by decide)
  rw [Nat.mul_zero, BitVec.add_zero, BitVec.add_zero] at hsp
  rw [hsp]
  exact Mem.fill_of_in hx

/-! ## 2. The thread -/

/-- A context that is not running: the processor as it is to be when the context goes on, and how
many bytes of its stack, from the stack pointer up, it still needs. -/
structure Parked where
  cpu : Cpu
  live : Nat

/-- Where its registers are saved. -/
def Parked.sp (v : Parked) : BitVec 64 := v.cpu.reg .rsp - 56#64

/-- The memory of a context parked at `ctx`: the word there, what is saved and the stack. -/
def Parked.Area (v : Parked) (ctx x : BitVec 64) : Prop := In x ctx 8 ∨ In x v.sp (56 + v.live)

/-- The thread: the processor, the static variables of `cs_coro.c` and the parked contexts, each
under the address of its `coro_context`. -/
structure Thread where
  cpu : Cpu
  coroInitFunc : BitVec 64
  coroInitArg : BitVec 64
  newCoro : BitVec 64
  createCoro : BitVec 64
  parked : BitVec 64 → Option Parked

def Thread.process (t : Thread) : Process :=
  ⟨t.cpu.mem, t.coroInitFunc, t.coroInitArg, t.newCoro, t.createCoro⟩

/-- What the thread does. -/
inductive Act
  /-- any code but that of `cs_coro.c`, after which the processor is `c` -/
  | code (c : Cpu)
  /-- `coro_create(ctx, coro, arg, sptr, ssize)` up to its transfer, with its local at `nctx` -/
  | create (sym : Symbols) (nctx ctx coro arg sptr ssize : BitVec 64)
  /-- `coro_transfer(prev, next)` at the address `entry`, called with the return address `ret`;
  the caller needs `live` bytes of its stack -/
  | transfer (prev next ret entry : BitVec 64) (live : Nat)
  /-- the context at `ctx` is given up, and its memory is free -/
  | free (ctx : BitVec 64)

/-- A new context goes on in `coro_init`, with `abort` where a return address would be. -/
def created (sym : Symbols) (m : Mem) (top : BitVec 64) : Parked :=
  ⟨⟨fun r => if r = .rsp then top - 8#64 else 0#64, m, sym.coroInit⟩, 8⟩

/-- The call of `coro_transfer`. -/
def callTransfer (c : Cpu) (prev next ret entry : BitVec 64) : Cpu :=
  run (((c.set .rdi prev).set .rsi next).call ret entry) coroTransfer

/-- The thread after one step. -/
def Act.apply (t : Thread) : Act → Thread
  | .code c => { t with cpu := c }
  | .create sym nctx ctx coro arg sptr ssize =>
    let s := (coroCreate sym t.process nctx ctx coro arg sptr ssize).1
    ⟨{ t.cpu with mem := s.mem }, s.coroInitFunc, s.coroInitArg, s.newCoro, s.createCoro,
      Function.update t.parked ctx (some (created sym s.mem (ssize + sptr)))⟩
  | .transfer prev next ret entry live =>
    { t with
      cpu := callTransfer t.cpu prev next ret entry
      parked := Function.update (Function.update t.parked next none) prev
        (some ⟨{ t.cpu with rip := ret }, live⟩) }
  | .free ctx => { t with parked := Function.update t.parked ctx none }

def threadStep : Machine Thread Act Fault := fun t act => some (.ok (act.apply t))

/-- The bytes that satisfy `W` belong to no parked context. -/
def Thread.Spares (t : Thread) (W : BitVec 64 → Prop) : Prop :=
  ∀ ctx v, t.parked ctx = some v → ∀ x, v.Area ctx x → ¬ W x

/-- **What each context owes the others.**  Nothing writes into a context that is not running, and
a context that is about to stop running has its own words apart from each other. -/
def Disciplined (t : Thread) : Act → Prop
  | .code c => t.Spares fun x => c.mem x ≠ t.cpu.mem x
  | .create _ _ ctx coro _ sptr ssize =>
    coro ≠ 0#64 ∧ Apart ctx 8 (ssize + sptr - 64#64) 64 ∧ t.parked ctx = none ∧
      t.Spares fun x => In x ctx 8 ∨ In x (ssize + sptr - 64#64) 64
  | .transfer prev _ _ _ live =>
    56 + live ≤ 2 ^ 64 ∧ Apart prev 8 (t.cpu.reg .rsp - 56#64) 56 ∧ t.parked prev = none ∧
      t.Spares fun x => In x prev 8 ∨ In x (t.cpu.reg .rsp - 56#64) 56
  | .free _ => True

/-! ## 3. What is kept of a parked context -/

/-- **The memory of a parked context is as it left it.** -/
structure Kept (m : Mem) (ctx : BitVec 64) (v : Parked) : Prop where
  sp : m.load ctx = v.sp
  saved : m.Words v.sp (savedRegs.map v.cpu.reg ++ [v.cpu.rip])
  stack : ∀ x, In x (v.cpu.reg .rsp) v.live → ¬ In x ctx 8 → m x = v.cpu.mem x

variable {m m' : Mem} {ctx x : BitVec 64} {v : Parked} {t t' : Thread} {act : Act}

theorem Parked.area_of_stack (hx : In x (v.cpu.reg .rsp) v.live) : v.Area ctx x := by
  refine Or.inr (In.of_add (d := 56) (k := v.live) ?_ le_rfl)
  rwa [Parked.sp, BitVec.sub_add_cancel]

theorem Parked.area_of_saved (hx : In x v.sp 56) : v.Area ctx x :=
  Or.inr (Nat.lt_of_lt_of_le hx (by omega))

/-- What is written elsewhere does not matter. -/
theorem Kept.congr (h : Kept m ctx v) (hm : ∀ x, v.Area ctx x → m' x = m x) : Kept m' ctx v := by
  refine ⟨?_, h.saved.congr fun x hx => hm x (Parked.area_of_saved hx), fun x hx hxc => ?_⟩
  · rw [← h.sp]
    exact Mem.load_congr fun x hx => hm x (Or.inl hx)
  · rw [hm x (Parked.area_of_stack hx)]
    exact h.stack x hx hxc

/-- A new context. -/
theorem kept_created {sym : Symbols} {s : Process} {nctx coro arg sptr ssize : BitVec 64}
    (hcoro : coro ≠ 0#64) (hctx : Apart ctx 8 (ssize + sptr - 64#64) 64) :
    Kept (coroCreate sym s nctx ctx coro arg sptr ssize).1.mem ctx
      (created sym (coroCreate sym s nctx ctx coro arg sptr ssize).1.mem (ssize + sptr)) := by
  obtain ⟨m, hcode, hload, hinit, -⟩ := coroCreate_spec sym s nctx arg hcoro rfl hctx
  have hzero := fun x => coroCreate_zero (x := x) hcoro (congrArg Prod.snd hcode)
  rw [hcode] at hzero ⊢
  have hsp : (created sym m (ssize + sptr)).sp = ssize + sptr - 64#64 := by
    show ssize + sptr - 8#64 - 56#64 = _
    rw [BitVec.sub_sub]
    rfl
  refine ⟨hload.trans hsp.symm, ?_, fun x _ _ => rfl⟩
  rw [hsp, Mem.words_append]
  exact ⟨Mem.words_zero (n := 6) hzero, hinit, trivial⟩

/-! ## 4. One step -/

/-- **What a call of `coro_transfer` does**, where the caller's own words are apart: the caller is
kept as it is to return, the rest of the memory is as it was, and the thread goes on with whatever
is kept at `next`. -/
theorem callTransfer_spec (c : Cpu) {prev : BitVec 64} (next ret entry : BitVec 64) {live : Nat}
    (hlive : 56 + live ≤ 2 ^ 64) (hprev : Apart prev 8 (c.reg .rsp - 56#64) 56) :
    (∀ x, ¬ In x prev 8 → ¬ In x (c.reg .rsp - 56#64) 56 →
      (callTransfer c prev next ret entry).mem x = c.mem x) ∧
    Kept (callTransfer c prev next ret entry).mem prev ⟨{ c with rip := ret }, live⟩ ∧
    ∀ v, Kept (callTransfer c prev next ret entry).mem next v →
      (callTransfer c prev next ret entry).rip = v.cpu.rip ∧
      (callTransfer c prev next ret entry).reg .rsp = v.cpu.reg .rsp ∧
      ∀ r ∈ savedRegs, (callTransfer c prev next ret entry).reg r = v.cpu.reg r := by
  generalize hd : ((c.set .rdi prev).set .rsi next).call ret entry = d
  have hrdi : d.reg .rdi = prev := by rw [← hd]; rfl
  have hrsi : d.reg .rsi = next := by rw [← hd]; rfl
  have hrsp : d.reg .rsp - 48#64 = c.reg .rsp - 56#64 := by
    rw [← hd]
    exact BitVec.sub_sub _ _ _
  have hsaved : savedRegs.map d.reg = savedRegs.map c.reg := by rw [← hd]; rfl
  have hmem : d.mem = c.mem.store (c.reg .rsp - 8#64) ret := by rw [← hd]; rfl
  -- the return address is the highest of the seven words
  have hret : c.reg .rsp - 8#64 = c.reg .rsp - 56#64 + BitVec.ofNat 64 48 := by bv_omega
  have hlow : ∀ x, In x (c.reg .rsp - 56#64) 48 → In x (c.reg .rsp - 56#64) 56 :=
    fun _ hx => Nat.lt_of_lt_of_le hx (by omega)
  have hhigh : ∀ x, In x (c.reg .rsp - 8#64) 8 → In x (c.reg .rsp - 56#64) 56 :=
    fun _ hx => In.of_add (d := 48) (k := 8) (hret ▸ hx) (by omega)
  have hprev' : Apart (d.reg .rdi) 8 (d.reg .rsp - 48#64) 48 := by
    rw [hrdi, hrsp]
    exact hprev.mono (fun _ => id) hlow
  obtain ⟨hframe, hsp, hwords, hgo⟩ := coroTransfer_all d hprev'
  have hcall : callTransfer c prev next ret entry = run d coroTransfer := by rw [← hd]; rfl
  rw [hcall]
  rw [hrdi] at hframe hsp
  rw [hrsp] at hframe hsp hwords
  rw [hrsi] at hgo
  rw [hsaved] at hwords
  generalize run d coroTransfer = e at hframe hsp hwords hgo ⊢
  refine ⟨fun x hx hxs => ?_, ⟨hsp, ?_, fun x hx hxp => ?_⟩, fun v hv => ?_⟩
  · rw [hframe x (fun h => hxs (hlow x h)) hx, hmem]
    exact Mem.store_of_not_in fun h => hxs (hhigh x h)
  · rw [Mem.words_append]
    refine ⟨hwords, ?_, trivial⟩
    have hload : e.mem.load (c.reg .rsp - 8#64) = ret := by
      rw [← Mem.load_store_same c.mem (c.reg .rsp - 8#64) ret, ← hmem]
      refine Mem.load_congr fun x hx => hframe x (fun h => ?_) fun h => hprev x h (hhigh x hx)
      exact apart_next (c.reg .rsp - 56#64) (n := 48) (k := 8) (by omega) x (hret ▸ hx) h
    rw [← hload, hret]
    rfl
  · have hxs : ¬ In x (c.reg .rsp - 56#64) 56 := by
      have hnext := apart_next (c.reg .rsp - 56#64) (n := 56) (k := live) hlive x
      rw [BitVec.sub_add_cancel] at hnext
      exact hnext hx
    rw [hframe x (fun h => hxs (hlow x h)) hxp, hmem]
    exact Mem.store_of_not_in fun h => hxs (hhigh x h)
  · obtain ⟨hrsp', hrip, hregs⟩ := hgo v.sp hv.sp
    obtain ⟨hwords', hrip', -⟩ := Mem.words_append.mp hv.saved
    refine ⟨hrip.trans hrip', ?_, hregs v.cpu.reg hwords'⟩
    rw [hrsp', Parked.sp, BitVec.sub_add_cancel]

/-! ## 5. Every run -/

/-- Every parked context is kept. -/
def Thread.KeepsAll (t : Thread) : Prop :=
  ∀ ctx v, t.parked ctx = some v → Kept t.cpu.mem ctx v

/-- What a step writes where all contexts are spared is no matter to any of them. -/
theorem Thread.KeepsAll.congr (h : t.KeepsAll) {W : BitVec 64 → Prop} (hw : t.Spares W)
    (hm : ∀ x, ¬ W x → m x = t.cpu.mem x) (hv : t.parked ctx = some v) : Kept m ctx v :=
  (h ctx v hv).congr fun x hx => hm x (hw ctx v hv x hx)

/-- **Every step keeps the parked contexts.** -/
theorem Thread.KeepsAll.step (h : t.KeepsAll) (hd : Disciplined t act) :
    (act.apply t).KeepsAll := by
  intro k v hv
  cases act with
  | code c =>
    exact h.congr hd (fun x hx => not_not.mp hx) hv
  | create sym nctx ctx coro arg sptr ssize =>
    simp only [Act.apply] at hv ⊢
    obtain ⟨hcoro, hctx, -, hspare⟩ := hd
    by_cases hk : k = ctx
    · subst hk
      rw [Function.update_self, Option.some.injEq] at hv
      subst hv
      exact kept_created hcoro hctx
    · rw [Function.update_of_ne hk] at hv
      obtain ⟨m, hcode, -, -, hframe⟩ := coroCreate_spec sym t.process nctx arg hcoro rfl hctx
      refine h.congr hspare (fun x hx => ?_) hv
      rw [not_or] at hx
      rw [hcode]
      exact hframe x hx.1 hx.2
  | transfer prev next ret entry live =>
    simp only [Act.apply] at hv ⊢
    obtain ⟨hlive, hprev, -, hspare⟩ := hd
    obtain ⟨hframe, hkept, -⟩ :=
      callTransfer_spec t.cpu next ret entry hlive hprev
    by_cases hk : k = prev
    · subst hk
      rw [Function.update_self, Option.some.injEq] at hv
      subst hv
      exact hkept
    · rw [Function.update_of_ne hk] at hv
      by_cases hn : k = next
      · subst hn
        rw [Function.update_self] at hv
        exact absurd hv (by simp)
      · rw [Function.update_of_ne hn] at hv
        refine h.congr hspare (fun x hx => ?_) hv
        rw [not_or] at hx
        exact hframe x hx.1 hx.2
  | free ctx =>
    simp only [Act.apply] at hv ⊢
    by_cases hk : k = ctx
    · subst hk
      rw [Function.update_self] at hv
      exact absurd hv (by simp)
    · rw [Function.update_of_ne hk] at hv
      exact h k v hv

/-- The step ends the wait of the context at `ctx`. -/
def Act.Wakes (ctx : BitVec 64) : Act → Prop
  | .transfer _ next _ _ _ => next = ctx
  | .free k => k = ctx
  | _ => False

/-- A context stays parked until it is woken. -/
theorem parked_stays (hd : Disciplined t act) (hw : ¬ act.Wakes ctx)
    (hv : t.parked ctx = some v) : (act.apply t).parked ctx = some v := by
  cases act with
  | code c =>
    exact hv
  | create sym nctx k coro arg sptr ssize =>
    obtain ⟨-, -, hnone, -⟩ := hd
    have hk : ctx ≠ k := by
      rintro rfl
      rw [hnone] at hv
      exact absurd hv (by simp)
    exact (Function.update_of_ne hk _ _).trans hv
  | transfer prev next ret entry live =>
    obtain ⟨-, -, hnone, -⟩ := hd
    have hk : ctx ≠ prev := by
      rintro rfl
      rw [hnone] at hv
      exact absurd hv (by simp)
    exact (Function.update_of_ne hk _ _).trans ((Function.update_of_ne (Ne.symm hw) _ _).trans hv)
  | free k =>
    exact (Function.update_of_ne (Ne.symm hw) _ _).trans hv

/-- The steps that wait for the context at `ctx` to be woken. -/
def WaitsFor (ctx : BitVec 64) (t : Thread) (a : Act) : Prop := Disciplined t a ∧ ¬ a.Wakes ctx

theorem Thread.KeepsAll.run {as : List Act} (h : t.KeepsAll)
    (run : Machine.Run threadStep Disciplined t as t') : t'.KeepsAll :=
  run.inv (fun _ _ _ h hd hs => Except.ok.inj (Option.some.inj hs) ▸ h.step hd) h

theorem parked_run {as : List Act} (hv : t.parked ctx = some v)
    (run : Machine.Run threadStep (WaitsFor ctx) t as t') : t'.parked ctx = some v :=
  run.inv (I := fun t => t.parked ctx = some v)
    (fun _ _ _ h hd hs => Except.ok.inj (Option.some.inj hs) ▸ parked_stays hd.1 hd.2 h) hv

/-- **The processor `c'` stands behind the call that `c` has made**, of a function that returns to
`ret` and keeps what `live` bytes of the stack hold, but for the word at `ctx`. -/
structure Returned (c c' : Cpu) (ctx ret : BitVec 64) (live : Nat) : Prop where
  rip : c'.rip = ret
  rsp : c'.reg .rsp = c.reg .rsp
  saved : ∀ r ∈ savedRegs, c'.reg r = c.reg r
  stack : ∀ x, In x (c.reg .rsp) live → ¬ In x ctx 8 → c'.mem x = c.mem x

/-- **A transfer to a parked context** returns in it. -/
theorem transfer_resumes {prev next ret entry : BitVec 64} {live : Nat} (h : t.KeepsAll)
    (hd : Disciplined t (.transfer prev next ret entry live)) (hv : t.parked next = some v) :
    Returned v.cpu ((Act.transfer prev next ret entry live).apply t).cpu next v.cpu.rip v.live := by
  obtain ⟨hlive, hprev, -, hspare⟩ := hd
  obtain ⟨hframe, -, hgo⟩ :=
    callTransfer_spec t.cpu next ret entry hlive hprev
  have hkept : Kept (callTransfer t.cpu prev next ret entry).mem next v := by
    refine h.congr hspare (fun x hx => ?_) hv
    rw [not_or] at hx
    exact hframe x hx.1 hx.2
  obtain ⟨hrip, hrsp, hregs⟩ := hgo v hkept
  exact ⟨hrip, hrsp, hregs, hkept.stack⟩

theorem run_one {C : Thread → Act → Prop} (run : Machine.Run threadStep C t [act] t') :
    C t act ∧ t' = act.apply t := by
  obtain ⟨s, hs, hc, hstep⟩ :=
    Machine.Run.snoc_inv (show Machine.Run threadStep C t ([] ++ [act]) t' from run)
  obtain rfl := hs.eq_of_nil
  exact ⟨hc, (Except.ok.inj (Option.some.inj hstep)).symm⟩

/-- Nothing is parked, so nothing is to be kept. -/
theorem keepsAll_of_none (h : t.parked = fun _ => none) : t.KeepsAll := by
  intro ctx v hv
  rw [h] at hv
  exact absurd hv (by simp)

/-- The context at `ctx` is the only one parked. -/
structure Thread.OnlyParked (t : Thread) (ctx : BitVec 64) (v : Parked) : Prop where
  parked : t.parked ctx = some v
  others : ∀ k, k ≠ ctx → t.parked k = none

/-- A transfer parks its caller and wakes the other. -/
theorem onlyParked_transfer (prev ret entry : BitVec 64) {next : BitVec 64} (live : Nat)
    (h : ∀ k, k ≠ next → t.parked k = none) :
    ((Act.transfer prev next ret entry live).apply t).OnlyParked prev
      ⟨{ t.cpu with rip := ret }, live⟩ := by
  refine ⟨Function.update_self _ _ _, fun k hk => ?_⟩
  simp only [Act.apply, Function.update_of_ne hk]
  rcases eq_or_ne k next with rfl | hn
  · exact Function.update_self _ _ _
  · rw [Function.update_of_ne hn]
    exact h k hn

theorem Thread.OnlyParked.code (h : t.OnlyParked ctx v) (c : Cpu) :
    ((Act.code c).apply t).OnlyParked ctx v := ⟨h.parked, h.others⟩

theorem Thread.OnlyParked.spares {W : BitVec 64 → Prop} (h : t.OnlyParked ctx v)
    (hctx : ∀ x, In x ctx 8 → ¬ W x) (hsp : ∀ x, In x v.sp (56 + v.live) → ¬ W x) :
    t.Spares W := by
  intro k w hw x hx
  have hk : k = ctx := by
    by_contra hk
    rw [h.others k hk] at hw
    exact absurd hw (by simp)
  subst hk
  obtain rfl := Option.some.inj (h.parked.symm.trans hw)
  rcases hx with hx | hx
  · exact hctx x hx
  · exact hsp x hx

/-- A transfer that writes to nothing of the parked context. -/
theorem Thread.OnlyParked.disciplined (sp : BitVec 64) {prev next ret entry : BitVec 64}
    {live : Nat} (h : t.OnlyParked ctx v) (hrsp : t.cpu.reg .rsp = sp) (hlive : 56 + live ≤ 2 ^ 64)
    (hne : prev ≠ ctx) (hown : Apart prev 8 (sp - 56#64) 56)
    (hctx : Apart ctx 8 prev 8 ∧ Apart ctx 8 (sp - 56#64) 56)
    (hstack : Apart v.sp (56 + v.live) prev 8 ∧ Apart v.sp (56 + v.live) (sp - 56#64) 56) :
    Disciplined t (.transfer prev next ret entry live) := by
  subst hrsp
  refine ⟨hlive, hown, h.others prev hne, h.spares (fun x hx hw => ?_) fun x hx hw => ?_⟩
  · rcases hw with hw | hw
    · exact hctx.1 x hx hw
    · exact hctx.2 x hx hw
  · rcases hw with hw | hw
    · exact hstack.1 x hx hw
    · exact hstack.2 x hx hw

/-- Ranges that do not wrap and do not meet. -/
theorem apart_of_le_or {a b : BitVec 64} {n k : Nat}
    (h : a.toNat + n ≤ b.toNat ∧ b.toNat + k ≤ 2 ^ 64 ∨
      b.toNat + k ≤ a.toNat ∧ a.toNat + n ≤ 2 ^ 64) : Apart a n b k := by
  rcases h with ⟨h, h'⟩ | ⟨h, h'⟩
  · exact apart_of_le h h'
  · exact (apart_of_le h h').symm

/-- A thread with nothing parked, its memory clear and the stack pointer at 131064. -/
def bareThread : Thread :=
  ⟨⟨fun _ => 131064#64, fun _ => 0, 0#64⟩, 0#64, 0#64, 0#64, 0#64, fun _ => none⟩

/-- `volatile coro_func func = coro_init_func; volatile void *arg = coro_init_arg;` at the start of
`coro_init`: the thread `t` arrives there, and when the processor is `c` the locals, which are at
`f` and `a` in the `live` bytes of its stack, have been set. -/
structure InitLocals (t : Thread) (c : Cpu) (ctx f a : BitVec 64) (live : Nat) : Prop where
  func : c.mem.load f = t.coroInitFunc
  arg : c.mem.load a = t.coroInitArg
  func_live : ∀ x, In x f 8 → In x (c.reg .rsp) live ∧ ¬ In x ctx 8
  arg_live : ∀ x, In x a 8 → In x (c.reg .rsp) live ∧ ¬ In x ctx 8

/-- What is in the stack is loaded after the return. -/
theorem Returned.load {c c' : Cpu} {ret a : BitVec 64} {live : Nat}
    (h : Returned c c' ctx ret live) (ha : ∀ x, In x a 8 → In x (c.reg .rsp) live ∧ ¬ In x ctx 8) :
    c'.mem.load a = c.mem.load a :=
  Mem.load_congr fun x hx => h.stack x (ha x hx).1 (ha x hx).2

/-- **A context starts with its own function and argument.**  `coro_create` is called for the
context at `ctx`; it arrives in `coro_init`, which sets its locals and transfers back, and
`coro_create` returns to its caller.  Whatever the thread does then, more calls of `coro_create`
among it, when the context is woken it is behind the transfer in `coro_init`, and the locals hold
the function and the argument of that call. -/
theorem starts_its_function {t₀ t₁ t₂ t₃ t₄ t₅ : Thread} {as bs : List Act} {sym : Symbols}
    {c : Cpu} {nctx ctx coro arg sptr ssize ret entry ret₂ q ret' entry' f a : BitVec 64}
    {live live₂ live' : Nat}
    (h₀ : t₀.parked = fun _ => none) (before : Machine.Run threadStep Disciplined t₀ as t₁)
    (create : Machine.Run threadStep Disciplined t₁
      [.create sym nctx ctx coro arg sptr ssize, .transfer nctx ctx ret entry live] t₂)
    (locals : InitLocals t₂ c ctx f a live₂)
    (init : Machine.Run threadStep Disciplined t₂
      [.code c, .transfer t₂.newCoro t₂.createCoro ret₂ entry live₂] t₃)
    (between : Machine.Run threadStep (WaitsFor ctx) t₃ bs t₄)
    (back : Machine.Run threadStep Disciplined t₄ [.transfer q ctx ret' entry' live'] t₅) :
    (t₂.cpu.rip = sym.coroInit ∧ t₂.cpu.reg .rsp = ssize + sptr - 8#64) ∧
      (t₃.cpu.rip = ret ∧ t₃.cpu.reg .rsp = t₁.cpu.reg .rsp ∧
        ∀ r ∈ savedRegs, t₃.cpu.reg r = t₁.cpu.reg r) ∧
      t₅.cpu.rip = ret₂ ∧ t₅.cpu.mem.load f = coro ∧ t₅.cpu.mem.load a = arg := by
  have hkept₁ := (keepsAll_of_none h₀).run before
  -- `coro_create` sets the static variables, and the frame is kept for the first transfer
  obtain ⟨s, run₁, run₂⟩ := create.cons_inv
  have hkept := hkept₁.run run₁
  obtain ⟨⟨hcoro, hctx, -, -⟩, rfl⟩ := run_one run₁
  obtain ⟨m, hcode, -⟩ := coroCreate_spec sym t₁.process nctx arg hcoro rfl hctx
  have hcreated : ((Act.create sym nctx ctx coro arg sptr ssize).apply t₁)
      = ⟨{ t₁.cpu with mem := m }, coro, arg, ctx, nctx,
        Function.update t₁.parked ctx (some (created sym m (ssize + sptr)))⟩ := by
    rw [Act.apply, hcode]
  rw [hcreated] at hkept run₂
  have hkept₂ := hkept.run run₂
  obtain ⟨hd₂, rfl⟩ := run_one run₂
  obtain ⟨hrip, hrsp, -, -⟩ := transfer_resumes hkept hd₂ (Function.update_self _ _ _)
  have hne : ctx ≠ nctx := by
    rintro rfl
    have hnone : Function.update t₁.parked ctx _ ctx = none := hd₂.2.2.1
    rw [Function.update_self] at hnone
    exact absurd hnone (by simp)
  -- `coro_init` transfers back to where `coro_create` waits
  obtain ⟨s', run₃, run₄⟩ := init.cons_inv
  have hkept₃ := hkept₂.run run₃
  obtain ⟨hd₃, rfl⟩ := run_one run₃
  have hkept₄ := hkept₃.run run₄
  obtain ⟨hd₄, rfl⟩ := run_one run₄
  obtain ⟨hrip', hrsp', hsaved', -⟩ := transfer_resumes hkept₃ hd₄ (Function.update_self _ _ _)
  -- the context waits behind that transfer until it is woken
  have hkept₅ := hkept₄.run (between.imp fun _ _ h => h.1)
  have hv := parked_run (v := ⟨{ c with rip := ret₂ }, live₂⟩) (Function.update_self _ _ _) between
  obtain ⟨hd₅, rfl⟩ := run_one back
  have hback := transfer_resumes hkept₅ hd₅ hv
  refine ⟨⟨hrip, hrsp⟩, ⟨hrip', hrsp', hsaved'⟩, hback.rip, ?_, ?_⟩
  · exact (hback.load locals.func_live).trans locals.func
  · exact (hback.load locals.arg_live).trans locals.arg

/-- The bare thread creates a context at 4096, for the function at 3 and the argument 4. -/
theorem bareThread_creates (sptr ssize : BitVec 64) (hlow : 4168 ≤ (ssize + sptr).toNat)
    (hhigh : (ssize + sptr).toNat ≤ 131008) :
    ∃ t₁ t₂ : Thread, Machine.Run threadStep Disciplined bareThread
        [.create ⟨1#64, 2#64⟩ 131072#64 4096#64 3#64 4#64 sptr ssize,
          .transfer 131072#64 4096#64 10#64 11#64 64] t₂ ∧
      t₁.cpu.reg .rsp = 131064#64 ∧
      t₂.OnlyParked 131072#64 ⟨{ t₁.cpu with rip := 10#64 }, 64⟩ ∧
      t₂.newCoro = 4096#64 ∧ t₂.createCoro = 131072#64 := by
  have htop : (ssize + sptr - 64#64).toNat = (ssize + sptr).toNat - 64 := by
    rw [BitVec.toNat_sub]
    simp only [BitVec.toNat_ofNat]
    omega
  have hapart : ∀ a : BitVec 64, ∀ n, a.toNat + n ≤ 4104 ∨ 131008 ≤ a.toNat ∧ a.toNat + n ≤ 2 ^ 64 →
      Apart a n (ssize + sptr - 64#64) 64 := by
    intro a n ha
    exact apart_of_le_or (by omega)
  have run₁ : Machine.Run threadStep Disciplined bareThread
      [.create ⟨1#64, 2#64⟩ 131072#64 4096#64 3#64 4#64 sptr ssize]
      ((Act.create ⟨1#64, 2#64⟩ 131072#64 4096#64 3#64 4#64 sptr ssize).apply bareThread) := by
    refine Machine.Run.single ⟨by decide, hapart _ _ (by decide), rfl, fun ctx v hv => ?_⟩ rfl
    exact absurd hv (by simp [bareThread])
  generalize ht₁ : (Act.create ⟨1#64, 2#64⟩ 131072#64 4096#64 3#64 4#64 sptr ssize).apply
    bareThread = t₁ at run₁
  have hsp₁ : t₁.cpu.reg .rsp = 131064#64 := by
    rw [← ht₁]
    rfl
  have hone : t₁.OnlyParked 4096#64 (created ⟨1#64, 2#64⟩ t₁.cpu.mem (ssize + sptr)) := by
    rw [← ht₁]
    refine ⟨?_, fun k hk => ?_⟩
    · simp [Act.apply]
    · simp [Act.apply, hk, bareThread]
  have hnew : t₁.newCoro = 4096#64 ∧ t₁.createCoro = 131072#64 := by
    rw [← ht₁]
    simp [Act.apply, coroCreate]
  have hframe : (created ⟨1#64, 2#64⟩ t₁.cpu.mem (ssize + sptr)).sp = ssize + sptr - 64#64 := by
    show ssize + sptr - 8#64 - 56#64 = _
    rw [BitVec.sub_sub]
    rfl
  have run₂ : Machine.Run threadStep Disciplined t₁ [.transfer 131072#64 4096#64 10#64 11#64 64]
      ((Act.transfer 131072#64 4096#64 10#64 11#64 64).apply t₁) := by
    refine Machine.Run.single (hone.disciplined _ hsp₁ (by decide) (by decide) ?_ ⟨?_, ?_⟩ ?_) rfl
    · exact apart_of_le_or (by decide)
    · exact apart_of_le_or (by decide)
    · exact apart_of_le_or (by decide)
    · rw [hframe]
      exact ⟨(hapart _ _ (by decide)).symm, (hapart _ _ (by decide)).symm⟩
  exact ⟨t₁, _, run₁.append run₂, hsp₁, onlyParked_transfer _ _ _ _ hone.others, hnew⟩

/-- The function at 3 and the argument 4, for a context whose stack ends at 6000. -/
theorem starts_its_function_once :
    ∃ t₂ t₃ t₅ : Thread, (t₂.cpu.rip = 2#64 ∧ t₂.cpu.reg .rsp = 1000#64 + 5000#64 - 8#64) ∧
      (t₃.cpu.rip = 10#64 ∧ t₃.cpu.reg .rsp = bareThread.cpu.reg .rsp ∧
        ∀ r ∈ savedRegs, t₃.cpu.reg r = bareThread.cpu.reg r) ∧
      t₅.cpu.rip = 20#64 ∧ t₅.cpu.mem.load 5976#64 = 3#64 ∧ t₅.cpu.mem.load 5968#64 = 4#64 := by
  obtain ⟨t₁, t₂, create, hsp₁, hone₂, hnew₂⟩ :=
    bareThread_creates 5000#64 1000#64 (by decide) (by decide)
  -- `coro_init`, with its locals at 5976 and 5968
  have hlocals : InitLocals t₂ ⟨fun _ => 5960#64, (t₂.cpu.mem.store 5976#64 t₂.coroInitFunc).store
      5968#64 t₂.coroInitArg, 0#64⟩ 4096#64 5976#64 5968#64 24 := by
    refine ⟨?_, Mem.load_store_same _ _ _, fun x hx => ⟨?_, ?_⟩, fun x hx => ⟨?_, ?_⟩⟩
    · exact (Mem.load_store_apart (apart_of_le_or (by decide))).trans (Mem.load_store_same _ _ _)
    · exact In.of_add (a := 5960#64) (d := 16) hx (by decide)
    · exact apart_of_le_or (by decide) x hx
    · exact In.of_add (a := 5960#64) (d := 8) hx (by decide)
    · exact apart_of_le_or (by decide) x hx
  generalize hc : (⟨fun _ => 5960#64, (t₂.cpu.mem.store 5976#64 t₂.coroInitFunc).store
    5968#64 t₂.coroInitArg, 0#64⟩ : Cpu) = c at hlocals
  have hspc : c.reg .rsp = 5960#64 := by rw [← hc]
  have run₃ : Machine.Run threadStep Disciplined t₂ [.code c] ((Act.code c).apply t₂) := by
    have hsame : ∀ {a : BitVec 64} {n : Nat}, Apart a n 5968#64 8 → Apart a n 5976#64 8 →
        ∀ x, In x a n → ¬ c.mem x ≠ t₂.cpu.mem x := by
      intro a n ha ha' x hx hne
      refine hne ?_
      rw [← hc]
      exact (Mem.store_of_not_in (ha x hx)).trans (Mem.store_of_not_in (ha' x hx))
    refine Machine.Run.single (hone₂.spares (hsame ?_ ?_) (hsame ?_ ?_)) rfl
    iterate 2 exact apart_of_le_or (by decide)
    all_goals
      simp only [Parked.sp, hsp₁]
      exact apart_of_le_or (by decide)
  have run₄ : Machine.Run threadStep Disciplined ((Act.code c).apply t₂)
      [.transfer t₂.newCoro t₂.createCoro 20#64 11#64 24]
      ((Act.transfer t₂.newCoro t₂.createCoro 20#64 11#64 24).apply ((Act.code c).apply t₂)) := by
    rw [hnew₂.1, hnew₂.2]
    refine Machine.Run.single ((hone₂.code c).disciplined 5960#64 hspc (by decide) (by decide) ?_
      ⟨?_, ?_⟩ ⟨?_, ?_⟩) rfl
    iterate 3 exact apart_of_le_or (by decide)
    all_goals
      simp only [Parked.sp, hsp₁]
      exact apart_of_le_or (by decide)
  have init := run₃.append run₄
  have hone₃ := onlyParked_transfer t₂.newCoro 20#64 11#64 24 (hnew₂.2 ▸ (hone₂.code c).others)
  generalize (Act.transfer t₂.newCoro t₂.createCoro 20#64 11#64 24).apply
    ((Act.code c).apply t₂) = t₃ at init hone₃
  replace hone₃ : t₃.OnlyParked 4096#64 ⟨{ c with rip := 20#64 }, 24⟩ := hnew₂.1 ▸ hone₃
  -- another context, with its stack below 9000
  have between : Machine.Run threadStep (WaitsFor 4096#64) t₃
      [.code ⟨fun _ => 9000#64, t₃.cpu.mem, 0#64⟩]
      ((Act.code ⟨fun _ => 9000#64, t₃.cpu.mem, 0#64⟩).apply t₃) :=
    Machine.Run.single ⟨fun _ _ _ _ _ hne => hne rfl, id⟩ rfl
  have back : Machine.Run threadStep Disciplined
      ((Act.code ⟨fun _ => 9000#64, t₃.cpu.mem, 0#64⟩).apply t₃)
      [.transfer 8192#64 4096#64 0#64 11#64 0]
      ((Act.transfer 8192#64 4096#64 0#64 11#64 0).apply
        ((Act.code ⟨fun _ => 9000#64, t₃.cpu.mem, 0#64⟩).apply t₃)) := by
    refine Machine.Run.single ((hone₃.code _).disciplined 9000#64 rfl (by decide) (by decide) ?_
      ⟨?_, ?_⟩ ⟨?_, ?_⟩) rfl
    iterate 3 exact apart_of_le_or (by decide)
    all_goals
      simp only [Parked.sp, hspc]
      exact apart_of_le_or (by decide)
  obtain ⟨h₂, h₃, h₅⟩ := starts_its_function rfl .nil create hlocals init between back
  exact ⟨_, _, _, h₂, h₃, h₅⟩

end Frame
end Corosched
