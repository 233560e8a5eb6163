/-
# The stack functions of `cs_coro.c`

`coro_stack_alloc` maps a stack with guard pages below it, and `coro_stack_free` unmaps both.  The
configuration is that of `Corosched.Frame`, where `CORO_MMAP` is set and `CORO_GUARDPAGES` is 4.
The kernel answers the two calls of `mmap` and the call of `mprotect`, whose result the source does
not look at.

`stacks_hold` is about every run of calls on many stacks, with anything else mapped and unmapped in
between; where `mprotect` has failed, the guard pages below a stack are as open as the stack.
`stack_starts_aligned` puts such a stack under a context: unlike a stack of `coro_alloc` it starts
its function on an aligned stack pointer.
-/
import Corosched.Contexts
import Corosched.Lib.Space

namespace Corosched
namespace Frame

open Bytes Amd64

/-! ## 1. The code -/

/-- `PROT_READ`, `PROT_WRITE` and `PROT_EXEC`. -/
structure Prot where
  read : Bool
  write : Bool
  exec : Bool

/-- `PROT_NONE`. -/
def PROT_NONE : Prot := ⟨false, false, false⟩

/-- `struct coro_stack`. -/
structure CoroStack where
  sptr : BitVec 64
  ssze : BitVec 64

/-- The answers of the kernel: the `mmap` with `PROT_EXEC`, the one without, where `none` is
`(void *)-1`, and whether `mprotect` succeeds. -/
structure Answers where
  mmapExec : Option (BitVec 64)
  mmapPlain : Option (BitVec 64)
  mprotect : Bool

/-- The pages that start in the `n` bytes from `b` on; `b` is the start of a page. -/
def pages (P b n : Nat) : Set Nat := { p | b ≤ p * P ∧ p * P < b + n }

/-- The `n` bytes from `b` on are mapped in a new way, or no longer. -/
def remap (P : BitVec 64) (m : Space.Map Nat Prot) (b n : BitVec 64) (x : Option Prot) :
    Space.Map Nat Prot :=
  fun p => if b.toNat ≤ p * P.toNat ∧ p * P.toNat < b.toNat + n.toNat then x else m p

/-- `CORO_GUARDPAGES`. -/
def CORO_GUARDPAGES : BitVec 64 := 4#64

/-- The number of pointers a stack is to have room for. -/
def asked (size : BitVec 32) : BitVec 32 := if size = 0#32 then 262144#32 else size

/-- `coro_stack_alloc(stack, size)`: the address space, `*stack` and what is returned. -/
def coroStackAlloc (PAGESIZE : BitVec 64) (m : Space.Map Nat Prot) (size : BitVec 32)
    (r : Answers) : Space.Map Nat Prot × CoroStack × Bool :=
  let ssze := ((asked size).zeroExtend 64 * 8#64 + PAGESIZE - 1#64) / PAGESIZE * PAGESIZE
  let len := ssze + CORO_GUARDPAGES * PAGESIZE
  let done := fun (base : BitVec 64) (prot : Prot) =>
    let m := remap PAGESIZE m base len (some prot)
    let m := if r.mprotect then
        remap PAGESIZE m base (CORO_GUARDPAGES * PAGESIZE) (some PROT_NONE)
      else m
    (m, (⟨base + CORO_GUARDPAGES * PAGESIZE, ssze⟩ : CoroStack), true)
  match r.mmapExec with
  | some base => done base ⟨true, true, true⟩
  | none =>
    match r.mmapPlain with
    | some base => done base ⟨true, true, false⟩
    | none => (m, ⟨0#64, ssze⟩, false)

/-- `coro_stack_free(stack)`. -/
def coroStackFree (PAGESIZE : BitVec 64) (m : Space.Map Nat Prot) (stack : CoroStack) :
    Space.Map Nat Prot :=
  if stack.sptr ≠ 0#64 then
    remap PAGESIZE m (stack.sptr - CORO_GUARDPAGES * PAGESIZE)
      (stack.ssze + CORO_GUARDPAGES * PAGESIZE) none
  else m

/-! ## 2. Sizes -/

/-- What `sysconf(_SC_PAGESIZE)` may be. -/
structure PageSize (P : BitVec 64) : Prop where
  aligned : 16 ∣ P.toNat
  room : 64 ≤ P.toNat
  bound : P.toNat ≤ 2 ^ 32

/-- The size of a stack and its guard pages, as numbers. -/
structure Sized (P : BitVec 64) (n : Nat) (ssze : BitVec 64) : Prop where
  dvd : P.toNat ∣ ssze.toNat
  room : 8 * n ≤ ssze.toNat
  tight : ssze.toNat < 8 * n + P.toNat

variable {P b n : BitVec 64} {m m' : Space.Map Nat Prot} {x : Option Prot} {p : Nat}

theorem guard_toNat (hP : PageSize P) : (CORO_GUARDPAGES * P).toNat = 4 * P.toNat := by
  have := hP.bound
  rw [BitVec.toNat_mul, show CORO_GUARDPAGES.toNat = 4 from rfl]
  omega

/-- **No size overflows**: the stack is the least number of pages with room for what was asked. -/
theorem ssze_sized (hP : PageSize P) (k : BitVec 32) :
    Sized P k.toNat ((k.zeroExtend 64 * 8#64 + P - 1#64) / P * P) := by
  have hb := hP.bound
  have hr := hP.room
  have hk := k.isLt
  have hsum : (k.zeroExtend 64 * 8#64 + P - 1#64).toNat = 8 * k.toNat + (P.toNat - 1) := by
    have hz : (k.zeroExtend 64).toNat = k.toNat := by simp; omega
    simp only [BitVec.toNat_sub, BitVec.toNat_add, BitVec.toNat_mul, hz, BitVec.toNat_ofNat]
    omega
  have hq : (8 * k.toNat + (P.toNat - 1)) / P.toNat * P.toNat ≤ 8 * k.toNat + (P.toNat - 1) :=
    Nat.div_mul_le_self _ _
  have hssze : ((k.zeroExtend 64 * 8#64 + P - 1#64) / P * P).toNat
      = (8 * k.toNat + (P.toNat - 1)) / P.toNat * P.toNat := by
    rw [BitVec.toNat_mul, BitVec.toNat_udiv, hsum]
    exact Nat.mod_eq_of_lt (by omega)
  have hrest := Nat.div_add_mod (8 * k.toNat + (P.toNat - 1)) P.toNat
  rw [Nat.mul_comm] at hrest
  have hmod := Nat.mod_lt (8 * k.toNat + (P.toNat - 1)) (show 0 < P.toNat by omega)
  exact ⟨hssze ▸ Nat.dvd_mul_left _ _, by omega, by omega⟩

theorem asked_pos (size : BitVec 32) : 0 < (asked size).toNat := by
  rw [asked]
  split
  · decide
  · rename_i h
    exact Nat.pos_of_ne_zero fun h' => h (BitVec.eq_of_toNat_eq h')

/-! ## 3. Mapping and unmapping -/

theorem remap_of_mem (hp : p ∈ pages P.toNat b.toNat n.toNat) : remap P m b n x p = x :=
  if_pos hp

theorem remap_elsewhere : Space.Elsewhere (pages P.toNat b.toNat n.toNat) m (remap P m b n x) :=
  fun _ hp => if_neg hp

/-- What a stack takes up: its guard pages and itself. -/
def CoroStack.region (P : BitVec 64) (k : CoroStack) : Set Nat :=
  if k.sptr = 0#64 then ∅ else pages P.toNat (k.sptr.toNat - 4 * P.toNat)
    (k.ssze.toNat + 4 * P.toNat)

/-- What `mmap` documents: whole pages, which do not wrap around and were not mapped. -/
def MmapOk (P : BitVec 64) (m : Space.Map Nat Prot) (len : Nat) (r : Option (BitVec 64)) : Prop :=
  ∀ base ∈ r, P.toNat ∣ base.toNat ∧ base.toNat + len ≤ 2 ^ 64 ∧
    ∀ p ∈ pages P.toNat base.toNat len, m p = none

/-- What the kernel may answer to a call of `coro_stack_alloc`. -/
def AnswersOk (P : BitVec 64) (m : Space.Map Nat Prot) (size : BitVec 32) (r : Answers) : Prop :=
  ∀ ssze, Sized P (asked size).toNat ssze →
    MmapOk P m (ssze.toNat + 4 * P.toNat) r.mmapExec ∧
      MmapOk P m (ssze.toNat + 4 * P.toNat) r.mmapPlain

/-- **A stack as it was asked for**: whole pages with room for `size` pointers, readable and
writable, above pages that nobody may touch if the kernel has agreed to that. -/
structure Fits (P : BitVec 64) (m : Space.Map Nat Prot) (k : CoroStack) (size : BitVec 32)
    (guarded : Bool) : Prop where
  sized : Sized P (asked size).toNat k.ssze
  aligned : P.toNat ∣ k.sptr.toNat
  below : 4 * P.toNat ≤ k.sptr.toNat
  inside : k.sptr.toNat + k.ssze.toNat ≤ 2 ^ 64
  usable : ∀ p ∈ pages P.toNat k.sptr.toNat k.ssze.toNat,
    ∃ x, m p = some x ∧ x.read = true ∧ x.write = true
  guard : guarded = true → ∀ p ∈ pages P.toNat (k.sptr.toNat - 4 * P.toNat) (4 * P.toNat),
    m p = some PROT_NONE

variable {k : CoroStack} {size : BitVec 32} {r : Answers} {guarded : Bool}

/-- What is in a part of a range is in the range. -/
theorem pages_mono {P b n c l : Nat} (h : b ≤ c) (h' : c + l ≤ b + n) : pages P c l ⊆ pages P b n :=
  fun _ hp => ⟨Nat.le_trans h hp.1, Nat.lt_of_lt_of_le hp.2 h'⟩

/-- The `n` bytes from `b` on are mapped, and then the first `g` of them are closed, if the kernel
agrees to that. -/
theorem remap_guarded {prot : Prot} {g : BitVec 64} (hg : g.toNat ≤ n.toNat)
    (hm : m' = if guarded then remap P (remap P m b n (some prot)) b g (some PROT_NONE)
      else remap P m b n (some prot)) :
    Space.Elsewhere (pages P.toNat b.toNat n.toNat) m m' ∧
      (∀ p ∈ pages P.toNat b.toNat n.toNat, (m' p).isSome = true) ∧
      (∀ p ∈ pages P.toNat b.toNat n.toNat, p ∉ pages P.toNat b.toNat g.toNat →
        m' p = some prot) ∧
      (guarded = true → ∀ p ∈ pages P.toNat b.toNat g.toNat, m' p = some PROT_NONE) := by
  have hsub : pages P.toNat b.toNat g.toNat ⊆ pages P.toNat b.toNat n.toNat :=
    pages_mono le_rfl (Nat.add_le_add_left hg _)
  cases guarded with
  | false =>
    subst hm
    have hall : ∀ p ∈ pages P.toNat b.toNat n.toNat, remap P m b n (some prot) p = some prot :=
      fun p hp => remap_of_mem hp
    exact ⟨remap_elsewhere, fun p hp => by rw [if_neg (by simp), hall p hp]; rfl,
      fun p hp _ => hall p hp, fun h => absurd h (by simp)⟩
  | true =>
    subst hm
    have hlow : ∀ p, p ∉ pages P.toNat b.toNat g.toNat →
        remap P (remap P m b n (some prot)) b g (some PROT_NONE) p
          = remap P m b n (some prot) p := fun p hp => remap_elsewhere p hp
    refine ⟨fun p hp => (hlow p fun h => hp (hsub h)).trans (remap_elsewhere p hp), fun p hp => ?_,
      fun p hp hp' => (hlow p hp').trans (remap_of_mem hp), fun _ p hp => remap_of_mem hp⟩
    by_cases hp' : p ∈ pages P.toNat b.toNat g.toNat
    · rw [if_pos rfl, remap_of_mem hp']
      rfl
    · rw [if_pos rfl, hlow p hp', remap_of_mem hp]
      rfl

/-- The branch of `coro_stack_alloc` in which an `mmap` has succeeded. -/
theorem mapped_spec (hP : PageSize P) {base ssze : BitVec 64} {prot : Prot}
    (hsize : Sized P (asked size).toNat ssze)
    (hbase : MmapOk P m (ssze.toNat + 4 * P.toNat) (some base))
    (hprot : prot.read = true ∧ prot.write = true)
    (hm : m' = if guarded then
        remap P (remap P m base (ssze + CORO_GUARDPAGES * P) (some prot)) base
          (CORO_GUARDPAGES * P) (some PROT_NONE)
      else remap P m base (ssze + CORO_GUARDPAGES * P) (some prot))
    (hk : k = ⟨base + CORO_GUARDPAGES * P, ssze⟩) :
    k.sptr ≠ 0#64 ∧ Space.Elsewhere (k.region P) m m' ∧ (∀ p ∈ k.region P, m p = none) ∧
      (∀ p ∈ k.region P, (m' p).isSome = true) ∧ Fits P m' k size guarded := by
  obtain ⟨hdvd, hle, hfree⟩ := hbase base rfl
  have hroom := hP.room
  have hb := hP.bound
  have hpos := asked_pos size
  have hlt := (asked size).isLt
  have hsz := hsize.room
  have htight := hsize.tight
  have hguard := guard_toNat hP
  have hlen : (ssze + CORO_GUARDPAGES * P).toNat = ssze.toNat + 4 * P.toNat := by
    rw [BitVec.toNat_add, hguard]
    omega
  have hsptr : (base + CORO_GUARDPAGES * P).toNat = base.toNat + 4 * P.toNat := by
    rw [BitVec.toNat_add, hguard]
    omega
  have hne : base + CORO_GUARDPAGES * P ≠ 0#64 := by
    intro h
    have := congrArg BitVec.toNat h
    rw [hsptr] at this
    simp only [BitVec.toNat_ofNat] at this
    omega
  obtain ⟨hout, hsome, hopen, hclosed⟩ := remap_guarded (by omega) hm
  rw [hlen] at hout hsome hopen
  rw [hguard] at hopen hclosed
  subst hk
  have hregion : CoroStack.region P ⟨base + CORO_GUARDPAGES * P, ssze⟩
      = pages P.toNat base.toNat (ssze.toNat + 4 * P.toNat) := by
    rw [CoroStack.region, if_neg hne]
    simp only [hsptr, Nat.add_sub_cancel]
  rw [hregion]
  refine ⟨hne, hout, hfree, hsome, hsize, ?_, ?_, ?_, fun p hp => ?_, fun hg p hp => ?_⟩
  · exact hsptr ▸ (Nat.dvd_add hdvd (Nat.dvd_mul_left _ _))
  · exact hsptr ▸ Nat.le_add_left _ _
  · simp only [hsptr]
    omega
  · simp only [hsptr] at hp
    refine ⟨prot, hopen p (pages_mono (by omega) (by omega) hp) fun h => ?_, hprot⟩
    have := h.2
    exact absurd hp.1 (by omega)
  · refine hclosed hg p ?_
    simpa only [hsptr, Nat.add_sub_cancel] using hp

/-- **What `coro_stack_alloc` does**: it fails and maps nothing, or the stack is as asked for, in
pages that were not mapped, and no other page is touched. -/
theorem coroStackAlloc_spec (hP : PageSize P) (hr : AnswersOk P m size r) {ok : Bool}
    (h : coroStackAlloc P m size r = (m', k, ok)) :
    (ok = false ∧ m' = m ∧ k.sptr = 0#64) ∨
    (ok = true ∧ k.sptr ≠ 0#64 ∧ Space.Elsewhere (k.region P) m m' ∧
      (∀ p ∈ k.region P, m p = none) ∧ (∀ p ∈ k.region P, (m' p).isSome = true) ∧
      Fits P m' k size r.mprotect) := by
  have hsize := ssze_sized hP (asked size)
  obtain ⟨hexec, hplain⟩ := hr _ hsize
  rw [coroStackAlloc] at h
  split at h
  · rename_i base hbase
    obtain ⟨hm, h⟩ := Prod.mk.inj h
    obtain ⟨hk, hok⟩ := Prod.mk.inj h
    exact .inr ⟨hok.symm, mapped_spec hP hsize (hbase ▸ hexec) ⟨rfl, rfl⟩ hm.symm hk.symm⟩
  · split at h
    · rename_i base hbase
      obtain ⟨hm, h⟩ := Prod.mk.inj h
      obtain ⟨hk, hok⟩ := Prod.mk.inj h
      exact .inr ⟨hok.symm, mapped_spec hP hsize (hbase ▸ hplain) ⟨rfl, rfl⟩ hm.symm hk.symm⟩
    · obtain ⟨hm, h⟩ := Prod.mk.inj h
      obtain ⟨hk, hok⟩ := Prod.mk.inj h
      exact .inl ⟨hok.symm, hm.symm, hk ▸ rfl⟩

/-- **What `coro_stack_free` does**: it unmaps what the stack takes up, and that is nothing after a
`coro_stack_alloc` that has failed. -/
theorem coroStackFree_spec (hP : PageSize P) (hk : k.sptr ≠ 0#64 → Fits P m k size guarded) :
    Space.Elsewhere (k.region P) m (coroStackFree P m k) ∧
      ∀ p ∈ k.region P, coroStackFree P m k p = none := by
  by_cases hne : k.sptr = 0#64
  · simp only [CoroStack.region, coroStackFree, hne, if_true, ne_eq, not_true_eq_false, if_false]
    exact ⟨fun _ _ => rfl, fun _ hp => hp.elim⟩
  · have hfit := hk hne
    have hb := hP.bound
    have hbelow := hfit.below
    have hinside := hfit.inside
    have htight := hfit.sized.tight
    have hlt := (asked size).isLt
    have hguard := guard_toNat hP
    have hbase : (k.sptr - CORO_GUARDPAGES * P).toNat = k.sptr.toNat - 4 * P.toNat := by
      rw [BitVec.toNat_sub, hguard]
      omega
    have hlen : (k.ssze + CORO_GUARDPAGES * P).toNat = k.ssze.toNat + 4 * P.toNat := by
      rw [BitVec.toNat_add, hguard]
      omega
    rw [CoroStack.region, if_neg hne, coroStackFree, if_pos hne, ← hbase, ← hlen]
    exact ⟨remap_elsewhere, fun p hp => remap_of_mem hp⟩

/-- What is not touched still fits. -/
theorem Fits.congr (h : Fits P m k size guarded) (hne : k.sptr ≠ 0#64)
    (hm : ∀ p ∈ k.region P, m' p = m p) : Fits P m' k size guarded := by
  have hbelow := h.below
  have hmem : ∀ {c l p}, k.sptr.toNat - 4 * P.toNat ≤ c → c + l ≤ k.sptr.toNat + k.ssze.toNat →
      p ∈ pages P.toNat c l → p ∈ k.region P := by
    intro c l p hc hl hp
    rw [CoroStack.region, if_neg hne]
    exact pages_mono hc (by omega) hp
  refine ⟨h.sized, h.aligned, hbelow, h.inside, fun p hp => ?_, fun hg p hp => ?_⟩
  · rw [hm p (hmem (by omega) (by omega) hp)]
    exact h.usable p hp
  · rw [hm p (hmem (by omega) (by omega) hp)]
    exact h.guard hg p hp

/-! ## 4. Many stacks -/

/-- What a call of `coro_stack_alloc` has asked for, and whether its `mprotect` has succeeded. -/
structure Request where
  size : BitVec 32
  guarded : Bool

/-- The address space and the `struct coro_stack`s.  `rest` is what the rest of the program has
mapped, and `held` are the stacks between `coro_stack_alloc` and `coro_stack_free`; nothing reads
these two. -/
structure Stacks where
  space : Space.Map Nat Prot
  rest : Space.Map Nat Prot
  stack : Nat → CoroStack
  held : Nat → Option Request

/-- The calls, each on the stack with the given number. -/
inductive StackAct
  | alloc (i : Nat) (size : BitVec 32) (r : Answers)
  | free (i : Nat)
  /-- the rest of the program maps or unmaps a page -/
  | other (p : Nat) (x : Option Prot)

def stackStep (P : BitVec 64) : Machine Stacks StackAct Fault := fun s act =>
  some (.ok (match act with
    | .alloc i size r =>
      let (m, k, _) := coroStackAlloc P s.space size r
      { s with
        space := m
        stack := Function.update s.stack i k
        held := Function.update s.held i (some ⟨size, r.mprotect⟩) }
    | .free i =>
      { s with
        space := coroStackFree P s.space (s.stack i)
        held := Function.update s.held i none }
    | .other p x =>
      { s with space := Function.update s.space p x, rest := Function.update s.rest p x }))

/-- What the stack with the number `i` takes up. -/
def Stacks.region (P : BitVec 64) (s : Stacks) (i : Nat) : Set Nat :=
  if (s.held i).isSome then (s.stack i).region P else ∅

/-- A stack is freed once, and not allocated again before; the kernel maps only what is not mapped,
and the rest of the program keeps to its own pages. -/
def StackOk (P : BitVec 64) (s : Stacks) : StackAct → Prop
  | .alloc i size r => s.held i = none ∧ AnswersOk P s.space size r
  | .free i => (s.held i).isSome = true
  | .other p _ => ∀ i, p ∉ s.region P i

/-- No stack is held, and the program has mapped `m`. -/
def Stacks.start (m : Space.Map Nat Prot) (stack : Nat → CoroStack) : Stacks :=
  ⟨m, m, stack, fun _ => none⟩

/-- **The stacks and the rest of the address space**: each stack that is held has its own pages and
fits what was asked for, and the rest of the space is as the rest of the program has it. -/
structure Laid (P : BitVec 64) (s : Stacks) : Prop where
  holding : Space.Holding s.space s.rest (s.region P)
  fits : ∀ i q, s.held i = some q → (s.stack i).sptr ≠ 0#64 →
    Fits P s.space (s.stack i) q.size q.guarded

variable {s s' : Stacks} {act : StackAct} {i j : Nat}

theorem Stacks.region_of_none (h : s.held i = none) : s.region P i = ∅ := by
  simp [Stacks.region, h]

theorem Stacks.region_of_some {q : Request} (h : s.held i = some q) :
    s.region P i = (s.stack i).region P := by
  simp [Stacks.region, h]

/-- `coro_stack_alloc` keeps the layout. -/
theorem Laid.alloc (hP : PageSize P) (h : Laid P s) (hi : s.held i = none)
    (hr : AnswersOk P s.space size r) {ok : Bool}
    (halloc : coroStackAlloc P s.space size r = (m', k, ok)) :
    Laid P { s with
      space := m'
      stack := Function.update s.stack i k
      held := Function.update s.held i (some ⟨size, r.mprotect⟩) } := by
  have hregion : ∀ {m : Space.Map Nat Prot}, Stacks.region P { s with
      space := m
      stack := Function.update s.stack i k
      held := Function.update s.held i (some ⟨size, r.mprotect⟩) }
        = Function.update (s.region P) i (k.region P) := by
    intro m
    funext j
    by_cases hj : j = i
    · subst hj
      simp [Stacks.region]
    · simp [Stacks.region, hj]
  rcases coroStackAlloc_spec hP hr halloc with
    ⟨-, rfl, hnull⟩ | ⟨-, hne, hout, hfree, hmapped, hfit⟩
  · -- nothing is mapped, and the stack takes up nothing
    have hempty : k.region P = ∅ := if_pos hnull
    refine ⟨?_, fun j q hq hnej => ?_⟩
    · rw [hregion, hempty, ← Stacks.region_of_none (P := P) hi, Function.update_eq_self]
      exact h.holding
    · by_cases hj : j = i
      · subst hj
        simp only [Function.update_self] at hnej
        exact absurd hnull hnej
      · simp only [Function.update_of_ne hj] at hq hnej ⊢
        exact h.fits j q hq hnej
  · refine ⟨?_, fun j q hq hnej => ?_⟩
    · rw [hregion]
      exact h.holding.take (Stacks.region_of_none hi) hfree hout hmapped
    · by_cases hj : j = i
      · subst hj
        simp only [Function.update_self, Option.some.injEq] at hq ⊢
        subst hq
        exact hfit
      · simp only [Function.update_of_ne hj] at hq hnej ⊢
        refine (h.fits j q hq hnej).congr hnej fun p hp => hout p fun hpk => ?_
        rw [← Stacks.region_of_some hq] at hp
        exact h.holding.not_mem (hfree p hpk) j hp

/-- `coro_stack_free` keeps the layout. -/
theorem Laid.free (hP : PageSize P) (h : Laid P s) {q : Request} (hi : s.held i = some q) :
    Laid P { s with
      space := coroStackFree P s.space (s.stack i)
      held := Function.update s.held i none } := by
  obtain ⟨hout, hgone⟩ := coroStackFree_spec hP (h.fits i q hi)
  rw [← Stacks.region_of_some hi] at hout hgone
  refine ⟨?_, fun j q hq hne => ?_⟩
  · have hregion : Stacks.region P { s with
        space := coroStackFree P s.space (s.stack i)
        held := Function.update s.held i none } = Function.update (s.region P) i ∅ := by
      funext j
      by_cases hj : j = i
      · subst hj
        simp [Stacks.region]
      · simp [Stacks.region, hj]
    rw [hregion]
    exact h.holding.give hout hgone
  · by_cases hj : j = i
    · subst hj
      simp at hq
    · simp only [Function.update_of_ne hj] at hq
      refine (h.fits j q hq hne).congr hne fun p hp => hout p fun hpi => ?_
      rw [← Stacks.region_of_some hq] at hp
      exact hj (h.holding.apart j i p hp hpi)

/-- **Every step keeps the layout.** -/
theorem Laid.step (hP : PageSize P) (h : Laid P s) (hok : StackOk P s act)
    (hstep : stackStep P s act = some (.ok s')) : Laid P s' := by
  obtain rfl := Except.ok.inj (Option.some.inj hstep)
  cases act with
  | alloc i size r => exact h.alloc hP hok.1 hok.2 rfl
  | free i =>
    obtain ⟨q, hq⟩ := Option.isSome_iff_exists.mp hok
    exact h.free hP hq
  | other p x =>
    refine ⟨h.holding.other hok, fun j q hq hne => ?_⟩
    refine (h.fits j q hq hne).congr hne fun p' hp' => Function.update_of_ne ?_ _ _
    rintro rfl
    exact hok j (Stacks.region_of_some hq ▸ hp')

theorem Laid.run (hP : PageSize P) {stack : Nat → CoroStack} {as : List StackAct}
    (h : Machine.Run (stackStep P) (StackOk P) (Stacks.start m stack) as s) : Laid P s := by
  refine h.inv (fun _ _ _ hl hok hstep => hl.step hP hok hstep) ?_
  have hregion : Stacks.region P (Stacks.start m stack) = fun _ => ∅ := by
    funext i
    exact Stacks.region_of_none rfl
  exact ⟨hregion ▸ Space.Holding.start m, fun i q hq => absurd hq (by simp [Stacks.start])⟩

/-- One stack for one pointer, which the kernel does not let be executable. -/
def oneStack : Stacks :=
  ⟨(coroStackAlloc 4096#64 (fun _ => none) 1#32 ⟨none, some 65536#64, true⟩).1, fun _ => none,
    Function.update (fun _ => ⟨0#64, 0#64⟩) 0 ⟨81920#64, 4096#64⟩,
    Function.update (fun _ => none) 0 (some ⟨1#32, true⟩)⟩

theorem oneStack_run :
    Machine.Run (stackStep 4096#64) (StackOk 4096#64)
      (Stacks.start (fun _ => none) fun _ => ⟨0#64, 0#64⟩)
      [.alloc 0 1#32 ⟨none, some 65536#64, true⟩] oneStack := by
  refine Machine.Run.single ⟨rfl, fun ssze hsize => ⟨fun _ h => absurd h (by simp), ?_⟩⟩ rfl
  intro base hbase
  obtain rfl := Option.some.inj hbase
  have htight := hsize.tight
  have hasked : (asked 1#32).toNat = 1 := rfl
  have hpage : (4096#64 : BitVec 64).toNat = 4096 := rfl
  have hbase : (65536#64 : BitVec 64).toNat = 65536 := rfl
  exact ⟨by decide, by omega, fun _ _ => rfl⟩

/-- The end of a stack, which may be the end of memory. -/
theorem CoroStack.top (k : CoroStack) :
    k.ssze + k.sptr = BitVec.ofNat 64 (k.sptr.toNat + k.ssze.toNat) := by
  apply BitVec.eq_of_toNat_eq
  rw [BitVec.toNat_add, BitVec.toNat_ofNat, Nat.add_comm]

/-- A stack holds the first frame, and ends at a multiple of 16. -/
theorem Fits.holds_frame (hP : PageSize P) (h : Fits P m k size guarded) :
    64 ≤ k.ssze.toNat ∧ (k.sptr.toNat + k.ssze.toNat) % 16 = 0 := by
  have hroom := h.sized.room
  have hpos := asked_pos size
  have hle : P.toNat ≤ k.ssze.toNat := Nat.le_of_dvd (by omega) h.sized.dvd
  have hpage := hP.room
  refine ⟨by omega, Nat.mod_eq_zero_of_dvd ?_⟩
  exact hP.aligned.trans (Nat.dvd_add h.aligned h.sized.dvd)

/-- **A context on a stack of `coro_stack_alloc` starts as the calling convention asks for.**  After
any run of calls on the stacks, and any run of the thread, a context is created on a stack that is
held: what `coro_create` writes to the stack is inside it, and the transfer to the context arrives
in `coro_init` with the stack pointer inside the stack, and a multiple of 16 plus 8. -/
theorem stack_starts_aligned (hP : PageSize P) {stack : Nat → CoroStack} {as : List StackAct}
    {bs : List Act} {q : Request} {t₀ t₁ t₂ : Thread} {sym : Symbols}
    {nctx ctx coro arg ret entry : BitVec 64} {live : Nat}
    (h : Machine.Run (stackStep P) (StackOk P) (Stacks.start m stack) as s)
    (hi : s.held i = some q) (hne : (s.stack i).sptr ≠ 0#64) (h₀ : t₀.parked = fun _ => none)
    (before : Machine.Run threadStep Disciplined t₀ bs t₁)
    (create : Machine.Run threadStep Disciplined t₁
      [.create sym nctx ctx coro arg (s.stack i).sptr (s.stack i).ssze,
        .transfer nctx ctx ret entry live] t₂) :
    (∀ w ∈ (coroCreate sym t₁.process nctx ctx coro arg (s.stack i).sptr (s.stack i).ssze).2,
      (s.stack i).sptr.toNat ≤ w.toNat ∧
        w.toNat + 8 ≤ (s.stack i).sptr.toNat + (s.stack i).ssze.toNat) ∧
    t₂.cpu.rip = sym.coroInit ∧ AbiAligned t₂.cpu ∧
    (s.stack i).sptr.toNat ≤ (t₂.cpu.reg .rsp).toNat ∧
      (t₂.cpu.reg .rsp).toNat + 8 ≤ (s.stack i).sptr.toNat + (s.stack i).ssze.toNat := by
  have hfit := (Laid.run hP h).fits i q hi hne
  generalize s.stack i = k at hfit create ⊢
  obtain ⟨hroom, halign⟩ := hfit.holds_frame hP
  have hinside := hfit.inside
  have hkept₁ := (keepsAll_of_none h₀).run before
  obtain ⟨s', run₁, run₂⟩ := create.cons_inv
  have hkept := hkept₁.run run₁
  obtain ⟨⟨hcoro, hctx, -, -⟩, rfl⟩ := run_one run₁
  obtain ⟨hd, rfl⟩ := run_one run₂
  have hback := transfer_resumes hkept hd (Function.update_self _ _ _)
  have hsp : (((Act.transfer nctx ctx ret entry live).apply
      ((Act.create sym nctx ctx coro arg k.sptr k.ssze).apply t₁)).cpu.reg .rsp)
        = BitVec.ofNat 64 (k.sptr.toNat + k.ssze.toNat) - 8#64 := by
    rw [← k.top]
    exact hback.rsp
  refine ⟨fun w hw => ?_, hback.rip, ?_, ?_⟩
  · obtain ⟨m', hcode, -⟩ := coroCreate_spec sym t₁.process nctx arg hcoro rfl hctx
    rw [hcode, k.top] at hw
    have := frameWords_bounds (by omega) hinside hw
    omega
  · rw [AbiAligned, hsp, BitVec.sub_add_cancel, BitVec.toNat_ofNat]
    omega
  · rw [hsp, BitVec.toNat_sub, BitVec.toNat_ofNat]
    simp only [BitVec.toNat_ofNat]
    omega

/-- A context at 4096 on that stack, for the function at 3. -/
theorem stack_starts_aligned_once :
    ∃ t₂ : Thread, t₂.cpu.rip = 2#64 ∧ AbiAligned t₂.cpu ∧ 81920 ≤ (t₂.cpu.reg .rsp).toNat := by
  obtain ⟨t₁, t₂, create, -⟩ := bareThread_creates 81920#64 4096#64 (by decide) (by decide)
  obtain ⟨-, hrip, halign, hlow, -⟩ := stack_starts_aligned ⟨by decide, by decide, by decide⟩
    oneStack_run (i := 0) (q := ⟨1#32, true⟩) rfl (by decide) rfl .nil create
  exact ⟨_, hrip, halign, hlow⟩

end Frame
end Corosched
