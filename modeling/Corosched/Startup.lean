/-
# `env_init`

What `env_init` and `eventmgr_init` allocate and write, for every pattern of success and failure of
their calls.  Blocks from `malloc` start with arbitrary contents.  `eventmgr_init` assigns to its
own parameter, so `g_eventmgr` stays null; and no failure exit gives back what was acquired.
-/
import Corosched.Eventmgr

namespace Corosched

open State Tailq

/-! ## 1. Memory -/

/-- The functions `env_init` creates coroutines with. -/
inductive FrameworkFn
  | schedRun
  | parallelRun
  | schedulebackRun
  | eventLoop

/-- `struct scheduler`, without its queue and its `main_coro`. -/
structure SchedulerBlock where
  stop : Int
  schedCoro : Option Addr
  currentCoro : Option Addr
  isParallelSched : Bool

/-- `struct salfschedulebackadapter`. -/
structure AdapterBlock where
  scbdCoro : Option Addr
  readfd : Int
  writefd : Int

/-- `struct eventmanager`. -/
structure EventmgrBlock where
  epfd : Int
  events : Option Addr
  nevent : Int
  maxTimeout : Int
  evmgrCoro : Option Addr
  stop : Int

/-- `struct coroutine` as `coro_alloc` sets it up; `sched` is a pointer to a scheduler. -/
structure CoroutineBlock where
  fn : FrameworkFn
  status : Status
  sched : Option Addr
  needParallel : Bool

/-- What can be acquired and has to be released. -/
inductive Resource
  | block (a : Addr)
  | fd (n : Int)

/-- The globals, the blocks they lead to, and what has been acquired and released. -/
structure Env where
  mastersched : Option Addr
  parallelsched : Option Addr
  schedulebackadapter : Option Addr
  eventmgr : Option Addr
  scheds : Addr → Option SchedulerBlock
  adapters : Addr → Option AdapterBlock
  mgrs : Addr → Option EventmgrBlock
  coros : Addr → Option CoroutineBlock
  /-- `wait_sched_queue` of the schedulers, by their addresses -/
  queue : Heap Addr Addr
  acquired : List Resource
  released : List Resource

/-- What the calls of `env_init` and `eventmgr_init` return; a block comes with what is in it. -/
structure InitResults where
  mastersched : Option (Addr × SchedulerBlock)
  parallelsched : Option (Addr × SchedulerBlock)
  schedulebackadapter : Option (Addr × AdapterBlock)
  masterCoro : Option Addr
  parallelCoro : Option Addr
  /-- what is in `fd[2]` before the call -/
  fd : Int × Int
  socketpair : Option (Int × Int)
  scbdCoro : Option Addr
  eventmgr : Option (Addr × EventmgrBlock)
  epollCreate : Option Int
  events : Option Addr
  evmgrCoro : Option Addr

/-! ## 2. Helpers -/

namespace Env

/-- Before `env_init`: the globals are null. -/
def start : Env where
  mastersched := none
  parallelsched := none
  schedulebackadapter := none
  eventmgr := none
  scheds := fun _ => none
  adapters := fun _ => none
  mgrs := fun _ => none
  coros := fun _ => none
  queue := ⟨fun _ => none, fun _ => none, fun _ => none⟩
  acquired := []
  released := []

/-- A successful call is recorded. -/
def acquire (m : Env) (x : Option Resource) : Env := { m with acquired := m.acquired ++ x.toList }

/-- `malloc` of a block, entered in one of the tables. -/
def enter {α : Type} (table : Addr → Option α) : Option (Addr × α) → Addr → Option α
  | none => table
  | some (a, b) => Function.update table a (some b)

/-- Writing a field of a scheduler. -/
def putSched (m : Env) (p : Option Addr) (f : SchedulerBlock → SchedulerBlock) :
    Except Fault Env := do
  let a ← deref p
  match m.scheds a with
  | none => throw .dangling
  | some b => pure { m with scheds := Function.update m.scheds a (some (f b)) }

/-- Writing a field of the adapter. -/
def putAdapter (m : Env) (p : Option Addr) (f : AdapterBlock → AdapterBlock) :
    Except Fault Env := do
  let a ← deref p
  match m.adapters a with
  | none => throw .dangling
  | some b => pure { m with adapters := Function.update m.adapters a (some (f b)) }

/-- Reading and writing the fields of the event manager. -/
def getMgr (m : Env) (p : Option Addr) : Except Fault EventmgrBlock := do
  let a ← deref p
  match m.mgrs a with
  | none => throw .dangling
  | some b => pure b

def putMgr (m : Env) (p : Option Addr) (f : EventmgrBlock → EventmgrBlock) :
    Except Fault Env := do
  let a ← deref p
  match m.mgrs a with
  | none => throw .dangling
  | some b => pure { m with mgrs := Function.update m.mgrs a (some (f b)) }

/-- `TAILQ_INIT(&sched->wait_sched_queue)`. -/
def tailqInit (m : Env) (p : Option Addr) : Except Fault Env := do
  let a ← deref p
  pure { m with queue := m.queue.init a }

/-- `coro_alloc`, where `cs_alloc` returns `mem`. -/
def coroAlloc (m : Env) (fn : FrameworkFn) : Option Addr → Env
  | none => m
  | some a =>
    { m with
      coros := Function.update m.coros a (some ⟨fn, .free, none, false⟩)
      queue := m.queue.map a }.acquire (some (.block a))

/-- `cs_free(p)` of the event manager; the pointer it is given becomes null. -/
def freeMgr (m : Env) (p : Option Addr) : Except Fault (Env × Option Addr) := do
  ASSERT p.isSome
  let a ← deref p
  match m.mgrs a with
  | none => throw .dangling
  | some _ => pure ({ m with
      mgrs := Function.update m.mgrs a none
      released := m.released ++ [.block a] }, none)

/-- `cs_free(p)` of the buffer of `epoll_wait`. -/
def freeEvents (m : Env) (p : Option Addr) : Except Fault Env := do
  ASSERT p.isSome
  let a ← deref p
  pure { m with released := m.released ++ [.block a] }

end Env

open Env

/-! ## 3. The functions -/

/-- `eventmgr_init(eventmgr, nevents)`: the parameter is assigned before it is read. -/
def eventmgrInit (m : Env) (_eventmgr : Option Addr) (nevents : Int) (r : InitResults) :
    Except Fault (Env × Rstatus) := do
  let eventmgr := r.eventmgr.map Prod.fst
  let m := { m with mgrs := enter m.mgrs r.eventmgr }.acquire (eventmgr.map .block)
  if eventmgr = none then pure (m, .err)
  else do
    let m := m.acquire (r.epollCreate.map .fd)
    let m ← m.putMgr eventmgr fun e => { e with epfd := r.epollCreate.getD (-1) }
    if (← m.getMgr eventmgr).epfd = -1 then do
      let (m, _) ← m.freeMgr eventmgr
      pure (m, .err)
    else do
      let m ← m.putMgr eventmgr fun e => { e with nevent := nevents }
      let m := m.acquire (r.events.map .block)
      let m ← m.putMgr eventmgr fun e => { e with events := r.events }
      if (← m.getMgr eventmgr).events = none then do
        let (m, _) ← m.freeMgr eventmgr
        pure (m, .err)
      else do
        let m := m.coroAlloc .eventLoop r.evmgrCoro
        let m ← m.putMgr eventmgr fun e => { e with evmgrCoro := r.evmgrCoro }
        if (← m.getMgr eventmgr).evmgrCoro = none then do
          let (m, eventmgr) ← m.freeMgr eventmgr
          let m ← m.freeEvents (← m.getMgr eventmgr).events
          pure (m, .err)
        else do
          let m ← m.putMgr eventmgr fun e => { e with stop := 0 }
          pure (m, .ok)

/-- `env_init` after the three allocations. -/
def envInitBlocks (m : Env) (r : InitResults) : Except Fault (Env × Rstatus) := do
  let m ← m.putSched m.mastersched fun s => { s with stop := 0 }
  let m := m.coroAlloc .schedRun r.masterCoro
  let m ← m.putSched m.mastersched fun s => { s with schedCoro := r.masterCoro }
  if r.masterCoro = none then pure (m, .err)
  else do
    let m ← m.putSched m.mastersched fun s => { s with currentCoro := none }
    let m ← m.tailqInit m.mastersched
    let m ← m.putSched m.parallelsched fun s => { s with stop := 0 }
    let m := m.coroAlloc .parallelRun r.parallelCoro
    let m ← m.putSched m.parallelsched fun s => { s with schedCoro := r.parallelCoro }
    let m ← m.putSched m.parallelsched fun s => { s with currentCoro := none }
    let m ← m.tailqInit m.parallelsched
    let fd := r.socketpair.getD r.fd
    let m := m.acquire (r.socketpair.map fun fd => .fd fd.1)
    let m := m.acquire (r.socketpair.map fun fd => .fd fd.2)
    let m := m.coroAlloc .schedulebackRun r.scbdCoro
    let m ← m.putAdapter m.schedulebackadapter fun d => { d with scbdCoro := r.scbdCoro }
    let m ← m.putAdapter m.schedulebackadapter fun d => { d with readfd := fd.1 }
    let m ← m.putAdapter m.schedulebackadapter fun d => { d with writefd := fd.2 }
    eventmgrInit m m.eventmgr eventSizeHint r

/-- `env_init`; `rbtree_init` of the registry, which cannot fail, is left out. -/
def envInit (r : InitResults) : Except Fault (Env × Rstatus) :=
  let m := Env.start
  let m := { m with
    mastersched := r.mastersched.map Prod.fst
    scheds := enter m.scheds r.mastersched }.acquire ((r.mastersched.map Prod.fst).map .block)
  let m := { m with
    parallelsched := r.parallelsched.map Prod.fst
    scheds := enter m.scheds r.parallelsched }.acquire ((r.parallelsched.map Prod.fst).map .block)
  let m := { m with
    schedulebackadapter := r.schedulebackadapter.map Prod.fst
    adapters := enter m.adapters r.schedulebackadapter }.acquire
      ((r.schedulebackadapter.map Prod.fst).map .block)
  if m.mastersched = none ∨ m.parallelsched = none ∨ m.schedulebackadapter = none then
    pure (m, .err)
  else envInitBlocks m r

/-! ## 4. All or nothing -/

/-- What `env_init` owes its callers when it returns `M_OK`. -/
structure Env.Ready (m : Env) (r : InitResults) : Prop where
  globals : m.mastersched ≠ none ∧ m.parallelsched ≠ none ∧ m.schedulebackadapter ≠ none ∧
    m.eventmgr ≠ none
  schedCoros : ∀ p ∈ [m.mastersched, m.parallelsched], ∃ a b c, p = some a ∧
    m.scheds a = some b ∧ b.schedCoro = some c ∧ m.coros c ≠ none
  scbdCoro : ∃ g a b c k, m.mastersched = some g ∧ m.schedulebackadapter = some a ∧
    m.adapters a = some b ∧ b.scbdCoro = some c ∧ m.coros c = some k ∧ k.sched = some g ∧
    Linked m.queue g c
  evmgrCoro : ∃ g a b c k, m.mastersched = some g ∧ m.eventmgr = some a ∧ m.mgrs a = some b ∧
    b.evmgrCoro = some c ∧ m.coros c = some k ∧ k.sched = some g ∧ Linked m.queue g c
  sockets : ∃ a b, m.schedulebackadapter = some a ∧ m.adapters a = some b ∧
    r.socketpair = some (b.readfd, b.writefd)
  isParallel : ∃ g h b d, m.mastersched = some g ∧ m.parallelsched = some h ∧
    m.scheds g = some b ∧ m.scheds h = some d ∧ b.isParallelSched = false ∧
    d.isParallelSched = true

/-- **All or nothing**: no null or freed pointer is dereferenced; after `M_OK` everything is set up,
after `M_ERR` each resource that was acquired has been released once. -/
def AllOrNothing (r : InitResults) : Prop :=
  ∃ m rs, envInit r = .ok (m, rs) ∧
    match rs with
    | .ok => m.Ready r
    | .err => m.acquired.Perm m.released

variable {m m' : Env} {r : InitResults} {p p' : Option Addr} {rs : Rstatus}

/-- `g_eventmgr` is null, and at least `n` more resources have been acquired than released. -/
structure Leaking (n : Nat) (m : Env) : Prop where
  eventmgr : m.eventmgr = none
  more : m.released.length + n ≤ m.acquired.length

variable {n : Nat}

/-- Acquiring more, and changing the blocks. -/
theorem Leaking.grow (h : Leaking n m) (he : m'.eventmgr = m.eventmgr)
    (ha : ∃ l, m'.acquired = m.acquired ++ l) (hr : m'.released = m.released) : Leaking n m' := by
  obtain ⟨l, hl⟩ := ha
  refine ⟨he.trans h.eventmgr, ?_⟩
  have hmore := h.more
  rw [hl, hr, List.length_append]
  omega

theorem Leaking.acquire (h : Leaking n m) (x : Option Resource) : Leaking n (m.acquire x) :=
  h.grow rfl ⟨x.toList, rfl⟩ rfl

theorem Leaking.coroAlloc (h : Leaking n m) (fn : FrameworkFn) (x : Option Addr) :
    Leaking n (m.coroAlloc fn x) := by
  cases x with
  | none => exact h
  | some a => exact h.grow rfl ⟨[.block a], rfl⟩ rfl

theorem Leaking.putSched {f : SchedulerBlock → SchedulerBlock} (h : Leaking n m)
    (h' : m.putSched p f = .ok m') : Leaking n m' := by
  simp only [Env.putSched, bind_eq_ok] at h'
  obtain ⟨a, -, h'⟩ := h'
  split at h'
  · exact absurd h' (by simp)
  · simp only [pure_eq_ok, Except.ok.injEq] at h'
    exact h' ▸ ⟨h.eventmgr, h.more⟩

theorem Leaking.putAdapter {f : AdapterBlock → AdapterBlock} (h : Leaking n m)
    (h' : m.putAdapter p f = .ok m') : Leaking n m' := by
  simp only [Env.putAdapter, bind_eq_ok] at h'
  obtain ⟨a, -, h'⟩ := h'
  split at h'
  · exact absurd h' (by simp)
  · simp only [pure_eq_ok, Except.ok.injEq] at h'
    exact h' ▸ ⟨h.eventmgr, h.more⟩

theorem Leaking.putMgr {f : EventmgrBlock → EventmgrBlock} (h : Leaking n m)
    (h' : m.putMgr p f = .ok m') : Leaking n m' := by
  simp only [Env.putMgr, bind_eq_ok] at h'
  obtain ⟨a, -, h'⟩ := h'
  split at h'
  · exact absurd h' (by simp)
  · simp only [pure_eq_ok, Except.ok.injEq] at h'
    exact h' ▸ ⟨h.eventmgr, h.more⟩

theorem Leaking.tailqInit (h : Leaking n m) (h' : m.tailqInit p = .ok m') : Leaking n m' := by
  simp only [Env.tailqInit, bind_eq_ok, pure_eq_ok, Except.ok.injEq] at h'
  obtain ⟨a, -, rfl⟩ := h'
  exact ⟨h.eventmgr, h.more⟩

/-- `cs_free` gives back one resource, and nulls the pointer. -/
theorem Leaking.freeMgr (h : Leaking (n + 1) m) (h' : m.freeMgr p = .ok (m', p')) :
    Leaking n m' ∧ p' = none := by
  simp only [Env.freeMgr, bind_eq_ok] at h'
  obtain ⟨-, -, a, -, h'⟩ := h'
  split at h'
  · exact absurd h' (by simp)
  · simp only [pure_eq_ok, Except.ok.injEq, Prod.mk.injEq] at h'
    obtain ⟨rfl, rfl⟩ := h'
    refine ⟨⟨h.eventmgr, ?_⟩, rfl⟩
    have hmore := h.more
    simp only [List.length_append, List.length_singleton]
    omega

/-- **`eventmgr_init`** frees at most its own block. -/
theorem Leaking.eventmgrInit {e : Option Addr} {k : Int} (h : Leaking (n + 1) m)
    (h' : eventmgrInit m e k r = .ok (m', rs)) : Leaking n m' := by
  have hle : ∀ {x : Env}, Leaking (n + 1) x → Leaking n x := fun hx =>
    ⟨hx.eventmgr, by have := hx.more; omega⟩
  unfold Corosched.eventmgrInit at h'
  have h₁ : Leaking (n + 1) ({ m with mgrs := enter m.mgrs r.eventmgr }.acquire
      ((r.eventmgr.map Prod.fst).map .block)) := h.grow rfl ⟨_, rfl⟩ rfl
  generalize r.eventmgr.map Prod.fst = p at h' h₁
  dsimp only at h'
  split at h'
  · simp only [pure_eq_ok, Except.ok.injEq, Prod.mk.injEq] at h'
    exact h'.1 ▸ hle h₁
  · obtain ⟨m₂, hput, h'⟩ := bind_eq_ok.mp h'
    have h₂ := (h₁.acquire _).putMgr hput
    obtain ⟨b, -, h'⟩ := bind_eq_ok.mp h'
    split at h'
    · obtain ⟨⟨m₃, p₃⟩, hfree, h'⟩ := bind_eq_ok.mp h'
      simp only [pure_eq_ok, Except.ok.injEq, Prod.mk.injEq] at h'
      exact h'.1 ▸ (h₂.freeMgr hfree).1
    · obtain ⟨m₃, hput, h'⟩ := bind_eq_ok.mp h'
      have h₃ := h₂.putMgr hput
      obtain ⟨m₄, hput, h'⟩ := bind_eq_ok.mp h'
      have h₄ := (h₃.acquire _).putMgr hput
      obtain ⟨b, -, h'⟩ := bind_eq_ok.mp h'
      split at h'
      · obtain ⟨⟨m₅, p₅⟩, hfree, h'⟩ := bind_eq_ok.mp h'
        simp only [pure_eq_ok, Except.ok.injEq, Prod.mk.injEq] at h'
        exact h'.1 ▸ (h₄.freeMgr hfree).1
      · obtain ⟨m₅, hput, h'⟩ := bind_eq_ok.mp h'
        have h₅ := (h₄.coroAlloc _ _).putMgr hput
        obtain ⟨b, -, h'⟩ := bind_eq_ok.mp h'
        split at h'
        · -- the pointer that `cs_free` has nulled is dereferenced
          obtain ⟨⟨m₆, p₆⟩, hfree, h'⟩ := bind_eq_ok.mp h'
          obtain ⟨-, rfl⟩ := h₅.freeMgr hfree
          exact absurd h' (by simp [Env.getMgr])
        · obtain ⟨m₆, hput, h'⟩ := bind_eq_ok.mp h'
          simp only [pure_eq_ok, Except.ok.injEq, Prod.mk.injEq] at h'
          exact h'.1 ▸ hle (h₅.putMgr hput)

/-- **After the first allocations** nothing that was acquired before is given back. -/
theorem Leaking.envInitBlocks (h : Leaking (n + 1) m)
    (h' : envInitBlocks m r = .ok (m', rs)) : Leaking n m' := by
  unfold Corosched.envInitBlocks at h'
  dsimp only at h'
  obtain ⟨m₁, hput, h'⟩ := bind_eq_ok.mp h'
  have h₁ := (h.putSched hput).coroAlloc .schedRun r.masterCoro
  obtain ⟨m₂, hput, h'⟩ := bind_eq_ok.mp h'
  have h₂ := h₁.putSched hput
  split at h'
  · simp only [pure_eq_ok, Except.ok.injEq, Prod.mk.injEq] at h'
    exact h'.1 ▸ ⟨h₂.eventmgr, by have := h₂.more; omega⟩
  · obtain ⟨m₃, hput, h'⟩ := bind_eq_ok.mp h'
    have h₃ := h₂.putSched hput
    obtain ⟨m₄, hput, h'⟩ := bind_eq_ok.mp h'
    have h₄ := h₃.tailqInit hput
    obtain ⟨m₅, hput, h'⟩ := bind_eq_ok.mp h'
    have h₅ := (h₄.putSched hput).coroAlloc .parallelRun r.parallelCoro
    obtain ⟨m₆, hput, h'⟩ := bind_eq_ok.mp h'
    have h₆ := h₅.putSched hput
    obtain ⟨m₇, hput, h'⟩ := bind_eq_ok.mp h'
    have h₇ := h₆.putSched hput
    obtain ⟨m₈, hput, h'⟩ := bind_eq_ok.mp h'
    have h₈ := ((h₇.tailqInit hput).acquire (r.socketpair.map fun fd => .fd fd.1)).acquire
      (r.socketpair.map fun fd => .fd fd.2)
    obtain ⟨m₉, hput, h'⟩ := bind_eq_ok.mp h'
    have h₉ := (h₈.coroAlloc .schedulebackRun r.scbdCoro).putAdapter hput
    obtain ⟨m₁₀, hput, h'⟩ := bind_eq_ok.mp h'
    have h₁₀ := h₉.putAdapter hput
    obtain ⟨m₁₁, hput, h'⟩ := bind_eq_ok.mp h'
    exact (h₁₀.putAdapter hput).eventmgrInit h'

/-- **`env_init`** never sets `g_eventmgr`, and gives back less than it has acquired, unless the
first three allocations have all failed. -/
theorem envInit_leaking (h : envInit r = .ok (m, rs)) :
    m.eventmgr = none ∧
      (m.acquired.length ≤ m.released.length →
        r.mastersched = none ∧ r.parallelsched = none ∧ r.schedulebackadapter = none) := by
  unfold envInit at h
  dsimp only at h
  split at h
  · simp only [pure_eq_ok, Except.ok.injEq, Prod.mk.injEq] at h
    obtain ⟨rfl, -⟩ := h
    refine ⟨rfl, fun hle => ?_⟩
    cases hm : r.mastersched <;> cases hp : r.parallelsched <;> cases ha : r.schedulebackadapter <;>
      simp [Env.acquire, Env.start, hm, hp, ha] at hle ⊢
  · rename_i hne
    simp only [Env.acquire, Option.map_eq_none_iff, not_or] at hne
    obtain ⟨hm, hp, ha⟩ := hne
    obtain ⟨x, hx⟩ := Option.ne_none_iff_exists'.mp hm
    obtain ⟨y, hy⟩ := Option.ne_none_iff_exists'.mp hp
    have hleak := Leaking.envInitBlocks (n := 1) ⟨rfl, by simp [Env.acquire, Env.start, hx, hy]⟩ h
    exact ⟨hleak.eventmgr, fun hle => by have := hleak.more; omega⟩

/-- **When `env_init` is all or nothing**: if and only if its first three allocations all fail. -/
theorem init_all_or_nothing (r : InitResults) :
    AllOrNothing r ↔
      r.mastersched = none ∧ r.parallelsched = none ∧ r.schedulebackadapter = none := by
  constructor
  · rintro ⟨m, rs, hcode, h⟩
    obtain ⟨hnull, hleak⟩ := envInit_leaking hcode
    cases rs with
    | ok => exact absurd hnull h.globals.2.2.2
    | err => exact hleak h.length_eq.le
  · rintro ⟨hm, hp, ha⟩
    refine ⟨Env.start, .err, ?_, List.Perm.refl _⟩
    simp [envInit, hm, hp, ha, Env.acquire, Env.enter, Env.start]

/-- Every call succeeds, and the blocks of `malloc` happen to be zero. -/
def allSucceed : InitResults where
  mastersched := some (⟨16, by decide⟩, ⟨0, none, none, false⟩)
  parallelsched := some (⟨32, by decide⟩, ⟨0, none, none, false⟩)
  schedulebackadapter := some (⟨48, by decide⟩, ⟨none, 0, 0⟩)
  masterCoro := some ⟨64, by decide⟩
  parallelCoro := some ⟨80, by decide⟩
  fd := (0, 0)
  socketpair := some (3, 4)
  scbdCoro := some ⟨96, by decide⟩
  eventmgr := some (⟨112, by decide⟩, ⟨0, none, 0, 0, none, 0⟩)
  epollCreate := some 5
  events := some ⟨128, by decide⟩
  evmgrCoro := some ⟨144, by decide⟩

/-- Where every call succeeds `M_OK` is returned with `g_eventmgr` null, an empty master queue and
the field of the parallel scheduler as `malloc` left it; where only the last `coro_alloc` fails, a
null pointer is dereferenced; where only the first fails, three blocks are lost. -/
theorem init_incomplete :
    (∃ m, envInit allSucceed = .ok (m, .ok) ∧ m.eventmgr = none ∧
      m.queue.isEmpty ⟨16, by decide⟩ = true ∧
      (m.scheds ⟨32, by decide⟩).map SchedulerBlock.isParallelSched = some false ∧
      ¬ AllOrNothing allSucceed) ∧
    envInit { allSucceed with evmgrCoro := none } = .error .nilDeref ∧
    ∃ m, envInit { allSucceed with masterCoro := none } = .ok (m, .err) ∧
      m.acquired.length = 3 ∧ m.released = [] := by
  refine ⟨⟨_, rfl, rfl, rfl, rfl, ?_⟩, rfl, _, rfl, rfl, rfl⟩
  rintro ⟨m, rs, hcode, h⟩
  have hnull := (envInit_leaking hcode).1
  have hrs : rs = .ok := congrArg (fun x => match x with
    | .ok (_, rs) => rs
    | .error _ => .ok) hcode.symm
  subst hrs
  exact h.globals.2.2.2 hnull

end Corosched
