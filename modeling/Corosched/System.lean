/-
# The two threads

`step` is one step of the program: the next step of the framework code on one of the threads, or
an action of what the framework does not control, that is of `main`, of the user's coroutines, of
the allocator and of the kernel.  An interleaving is a list of actions.

`main` spawns coroutines and then calls `env_run` once.  A user coroutine spawns others; for itself
it calls `coro_yield`, `coro_exit` and `coro_switch_to_parallel` and sets `need_parallel`; and it
calls `env_stop`.  `sched_run_once`, `register_event` and `remove_event` are for coroutines of the
master scheduler.  A coroutine that `parallel_run` has resumed can come back only by switching to
the scheduler's context itself (`transfer`), because `coro_yield` and `coro_exit` fail their
assertions there.

The rest of the interface is called by the framework code alone: no user coroutine calls
`coro_ready`, `coro_ready_immediatly`, `coro_sent_parallel` or `coro_switch_to_master`, and none
calls `coro_switch` on the master thread.  Only `register_event` can be given another coroutine than
the one that runs, and nobody calls `env_run` a second time.
-/
import Corosched.Eventmgr
import Corosched.Lib.Run

namespace Corosched

open State

/-- The functions a coroutine can be created with. -/
inductive Entry
  | user
  | eventLoop
  deriving DecidableEq

/-- Where a new coroutine starts. -/
def Entry.start : Entry → Body
  | .user => .user
  | .eventLoop => .eventLoop .test

/-- What a running user coroutine can do next. -/
inductive Call
  /-- `coro_spawn(sched, fn, ..)`, where `cs_alloc` returns `mem` -/
  | spawn (sched : SchedId) (fn : Entry) (mem : Option Addr)
  | yield
  | exit
  | runOnce
  /-- `co->need_parallel = b` -/
  | setNeedParallel (b : Bool)
  | switchToParallel
  /-- `register_event(g_eventmgr, p)`, after `*p = ev` -/
  | registerEvent (p : EventPtr) (ev : Event)
  | removeEvent (p : EventPtr)
  | envStop
  /-- `coro_switch(co, co->sched->sched_coro)` -/
  | transfer

/-- One action. -/
inductive Act
  /-- `main` calls `coro_spawn` -/
  | main (sched : SchedId) (fn : Entry) (mem : Option Addr)
  /-- `main` calls `env_run` -/
  | envRun
  /-- the coroutine on a thread makes a call -/
  | call (t : SchedId) (k : Call)
  /-- the framework code on the master thread takes its next step -/
  | master
  /-- the framework code on the parallel thread takes its next step -/
  | parallel
  /-- the `send` of `coro_switch_to_master` returns -/
  | send (r : SendResult)
  /-- the `epoll_wait` of `event_loop` returns -/
  | epoll (r : Option (List EpollEvent))

/-- The allocator returns memory that is not in use, and only the master scheduler runs
`event_loop`. -/
def SpawnOk (s : State) (sched : SchedId) (fn : Entry) (mem : Option Addr) : Prop :=
  (∀ a ∈ mem, s.coro a = none) ∧ (fn = .eventLoop → sched = .master)

instance (s : State) (sched : SchedId) (fn : Entry) (mem : Option Addr) :
    Decidable (SpawnOk s sched fn mem) :=
  inferInstanceAs (Decidable (_ ∧ _))

/-- `coro_spawn` by `main` or by a coroutine. -/
def spawnStep (s : State) (sched : SchedId) (fn : Entry) (mem : Option Addr) :
    Option (Except Fault State) :=
  if SpawnOk s sched fn mem then
    some (do
      let (s, _) ← coroSpawn s sched fn.start mem
      pure s)
  else none

/-- A call by the coroutine `co` on thread `t`. -/
def callStep (s : State) (t : SchedId) (co : Addr) : Call → Option (Except Fault State)
  | .spawn sched fn mem => spawnStep s sched fn mem
  | .yield => some (coroYield s t (some co))
  | .exit => some (coroExit s t (some co))
  | .runOnce => if t = .master then some (schedRunOnce s) else none
  | .setNeedParallel b => some (do
      let c ← s.load co
      pure (s.setCoro co { c with needParallel := b }))
  | .switchToParallel => some (do
      let (s, _) ← coroSwitchToParallel s t (some co)
      pure s)
  | .registerEvent p ev =>
    if t = .master then
      some (registerEvent { s with event := Function.update s.event p ev } t p)
    else none
  | .removeEvent p => if t = .master then some (pure (removeEvent s p)) else none
  | .envStop => some (envStop s)
  | .transfer =>
    if t = .parallel then
      some (do
        let c ← s.load co
        let h ← deref c.sched
        switchToSched s t h)
    else none

/-- The framework code on the master thread. -/
def masterStep (s : State) : Option (Except Fault State) :=
  match s.master with
  | .main => none
  | .envLock =>
    if s.mutex = none then some (pure { s with mutex := some .master, master := .envUnlock })
    else none
  | .envUnlock => some (pure { s with mutex := none, master := .loop })
  | .loop => some (schedRun s)
  | .sentTrylock c => some (do
      let (s, rs) ← coroSentParallel s c
      if rs = .ok then pure { s with master := .sentInsert c }
      else pure { s with master := .loop })
  | .sentInsert c => some (do
      let s ← coroSentParallelInsert s c
      pure { s with master := .sentUnlock c })
  | .sentUnlock c => some (pure { s with mutex := none, master := .readyImm c })
  | .readyImm c => some (do
      let s ← coroReadyImmediatly s (some c)
      pure { s with master := .loop })
  | .exec _ co =>
    match s.coro co with
    | none => some (throw .dangling)
    | some c =>
      match c.ctx with
      | .user => none
      | .eventLoop pc => eventLoopRun s co c pc
  | .back c => some (schedRunBack s c)
  | .done => none

/-- The framework code on the parallel thread.  It leaves the lock held on every way out of the
branch in which the trylock has succeeded. -/
def parallelStep (s : State) : Option (Except Fault State) :=
  match s.parallel with
  | .notStarted => none
  | .mainLock =>
    if s.mutex = none then some (pure { s with mutex := some .parallel, parallel := .mainUnlock })
    else none
  | .mainUnlock => some (pure { s with mutex := none, parallel := .loop })
  | .loop =>
    if (s.sched .parallel).stop then some (pure { s with parallel := .done })
    else some (pure { s with parallel := .trylock })
  | .trylock =>
    if s.mutex = none then some (pure { s with mutex := some .parallel, parallel := .check })
    else some (pure { s with parallel := .sleep })
  | .check =>
    if empty s .parallel then some (pure { s with parallel := .sleep })
    else some (do
      let (s, head) ← pop s .parallel
      ASSERT head.isSome
      let co ← deref head
      pure { s with parallel := .switchTo co })
  | .sleep => some (pure { s with parallel := .loop })
  | .switchTo co =>
    some (do
      let _ ← s.load co
      pure ({ s with parallel := .exec co }.note (.dispatch .parallel co)))
  | .exec _ => none
  | .toMaster co => some (do
      let c ← s.load co
      pure { s.setCoro co { c with sched := some .master } with parallel := .sending co })
  | .sending _ => none
  | .done => none

/-- `send` accepts at most the bytes it was given. -/
def SendResult.Ok : SendResult → Bool
  | .sent n => decide (0 < n ∧ n ≤ sizeofPtr)
  | _ => true

/-- The `send` of `coro_switch_to_master` returns. -/
def sendStep (s : State) (r : SendResult) : Option (Except Fault State) :=
  match s.parallel with
  | .sending co =>
    if r.Ok then
      some (do
        let (s, rs) ← coroSwitchToMaster s co r
        match rs with
        | none => pure { s with parallel := .toMaster co }
        | some _ => pure { s with parallel := .loop })
    else none
  | _ => none

/-- **One step of the program.** -/
def step : Machine State Act Fault := fun s act =>
  match act with
  | .main sched fn mem => if s.master = .main then spawnStep s sched fn mem else none
  | .envRun =>
    if s.master = .main then some (pure { s with master := .envLock, parallel := .mainLock })
    else none
  | .call t k =>
    match s.running t with
    | none => none
    | some co =>
      match s.coro co with
      | none => some (throw .dangling)
      | some c => if c.ctx = .user then callStep s t co k else none
  | .master => masterStep s
  | .parallel => parallelStep s
  | .send r => sendStep s r
  | .epoll r =>
    match s.master with
    | .exec _ co =>
      match s.coro co with
      | some ⟨cid, .eventLoop pc, status, sched, np⟩ =>
        eventLoopEpoll s co ⟨cid, .eventLoop pc, status, sched, np⟩ pc r
      | _ => none
    | _ => none

end Corosched
