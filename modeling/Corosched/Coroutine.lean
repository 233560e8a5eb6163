/-
# `cs_coroutine.c`

Creating, queueing and leaving coroutines, over the wait-queue operations of `cs_scheduler.c`.  A
function that ends in a context switch returns the state in which the thread already stands where
it was switched to; the two critical sections of `coro_sent_parallel` are separate functions,
because the other thread can act between them.
-/
import Corosched.State

namespace Corosched

open State

/-- `rstatus_t`: `M_OK` and `M_ERR`. -/
inductive Rstatus
  | ok
  | err
  deriving DecidableEq

/-! ## 1. The wait queues -/

/-- `insert_tail(&h->wait_sched_queue, coro)`. -/
def insertTail (s : State) (h : SchedId) (coro : Addr) : Except Fault State := do
  let q ← ofQueue (s.queue.insertTail h coro)
  pure ({ s with queue := q }.note (.enqueue h coro))

/-- `insert_head(&h->wait_sched_queue, coro)`. -/
def insertHead (s : State) (h : SchedId) (coro : Addr) : Except Fault State := do
  let q ← ofQueue (s.queue.insertHead h coro)
  pure ({ s with queue := q }.note (.enqueueHead h coro))

/-- `empty(&h->wait_sched_queue)`. -/
def empty (s : State) (h : SchedId) : Bool := s.queue.isEmpty h

/-- `pop(&h->wait_sched_queue)`. -/
def pop (s : State) (h : SchedId) : Except Fault (State × Option Addr) := do
  let (q, head) ← ofQueue (s.queue.popFirst h)
  match head with
  | none => pure (s, none)
  | some c => pure ({ s with queue := q }.note (.pop h c), some c)

/-! ## 2. Ready -/

/-- `coro_ready`. -/
def coroReady (s : State) (coro : Option Addr) : Except Fault State := do
  let a ← deref coro
  let c ← s.load a
  ASSERT (decide (c.status ≠ .exit))
  let s := s.setCoro a { c with status := .ready }
  let h ← deref c.sched
  insertTail s h a

/-- `coro_ready_immediatly`. -/
def coroReadyImmediatly (s : State) (coro : Option Addr) : Except Fault State := do
  let a ← deref coro
  let c ← s.load a
  ASSERT (decide (c.status = .free ∨ c.status = .run))
  let s := s.setCoro a { c with status := .ready }
  let h ← deref c.sched
  insertHead s h a

/-! ## 3. Creation and destruction -/

/-- `coro_alloc`, where `cs_alloc` has returned `a`: a cleared header and an empty context. -/
def coroAlloc (s : State) (fn : Body) (a : Addr) : State :=
  { s with
    coro := Function.update s.coro a (some ⟨0, fn, .free, none, false⟩)
    queue := s.queue.map a }.note (.alloc a)

/-- `coro_spawn`, where `cs_alloc` returns `mem`. -/
def coroSpawn (s : State) (sched : SchedId) (fn : Body) (mem : Option Addr) :
    Except Fault (State × Rstatus) :=
  match mem with
  | none => pure (s, .err)
  | some a => do
    let s := coroAlloc s fn a
    let s := s.setCoro a ⟨a.cid, fn, .free, some sched, false⟩
    let r ← schedRegisterCoro (s.registry.spawnNode a) a
    let s ← coroReady { s with registry := r } (some a)
    pure (s, .ok)

/-- `coro_dealloc`. -/
def coroDealloc (s : State) (c : Addr) : State :=
  { s with coro := Function.update s.coro c none, queue := s.queue.unmap c }.note (.dealloc c)

/-! ## 4. Giving up control -/

/-- `coro_switch(_, h->sched_coro)` on thread `t`: the scheduler goes on after its own
`coro_switch`. -/
def switchToSched (s : State) (t h : SchedId) : Except Fault State :=
  if t ≠ h then throw .foreign
  else match t with
    | .master =>
      match s.master with
      | .exec c _ => pure { s with master := .back c }
      | _ => throw .foreign
    | .parallel =>
      match s.parallel with
      | .exec co => pure { s with parallel := .toMaster co }
      | _ => throw .foreign

/-- `coro_exit(co)` on thread `t`. -/
def coroExit (s : State) (t : SchedId) (co : Option Addr) : Except Fault State := do
  ASSERT co.isSome
  let a ← deref co
  let c ← s.load a
  let h ← deref c.sched
  ASSERT (decide (co = (s.sched h).currentCoro))
  let s := (s.setCoro a { c with status := .exit }).note (.exit a)
  switchToSched s t h

/-- `coro_yield(co)` on thread `t`. -/
def coroYield (s : State) (t : SchedId) (co : Option Addr) : Except Fault State := do
  ASSERT co.isSome
  let a ← deref co
  let c ← s.load a
  let h ← deref c.sched
  ASSERT (decide (co = (s.sched h).currentCoro))
  let s ← coroReady s co
  ASSERT ((s.sched h).currentCoro).isSome
  switchToSched s t h

/-- `coro_switch_to_parallel(co)` on thread `t`, up to its switch; the status is what it returns
without one. -/
def coroSwitchToParallel (s : State) (t : SchedId) (co : Option Addr) :
    Except Fault (State × Option Rstatus) := do
  ASSERT co.isSome
  let a ← deref co
  let c ← s.load a
  if !c.needParallel then pure (s, some .err)
  else
    let s ← coroReadyImmediatly s co
    let s ← coroYield s t co
    pure (s, none)

/-! ## 5. From the master to the parallel scheduler -/

/-- `coro_sent_parallel(c)` up to the trylock of `g_mutex`; `M_ERR` where the lock is held. -/
def coroSentParallel (s : State) (c : Addr) : Except Fault (State × Rstatus) := do
  let co ← s.load c
  ASSERT co.needParallel
  match s.mutex with
  | none => pure ({ s with mutex := some .master }, .ok)
  | some _ => pure (s.setCoro c { co with sched := some .master }, .err)

/-- `coro_sent_parallel(c)`, inside the critical section. -/
def coroSentParallelInsert (s : State) (c : Addr) : Except Fault State := do
  let co ← s.load c
  let s := s.setCoro c { co with sched := some .parallel }
  insertHead s .parallel c

/-! ## 6. From the parallel to the master scheduler -/

/-- What `send` returned. -/
inductive SendResult
  /-- `-1` with `EINTR` -/
  | eintr
  /-- `-1` with another error -/
  | fail
  /-- a count of bytes -/
  | sent (n : Nat)

/-- The eight bytes of a pointer, little endian. -/
def ptrBytes (p : Option Addr) : List (BitVec 8) :=
  (List.range 8).map fun i => (match p with
    | none => (0 : BitVec 64)
    | some a => a.val).extractLsb' (8 * i) 8

/-- `sizeof(struct coroutine)` and `sizeof(struct coroutine*)`. -/
def sizeofCoroutine : Nat := 104
def sizeofPtr : Nat := 8

/-- `coro_switch_to_master(c)`, after `send((const void*)c, sizeof(struct coroutine*))` has
returned: what was sent are the first bytes of `*c`, that is of `ws_tqe.tqe_next`.  `none` is
another round of the loop. -/
def coroSwitchToMaster (s : State) (c : Addr) (r : SendResult) :
    Except Fault (State × Option Rstatus) := do
  let co ← s.load c
  match r with
  | .eintr => pure (s, none)
  | .fail => pure (s.setCoro c { co with sched := some .parallel }, some .err)
  | .sent n =>
    let s := { s with sock := s.sock ++ (ptrBytes (s.queue.val (.next c))).take n }
    if n ≠ sizeofCoroutine then
      pure (s.setCoro c { co with sched := some .parallel }, some .err)
    else pure (s, some .ok)

/-- The loop of `coro_switch_to_master(c)`, where its calls of `send` return `rs`; `none` where the
last of them calls for another round. -/
def coroSwitchToMasterLoop (s : State) (c : Addr) :
    List SendResult → Except Fault (State × Option Rstatus)
  | [] => pure (s, none)
  | r :: rs => do
    let co ← s.load c
    let (s, st) ← coroSwitchToMaster (s.setCoro c { co with sched := some .master }) c r
    match st with
    | none => coroSwitchToMasterLoop s c rs
    | some st => pure (s, some st)

end Corosched
