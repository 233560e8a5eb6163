/-
# The state of the program

The memory of `cs_coroutine.c`, `cs_scheduler.c` and `cs_eventmgr.c`, and where each of the two
threads stands.  A `struct coroutine` is spread over three fields: its queue links are in `queue`,
its tree node is in `registry`, the rest is in `coro`.  `hist` is the history of the run; the
program writes it and never reads it.
-/
import Corosched.Registry
import Corosched.Lib.Tailq

namespace Corosched

/-! ## 1. Coroutines and schedulers -/

/-- `g_mastersched` or `g_parallelsched`; also the thread that runs it. -/
inductive SchedId
  | master
  | parallel
  deriving DecidableEq

/-- `cstatus_t`: `M_FREE`, `M_READY`, `M_RUN`, `M_EXIT`. -/
inductive Status
  | free
  | ready
  | run
  | exit
  deriving DecidableEq

/-- Where `event_loop` stands, with its locals. -/
inductive EvPc
  /-- at `while(!eventmgr->stop)` and `if(sched_has_task())` -/
  | test
  /-- at the `epoll_wait` that does not block -/
  | poll
  /-- at the test of the `for` loop -/
  | each (i nsd : Nat)
  /-- at the `sched_run_once()` after the `for` loop -/
  | once
  /-- at the `epoll_wait` that blocks -/
  | wait
  deriving DecidableEq

/-- What a coroutine runs: a user function, of which nothing is known, or `event_loop`. -/
inductive Body
  | user
  | eventLoop (pc : EvPc)
  deriving DecidableEq

/-- `struct coroutine`, without its links and its tree node.  `ctx` is where it stands. -/
structure Coroutine where
  cid : Int
  ctx : Body
  status : Status
  sched : Option SchedId
  needParallel : Bool

/-- `struct scheduler`, without its queue and its two contexts. -/
structure Scheduler where
  stop : Bool
  currentCoro : Option Addr

/-! ## 2. Events -/

/-- A pointer to a `struct event` that is not null. -/
abbrev EventPtr := Nat

/-- `struct event`. -/
structure Event where
  mask : BitVec 32
  sockfd : Int
  events : BitVec 32
  coro : Option Addr

/-- `struct epoll_event`, with the event it was registered with. -/
structure EpollEvent where
  events : BitVec 32
  ptr : Option EventPtr
  deriving DecidableEq

/-- `struct eventmanager`: the stop flag and the buffer of `epoll_wait`. -/
structure Eventmanager where
  stop : Bool
  events : Nat → EpollEvent

/-! ## 3. Where the threads stand -/

/-- The master thread: `main`, `env_run`, `sched_run`, or a coroutine. -/
inductive MasterPc
  /-- in `main`, before `env_run` -/
  | main
  /-- in `env_run`, at `pthread_mutex_lock` and `pthread_mutex_unlock` -/
  | envLock
  | envUnlock
  /-- in `sched_run`, at the test of its loop -/
  | loop
  /-- in `coro_sent_parallel(c)`: at the trylock, in the critical section, at the unlock -/
  | sentTrylock (c : Addr)
  | sentInsert (c : Addr)
  | sentUnlock (c : Addr)
  /-- in `sched_run`, at `coro_ready_immediatly(c)` -/
  | readyImm (c : Addr)
  /-- the coroutine `co` runs; `c` is the local of `sched_run` -/
  | exec (c co : Addr)
  /-- in `sched_run`, after its `coro_switch` -/
  | back (c : Addr)
  /-- `sched_run` has left its loop -/
  | done
  deriving DecidableEq

/-- The parallel thread: `parallel_main`, `parallel_run`, or a coroutine. -/
inductive ParallelPc
  | notStarted
  /-- in `parallel_main`, at `pthread_mutex_lock` and `pthread_mutex_unlock` -/
  | mainLock
  | mainUnlock
  /-- in `parallel_run`, at the test of its loop, the trylock, the test of the queue, `usleep` -/
  | loop
  | trylock
  | check
  | sleep
  /-- in `parallel_run`, at `coro_switch` -/
  | switchTo (co : Addr)
  /-- the coroutine `co` runs -/
  | exec (co : Addr)
  /-- in `coro_switch_to_master(co)`: at its loop, and at the `send` -/
  | toMaster (co : Addr)
  | sending (co : Addr)
  /-- `parallel_run` has left its loop -/
  | done
  deriving DecidableEq

/-! ## 4. History -/

/-- What a run is observed to do. -/
inductive Obs
  /-- `insert_tail` -/
  | enqueue (h : SchedId) (c : Addr)
  /-- `insert_head` -/
  | enqueueHead (h : SchedId) (c : Addr)
  /-- `pop` -/
  | pop (h : SchedId) (c : Addr)
  /-- a thread switches into a coroutine -/
  | dispatch (h : SchedId) (c : Addr)
  /-- `coro_alloc` -/
  | alloc (c : Addr)
  /-- `coro_exit` -/
  | exit (c : Addr)
  /-- `rbtree_delete(&coroutine_rbt, &c->node)` -/
  | unregister (c : Addr)
  /-- `coro_dealloc` -/
  | dealloc (c : Addr)
  /-- `register_event` is called for a coroutine -/
  | await (ev : EventPtr) (c : Addr)
  /-- `event_callback` is invoked -/
  | report (ev : EventPtr)
  deriving DecidableEq

/-! ## 5. The state -/

/-- The state of the program. -/
structure State where
  /-- `wait_sched_queue` of both schedulers and `ws_tqe` of every coroutine -/
  queue : Tailq.Heap SchedId Addr
  /-- the coroutines; `none` is memory that is not allocated -/
  coro : Addr → Option Coroutine
  registry : Registry
  sched : SchedId → Scheduler
  /-- the owner of `g_mutex` -/
  mutex : Option SchedId
  /-- the `struct event`s of the program -/
  event : EventPtr → Event
  /-- the interest list of `epfd`: the descriptors, each with what it was registered with -/
  interest : List (Int × EventPtr)
  /-- `*g_eventmgr` -/
  eventmgr : Option Eventmanager
  /-- the bytes in the socketpair, oldest first -/
  sock : List (BitVec 8)
  master : MasterPc
  parallel : ParallelPc
  hist : List Obs

namespace State

/-- `*co`. -/
def load (s : State) (co : Addr) : Except Fault Coroutine :=
  match s.coro co with
  | none => throw .dangling
  | some c => pure c

/-- Overwrite an allocated coroutine. -/
def setCoro (s : State) (a : Addr) (c : Coroutine) : State :=
  { s with coro := Function.update s.coro a (some c) }

/-- `sched->current_coro = p`. -/
def setCurrent (s : State) (h : SchedId) (p : Option Addr) : State :=
  { s with sched := Function.update s.sched h { s.sched h with currentCoro := p } }

/-- `sched->stop = 1`. -/
def setStop (s : State) (h : SchedId) : State :=
  { s with sched := Function.update s.sched h { s.sched h with stop := true } }

/-- Record what happened. -/
def note (s : State) (o : Obs) : State := { s with hist := s.hist ++ [o] }

/-- The coroutine that runs on a thread. -/
def running (s : State) : SchedId → Option Addr
  | .master => match s.master with
    | .exec _ co => some co
    | _ => none
  | .parallel => match s.parallel with
    | .exec co => some co
    | _ => none

/-- A queue operation as a step of the program. -/
def ofQueue {α : Type} (x : Except Tailq.Bad α) : Except Fault α :=
  match x with
  | .ok a => pure a
  | .error .null => throw .nilDeref
  | .error .unmapped => throw .dangling

/-- The state after `env_init` with the given event manager, with no coroutine spawned yet. -/
def boot (em : Option Eventmanager) : State where
  queue := ((Tailq.Heap.mk (fun _ => none) (fun _ => none) (fun _ => none)).init .master).init
    .parallel
  coro := fun _ => none
  registry := .init ⟨fun _ _ => none, fun _ => none, fun _ => 0, fun _ => none, fun _ => false⟩
  sched := fun _ => ⟨false, none⟩
  mutex := none
  event := fun _ => ⟨0, 0, 0, none⟩
  interest := []
  eventmgr := em
  sock := []
  master := .main
  parallel := .notStarted
  hist := []

end State

end Corosched
