/-
# `cs_eventmgr.c`

Waiting for events.  `event_loop` is split at its calls: `eventLoopStep` says where it goes next
and what it calls on the way, from what it reads, and `eventLoopWait` what a batch returned by
`epoll_wait` does to it.
-/
import Corosched.Scheduler

namespace Corosched

open State

/-! ## 1. Registration -/

/-- `ReadMask` and `WriteMask`. -/
def readMask : BitVec 32 := 0x1
def writeMask : BitVec 32 := 0x2

/-- The values of `<sys/epoll.h>`. -/
def EPOLLIN : BitVec 32 := 0x001
def EPOLLOUT : BitVec 32 := 0x004
def EPOLLET : BitVec 32 := 0x80000000

/-- The event bits `register_event` asks for. -/
def epollEvents (mask : BitVec 32) : BitVec 32 :=
  let events : BitVec 32 := 0
  let events := if mask &&& readMask ≠ 0 then events ||| EPOLLIN else events
  let events := if mask &&& writeMask ≠ 0 then events ||| EPOLLOUT else events
  events ||| EPOLLET

/-- `epoll_ctl(EPOLL_CTL_ADD)`: a descriptor that is registered stays as it is. -/
def epollAdd (interest : List (Int × EventPtr)) (fd : Int) (p : EventPtr) :
    List (Int × EventPtr) :=
  if fd ∈ interest.map Prod.fst then interest else (fd, p) :: interest

/-- `epoll_ctl(EPOLL_CTL_DEL)`. -/
def epollDel (interest : List (Int × EventPtr)) (fd : Int) : List (Int × EventPtr) :=
  interest.filter fun x => x.1 ≠ fd

/-- `register_event(g_eventmgr, p)` on thread `t`. -/
def registerEvent (s : State) (t : SchedId) (p : EventPtr) : Except Fault State := do
  ASSERT s.eventmgr.isSome
  let ev := s.event p
  ASSERT (decide (0 < ev.sockfd))
  ASSERT ev.coro.isSome
  let events := epollEvents ev.mask
  let s := { s with event := Function.update s.event p { ev with events := events } }
  let s := { s with interest := epollAdd s.interest ev.sockfd p }
  let co ← deref ev.coro
  coroYield (s.note (.await p co)) t (some co)

/-- `remove_event(g_eventmgr, p)`. -/
def removeEvent (s : State) (p : EventPtr) : State :=
  { s with interest := epollDel s.interest (s.event p).sockfd }

/-! ## 2. Callbacks -/

/-- `event_callback`. -/
def eventCallback (s : State) (ptr : Option EventPtr) (events : BitVec 32) :
    Except Fault State := do
  let p ← deref ptr
  let ev := s.event p
  let ev := if events &&& readMask ≠ 0 then { ev with events := ev.events ||| readMask } else ev
  let ev := if events &&& writeMask ≠ 0 then { ev with events := ev.events ||| writeMask } else ev
  let s := { s with event := Function.update s.event p ev }.note (.report p)
  let s ← coroReady s ev.coro
  schedRunOnce s

/-! ## 3. The loop -/

/-- What `event_loop` calls on its way to the next place. -/
inductive EvCall
  | nothing
  | callback (e : EpollEvent)
  | runOnce
  /-- it returns to `coro_init` -/
  | ret

/-- `event_loop` between two calls of `epoll_wait`. -/
def eventLoopStep (stop hasTask : Bool) (events : Nat → EpollEvent) : EvPc → Option (EvPc × EvCall)
  | .test =>
    if stop then some (.test, .ret)
    else if hasTask then some (.poll, .nothing)
    else some (.wait, .nothing)
  | .poll => none
  | .each i nsd =>
    if i < nsd then some (.each (i + 1) nsd, .callback (events i))
    else some (.once, .nothing)
  | .once => some (.wait, .runOnce)
  | .wait => none

/-- `epoll_wait` writes a batch to the start of the buffer. -/
def fill (b : List EpollEvent) (events : Nat → EpollEvent) : Nat → EpollEvent :=
  fun i => b.getD i (events i)

/-- `event_loop` after `epoll_wait` has written `b`: the count goes to `nsd`. -/
def eventLoopWait (b : List EpollEvent) : EvPc → Option EvPc
  | .poll => some (.each 0 b.length)
  | .wait => some .test
  | _ => none

/-- A step of `event_loop`, run by the coroutine `co` at `pc`. -/
def eventLoopRun (s : State) (co : Addr) (c : Coroutine) (pc : EvPc) :
    Option (Except Fault State) :=
  match s.eventmgr with
  | none => some (throw .assertFail)
  | some em =>
    match eventLoopStep em.stop (schedHasTask s) em.events pc with
    | none => none
    | some (pc', call) =>
      let s := s.setCoro co { c with ctx := .eventLoop pc' }
      some (match call with
        | .nothing => pure s
        | .callback e => eventCallback s e.ptr e.events
        | .runOnce => schedRunOnce s
        | .ret => throw .abort)

/-- `M_EVENT_SIZE_HINT`, the size of the buffer. -/
def eventSizeHint : Nat := 1024

/-- What `epoll_wait` may return: at most as many entries as the buffer holds, all of them
registered. -/
def BatchOk (s : State) (b : List EpollEvent) : Prop :=
  b.length ≤ eventSizeHint ∧ ∀ e ∈ b, ∃ x ∈ s.interest, e.ptr = some x.2

instance (s : State) (b : List EpollEvent) : Decidable (BatchOk s b) :=
  inferInstanceAs (Decidable (_ ∧ _))

/-- A call of `epoll_wait` by `event_loop`, run by the coroutine `co` at `pc`; `none` is `-1`. -/
def eventLoopEpoll (s : State) (co : Addr) (c : Coroutine) (pc : EvPc)
    (r : Option (List EpollEvent)) : Option (Except Fault State) :=
  match s.eventmgr, r with
  | none, _ => none
  | some em, some b =>
    match eventLoopWait b pc with
    | none => none
    | some pc' =>
      if BatchOk s b then
        some (pure { s.setCoro co { c with ctx := .eventLoop pc' } with
          eventmgr := some { em with events := fill b em.events } })
      else none
  | some _, none => if pc = .poll ∨ pc = .wait then some (throw .abort) else none

end Corosched
