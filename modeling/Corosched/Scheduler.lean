/-
# `cs_scheduler.c`

The two dispatchers of the master thread, in pieces that end where the thread stands at a new
place: one iteration of `sched_run` up to its context switch, what it does after the switch, and
`sched_run_once` as the running coroutine calls it.
-/
import Corosched.Coroutine

namespace Corosched

open State

/-- `sched_has_task`. -/
def schedHasTask (s : State) : Bool := !empty s .master

/-- `coro_switch(_, c)` by the coroutine that runs on the master thread. -/
def switchToCoro (s : State) (c : Addr) : Except Fault State :=
  match s.master with
  | .exec loc _ => pure ({ s with master := .exec loc c }.note (.dispatch .master c))
  | _ => throw .foreign

/-- The loop of `sched_run_once`.  After `coro_switch_to_parallel` the source goes on with the
loop when the caller is resumed; it never is, since the call fails one of its assertions. -/
def schedRunOnceFrom : Nat → State → Except Fault State
  | 0, _ => throw .diverge
  | n + 1, s => do
    if (s.sched .master).stop then pure s
    else if !schedHasTask s then pure s
    else
      let (s, head) ← pop s .master
      match head with
      | none => pure s
      | some c =>
        let co ← s.load c
        if co.status = .exit then schedRunOnceFrom n s
        else
          let s ← coroReady s (s.sched .master).currentCoro
          let co ← s.load c
          if co.needParallel then
            let (s, _) ← coroSwitchToParallel s .master (some c)
            pure s
          else
            let _ ← deref (s.sched .master).currentCoro
            switchToCoro (s.setCurrent .master (some c)) c

/-- `sched_run_once`.  Every iteration that is not the last pops an element. -/
def schedRunOnce (s : State) : Except Fault State := schedRunOnceFrom loopBudget s

/-- One iteration of `sched_run`, from the test of its loop to its `coro_switch`, or to the call
of `coro_sent_parallel`. -/
def schedRun (s : State) : Except Fault State :=
  if (s.sched .master).stop then pure { s with master := .done }
  else do
    let (s, head) ← pop s .master
    match head with
    | none => pure { s with master := .done }
    | some c =>
      let co ← s.load c
      if co.needParallel then pure { s with master := .sentTrylock c }
      else
        let s := (s.setCoro c { co with status := .run }).setCurrent .master (some c)
        pure ({ s with master := .exec c c }.note (.dispatch .master c))

/-- `sched_run`, after its `coro_switch`: `c` is its local. -/
def schedRunBack (s : State) (c : Addr) : Except Fault State := do
  let s := s.setCurrent .master none
  let co ← s.load c
  if co.status = .exit then
    let r ← s.registry.delete c
    let s := coroDealloc ({ s with registry := r }.note (.unregister c)) c
    pure { s with master := .loop }
  else pure { s with master := .loop }

/-- `env_stop`. -/
def envStop (s : State) : Except Fault State := do
  let s := s.setStop .master
  let s := s.setStop .master
  let em ← deref s.eventmgr
  pure { s with eventmgr := some { em with stop := true } }

end Corosched
