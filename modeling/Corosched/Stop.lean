/-
# `env_stop`

Four loops test three stop flags: `sched_run` and `sched_run_once` that of `g_mastersched`,
`parallel_run` that of `g_parallelsched`, `event_loop` that of `g_eventmgr`.  `env_stop` sets the
first flag twice, the second never, and reaches the third through a pointer that `env_init` leaves
null.
-/
import Corosched.Startup
import Corosched.Moves

namespace Corosched

open State

/-- What `main` goes on with after `env_init`; `buffer` is what is in the block that `epoll_wait`
is to write to. -/
def Env.boot (m : Env) (buffer : Nat → EpollEvent) : State :=
  .boot ((m.eventmgr.bind m.mgrs).map fun b => ⟨decide (b.stop ≠ 0), buffer⟩)

/-- **No loop goes on**: whichever evaluates its test leaves; `sched_run` and `parallel_run` end,
`sched_run_once` returns at once, and `event_loop` does not go on to `epoll_wait`. -/
structure Leaves (s : State) : Prop where
  schedRun : s.master = .loop → ∀ s', step s .master = some (.ok s') → s'.master = .done
  schedRunOnce : s.running .master ≠ none → schedRunOnce s = .ok s
  parallelRun : s.parallel = .loop → ∀ s', step s .parallel = some (.ok s') → s'.parallel = .done
  eventLoop : ∀ loc co k, s.master = .exec loc co → s.coro co = some k →
    k.ctx = .eventLoop .test → ∀ s' k', step s .master = some (.ok s') → s'.coro co = some k' →
      k'.ctx ≠ .eventLoop .poll ∧ k'.ctx ≠ .eventLoop .wait

/-- **What `env_stop` promises**, called on thread `t`: it completes, and whatever happens then no
loop goes on and no coroutine runs that was not running before. -/
def Stops (s : State) (t : SchedId) : Prop :=
  ∃ s', step s (.call t .envStop) = some (.ok s') ∧
    ∀ as s₁, Machine.Run step Machine.Any s' as s₁ →
      Leaves s₁ ∧ ∀ u c, s₁.running u = some c → ∃ u', s.running u' = some c

/-- What nothing in the program changes: that the event manager is there or not, and the stop flag
of the parallel scheduler. -/
structure Unstopped (there : Bool) (v : View) : Prop where
  manager : v.buffer.isSome = there
  parallelStop : v.parallelStop = false
  current : v.parallelCurrent = none

variable {s s' : State} {v v' : View} {act : Act} {there : Bool} {em : Option Eventmanager}
  {as : List Act}

theorem Unstopped.move (hv : Unstopped there v) (h : Move v v') : Unstopped there v' := by
  cases h <;> exact ⟨hv.manager, hv.parallelStop, hv.current⟩

theorem Unstopped.moves (hv : Unstopped there v) (h : Moves v v') : Unstopped there v' :=
  h.inv (fun _ _ hi hmove => hi.move hmove) hv

/-- **Every step keeps it.** -/
theorem Unstopped.step (hv : Unstopped there s.view) (h : step s act = some (.ok s')) :
    Unstopped there s'.view := by
  cases step_effect hv.current h with
  | moves hmoves => exact hv.moves hmoves
  | register _ _ hmoves =>
    have hv₀ : ∀ {int hist}, Unstopped there { s.view with interest := int, hist := hist } :=
      ⟨hv.manager, hv.parallelStop, hv.current⟩
    exact hv₀.moves hmoves
  | send _ hmoves =>
    have hv₁ := hv.moves hmoves
    exact ⟨hv₁.manager, hv₁.parallelStop, hv₁.current⟩
  | epoll _ _ _ _ _ hv' =>
    rw [hv']
    refine ⟨?_, hv.parallelStop, hv.current⟩
    simp only [Option.isSome_map]
    exact hv.manager
  | exit _ _ _ hv' | start _ hv' | remove _ hv' | mark _ _ hv' | check _ _ _ _ hv' =>
    rw [hv']
    exact ⟨hv.manager, hv.parallelStop, hv.current⟩

/-- **In every run** from the end of `env_init`. -/
theorem Unstopped.run (h : Machine.Run Corosched.step Machine.Any (State.boot em) as s) :
    Unstopped em.isSome s.view := by
  refine h.inv (I := fun s => Unstopped em.isSome s.view) (fun _ _ _ hi _ hs => hi.step hs) ?_
  exact ⟨by simp [State.view, State.boot], rfl, rfl⟩

/-- **`parallel_run` never leaves its loop**, not even if the event manager is there. -/
theorem parallelRun_goes_on (h : Machine.Run step Machine.Any (State.boot em) as s)
    (hp : s.parallel = .loop) :
    step s .parallel = some (.ok { s with parallel := .trylock }) ∧ ¬ Leaves s := by
  have hstop : (s.sched .parallel).stop = false := (Unstopped.run h).parallelStop
  have hstep : step s .parallel = some (.ok { s with parallel := .trylock }) := by
    simp [step, parallelStep, hp, hstop]
  refine ⟨hstep, fun hl => ?_⟩
  have := hl.parallelRun hp _ hstep
  exact absurd this (by simp)

/-- After `env_init` the event manager is not there. -/
theorem Env.boot_eq {r : InitResults} {m : Env} {rs : Rstatus} (hinit : envInit r = .ok (m, rs))
    (buffer : Nat → EpollEvent) : m.boot buffer = State.boot none := by
  rw [Env.boot, (envInit_leaking hinit).1]
  rfl

/-- **`env_stop` never does what it promises**: in every state that can be reached after `env_init`
has returned `M_OK`, a coroutine that calls it makes the program dereference a null pointer. -/
theorem env_stop_never {r : InitResults} {m : Env} {buffer : Nat → EpollEvent} {t : SchedId}
    {co : Addr} {k : Coroutine} (hinit : envInit r = .ok (m, .ok))
    (h : Machine.Run step Machine.Any (m.boot buffer) as s) (hr : s.running t = some co)
    (hk : s.coro co = some k) (hctx : k.ctx = .user) :
    step s (.call t .envStop) = some (.error .nilDeref) ∧ ¬ Stops s t := by
  rw [Env.boot_eq hinit] at h
  have hnull : s.eventmgr = none := by
    have := (Unstopped.run h).manager
    simpa [State.view] using this
  have hstep : step s (.call t .envStop) = some (.error .nilDeref) := by
    simp [step, hr, hk, hctx, callStep, envStop, State.setStop, hnull, deref]
  refine ⟨hstep, ?_⟩
  rintro ⟨s', hok, -⟩
  rw [hstep] at hok
  exact absurd hok (by simp)

/-- A coroutine spawned by `main` is dispatched and calls `env_stop`. -/
theorem env_stop_never_first :
    ∃ m s, envInit allSucceed = .ok (m, .ok) ∧
      Machine.exec step Machine.Any (m.boot fun _ => ⟨0, none⟩)
        [.main .master .user (some ⟨160, by decide⟩), .envRun, .master, .master, .master] =
          some (.ok s) ∧
      step s (.call .master .envStop) = some (.error .nilDeref) ∧ ¬ Stops s .master := by
  have hrun : ∃ m s k, envInit allSucceed = .ok (m, .ok) ∧
      Machine.exec step Machine.Any (m.boot fun _ => ⟨0, none⟩)
        [.main .master .user (some ⟨160, by decide⟩), .envRun, .master, .master, .master] =
          some (.ok s) ∧
      s.running .master = some ⟨160, by decide⟩ ∧ s.coro ⟨160, by decide⟩ = some k ∧
      k.ctx = .user := ⟨_, _, _, rfl, rfl, rfl, rfl, rfl⟩
  obtain ⟨m, s, k, hinit, hexec, hr, hk, hctx⟩ := hrun
  exact ⟨m, s, hinit, hexec, env_stop_never hinit (.of_exec hexec) hr hk hctx⟩

/-- After `env_init` the call dereferences a null pointer.  With an event manager it goes through,
and `parallel_run` goes on as before: of two coroutines the first stops the program, and the second
is dispatched afterwards. -/
theorem env_stop_misses :
    (∃ m s, envInit allSucceed = .ok (m, .ok) ∧
      Machine.exec step Machine.Any (m.boot fun _ => ⟨0, none⟩)
        [.main .master .user (some ⟨160, by decide⟩), .envRun, .master, .master, .master] =
          some (.ok s) ∧
      step s (.call .master .envStop) = some (.error .nilDeref) ∧ ¬ Stops s .master) ∧
    ∃ s s' : State, Machine.exec step Machine.Any (State.boot (some ⟨false, fun _ => ⟨0, none⟩⟩))
        [.main .master .user (some ⟨160, by decide⟩), .main .parallel .user (some ⟨176, by decide⟩),
          .envRun, .master, .master, .master, .call .master .envStop] = some (.ok s) ∧
      Machine.exec step Machine.Any s [.parallel, .parallel, .parallel, .parallel, .parallel,
        .parallel] = some (.ok s') ∧ s'.running .parallel = some ⟨176, by decide⟩ := by
  refine ⟨?_, _, _, rfl, rfl, rfl⟩
  have hrun : ∃ m s, envInit allSucceed = .ok (m, .ok) ∧
      Machine.exec step Machine.Any (m.boot fun _ => ⟨0, none⟩)
        [.main .master .user (some ⟨160, by decide⟩), .envRun, .master, .master, .master] =
          some (.ok s) ∧
      step s (.call .master .envStop) = some (.error .nilDeref) := ⟨_, _, rfl, rfl, rfl⟩
  obtain ⟨m, s, hinit, hexec, hstep⟩ := hrun
  refine ⟨m, s, hinit, hexec, hstep, ?_⟩
  rintro ⟨s', hok, -⟩
  rw [hstep] at hok
  exact absurd hok (by simp)

end Corosched
