/-
# Who is recorded as running

`sched_run` sets all three fields of the coroutine it dispatches.  `sched_run_once` leaves the
status at `M_READY`, and `parallel_run` leaves the status and does not record the coroutine at
all.  `running_recorded`: what executes is recorded as running in every state of a clean run in
which neither of these two dispatches, and of no other clean run.
-/
import Corosched.Steps

namespace Corosched

open State

/-- **What executes is recorded as running**: its scheduler is that of the thread, it is the
current coroutine of this scheduler, and its status is `M_RUN`; so the functions that assert this
succeed when it calls them on itself. -/
structure Recorded (s : State) : Prop where
  fields : ∀ t co, s.running t = some co → ∃ k, s.coro co = some k ∧ k.sched = some t ∧
    (s.sched t).currentCoro = some co ∧ k.status = .run
  yield : ∀ t co, s.running t = some co → ∃ s', coroYield s t (some co) = .ok s'
  exit : ∀ t co, s.running t = some co → ∃ s', coroExit s t (some co) = .ok s'
  readyImm : ∀ t co, s.running t = some co → ∃ s', coroReadyImmediatly s (some co) = .ok s'

/-- `sched_run_once` has nothing to do. -/
def Idle (s : State) : Prop := (s.sched .master).stop = true ∨ schedHasTask s = false

instance (s : State) : Decidable (Idle s) := inferInstanceAs (Decidable (_ ∨ _))

/-- A step that dispatches neither through `sched_run_once` nor through `parallel_run`. -/
def ByRun (s : State) : Act → Prop
  | .call .master .runOnce => Idle s
  | .master => ∀ k ∈ s.runningCoro .master, k.ctx = .eventLoop .once → Idle s
  | .parallel => match s.parallel with
    | .switchTo _ => False
    | _ => True
  | _ => True

instance (s : State) (act : Act) : Decidable (ByRun s act) := by
  unfold ByRun
  split
  · infer_instance
  · infer_instance
  · split <;> infer_instance
  · infer_instance

/-- Where no coroutine of the parallel thread is. -/
def ParallelPc.free : ParallelPc → Bool
  | .exec _ | .toMaster _ | .sending _ => false
  | _ => true

/-- The invariant of the runs in which only `sched_run` dispatches. -/
structure Marked (s : State) : Prop where
  coherent : Coherent s
  master : ∀ loc co, s.master = .exec loc co → ∃ k, s.coro co = some k ∧ k.status = .run
  parallel : s.parallel.free = true

variable {s s' : State} {loc co a c x : Addr} {k : Coroutine} {t h : SchedId} {act : Act}

/-! ## 1. The invariant is enough -/

/-- `coro_ready_immediatly` of a coroutine that is marked as running and is in no queue. -/
theorem coroReadyImmediatly_run (hs : Coherent s) (hk : s.coro co = some k)
    (hrun : k.status = .run) (hsched : k.sched = some h) (hout : Out s.hist co) :
    ∃ s', coroReadyImmediatly s (some co) = .ok s' := by
  have hstore : Store s.queue (Function.update s.coro co (some { k with status := .ready }))
      s.registry (queuesOf s.hist) := hs.store.setCoro hk rfl fun h' hm => absurd hm (hout h')
  obtain ⟨q', hcode, -⟩ := insertHead_ok (h := h) (s := s.setCoro co { k with status := .ready })
    hstore (Function.update_self _ _ _) rfl hsched hout
  have hderef : deref k.sched = Except.ok h := by rw [hsched, deref_some]
  exact ⟨_, by simp [coroReadyImmediatly, load_some hk, hrun, hderef, hcode]; rfl⟩

theorem Marked.recorded (hs : Marked s) : Recorded s := by
  have hpar : s.running .parallel = none := by
    have := hs.parallel
    unfold State.running
    cases hp : s.parallel with
    | exec co =>
      rw [hp] at this
      exact absurd this (by simp [ParallelPc.free])
    | _ => rfl
  -- on the master thread the coherence invariant says the rest
  have hmaster : ∀ t co, s.running t = some co → t = .master ∧ ∃ loc, s.master = .exec loc co := by
    intro t co hr
    cases t with
    | master => exact ⟨rfl, running_master hr⟩
    | parallel =>
      rw [hpar] at hr
      exact absurd hr (by simp)
  constructor
  all_goals
    intro t co hr
    obtain ⟨rfl, loc, hm⟩ := hmaster t co hr
    obtain ⟨k, hk, hrun⟩ := hs.master loc co hm
    obtain ⟨-, ⟨k', hk', hlive, hsched⟩, hout, hcur⟩ := hs.coherent.exec hm
    obtain rfl : k = k' := Option.some.inj (hk.symm.trans hk')
  · exact ⟨k, hk, hsched, hcur, hrun⟩
  · obtain ⟨q', hcode, -⟩ := coroYield_ok hs.coherent.store hm hk hlive hsched hout hcur
    exact ⟨_, hcode⟩
  · exact ⟨_, (coroExit_ok hs.coherent.store hm hk hsched hout hcur).1⟩
  · exact coroReadyImmediatly_run hs.coherent hk hrun hsched hout

/-! ## 2. The steps -/

/-- A step that leaves the threads and the statuses. -/
theorem Marked.quiet (hs : Marked s) (hcoh : Coherent s') (hm : s'.master = s.master)
    (hp : s'.parallel = s.parallel)
    (hco : ∀ b k, s.coro b = some k → ∃ k', s'.coro b = some k' ∧ k'.status = k.status) :
    Marked s' := by
  refine ⟨hcoh, fun loc co hexec => ?_, hp ▸ hs.parallel⟩
  obtain ⟨k, hk, hrun⟩ := hs.master loc co (hm ▸ hexec)
  obtain ⟨k', hk', hst⟩ := hco co k hk
  exact ⟨k', hk', hst.trans hrun⟩

/-- A step after which no coroutine executes on the master thread. -/
theorem Marked.leave (hs : Marked s) (hcoh : Coherent s') (hm : ∀ loc co, s'.master ≠ .exec loc co)
    (hp : s'.parallel = s.parallel) : Marked s' :=
  ⟨hcoh, fun loc co hexec => absurd hexec (hm loc co), hp ▸ hs.parallel⟩

theorem setCoro_status (hk : s.coro x = some k) {k' : Coroutine} (hst : k'.status = k.status) :
    ∀ b m, s.coro b = some m → ∃ m', (s.setCoro x k').coro b = some m' ∧ m'.status = m.status := by
  intro b m hm
  rcases eq_or_ne b x with rfl | hb
  · obtain rfl : k = m := Option.some.inj (hk.symm.trans hm)
    exact ⟨k', Function.update_self _ _ _, hst⟩
  · exact ⟨m, (Function.update_of_ne hb _ _).trans hm, rfl⟩

/-- The event loop changes its own position. -/
theorem Marked.setBody (hs : Marked s) (hm : s.master = .exec loc co) (hk : s.coro co = some k)
    (b : Body) : Marked (s.setCoro co { k with ctx := b }) :=
  hs.quiet (hs.coherent.goesInBody hm hk) rfl rfl (setCoro_status hk rfl)

/-- `sched_run_once` dispatches unless it has nothing to do. -/
theorem RunsOnce.of_idle (h : RunsOnce s loc co s') (hs : Coherent s) (hidle : Idle s) :
    s' = s := by
  rw [Idle, schedHasTask_eq hs.store] at hidle
  cases h with
  | idle => rfl
  | dispatch _ _ hstop hl => simp [hstop, hl] at hidle

theorem ParallelPc.free_of_holds {p : ParallelPc} (h : p.holds = none) : p.free = true := by
  cases p <;> simp_all [ParallelPc.holds, ParallelPc.free]

/-- **Every clean step that dispatches only through `sched_run`** keeps the invariant. -/
theorem Marked.step (hs : Marked s) (hclean : Clean s act) (hby : ByRun s act)
    (hstep : step s act = some (.ok s')) : Marked s' := by
  have hcoh := hs.coherent.step hclean hstep
  have hfree := hs.parallel
  cases hs.coherent.cleanStep hclean hstep with
  | spawn _ h =>
    cases h with
    | noMemory => exact hs
    | @allocated a q r ha =>
      refine hs.quiet hcoh rfl rfl fun b m hb => ⟨m, ?_, rfl⟩
      have hne : b ≠ a := by
        rintro rfl
        rw [ha] at hb
        exact absurd hb (by simp)
      exact (Function.update_of_ne hne _ _).trans hb
  | envRun => exact ⟨hcoh, by simp, rfl⟩
  -- the calls
  | yield h | registerEvent h =>
    obtain ⟨-, -⟩ := h
    exact hs.leave hcoh (by simp) rfl
  | runOnce _ h =>
    have hidle : Idle s := hby
    exact h.of_idle hs.coherent hidle ▸ hs
  | setNeedParallel _ hk => exact hs.quiet hcoh rfl rfl (setCoro_status hk rfl)
  | stays => exact hs
  | removeEvent | envStop => exact hs.quiet hcoh rfl rfl fun b m hb => ⟨m, hb, rfl⟩
  -- the master thread
  | exit | lock | unlock | finish | take | keep | reclaim | locked | refused | insert | unlocked =>
    exact hs.leave hcoh (by simp) rfl
  | @dispatch x c l q =>
    refine ⟨hcoh, fun loc co hexec => ?_, hs.parallel⟩
    obtain ⟨rfl, rfl⟩ : x = loc ∧ x = co := by simpa using hexec
    exact ⟨_, Function.update_self _ _ _, rfl⟩
  | body hm hk => exact hs.setBody hm hk _
  | @bodyOnce loc co k _ hm hk hctx h =>
    have hown : Marked (s.setCoro co { k with ctx := .eventLoop .wait }) := hs.setBody hm hk _
    have hidle : Idle (s.setCoro co { k with ctx := .eventLoop .wait }) :=
      hby k (runningCoro_some (by rw [State.running, hm]) hk) hctx
    exact h.of_idle hown.coherent hidle ▸ hown
  | epoll _ hk => exact hs.quiet hcoh rfl rfl (setCoro_status hk rfl)
  -- the parallel thread, as long as it switches into no coroutine
  | move _ hp' => exact ⟨hcoh, hs.master, ParallelPc.free_of_holds hp'⟩
  | pop => exact ⟨hcoh, hs.master, rfl⟩
  | switchTo hp => simp [ByRun, hp] at hby
  | transfer hp | toMaster hp | again hp | sent hp =>
    rw [hp] at hfree
    exact absurd hfree (by simp [ParallelPc.free])

theorem Marked.boot (em : Option Eventmanager) : Marked (State.boot em) :=
  ⟨.boot em, by simp [State.boot], rfl⟩

/-! ## 3. The other dispatchers -/

/-- A coroutine that executes in state `M_READY` is not recorded as running. -/
theorem not_recorded (hr : s.running t = some x) (hk : s.coro x = some k)
    (hready : k.status = .ready) : ¬ Recorded s := by
  intro hrec
  obtain ⟨k', hk', -, -, hrun⟩ := hrec.fields t x hr
  obtain rfl : k = k' := Option.some.inj (hk.symm.trans hk')
  rw [hready] at hrun
  exact absurd hrun (by simp)

/-- `sched_run_once` leaves the coroutine it dispatches in state `M_READY`. -/
theorem RunsOnce.unmarked (h : RunsOnce s loc co s') (hs : Coherent s) (hidle : ¬ Idle s) :
    ¬ Recorded s' := by
  cases h with
  | idle hdone =>
    refine absurd (hdone.imp_right fun hl => ?_) hidle
    simp [schedHasTask_eq hs.store, hl]
  | dispatch _ _ _ _ hx hready _ hxco =>
    exact not_recorded (t := .master) rfl ((Function.update_of_ne hxco _ _).trans hx) hready

/-- **Every other dispatch** leaves what it dispatches unrecorded. -/
theorem Coherent.unmarked (hs : Coherent s) (hby : ¬ ByRun s act)
    (hstep : Corosched.step s act = some (.ok s')) : ¬ Recorded s' := by
  unfold ByRun at hby
  split at hby
  · simp only [Corosched.step] at hstep
    split at hstep
    · exact absurd hstep (by simp)
    · rename_i co hr
      obtain ⟨loc, hm⟩ := running_master hr
      split at hstep
      · exact absurd hstep (by simp)
      · split at hstep
        · rw [callStep, if_pos rfl, Option.some.injEq] at hstep
          exact (hs.schedRunOnce_runs hm hstep).unmarked hs hby
        · exact absurd hstep (by simp)
  · simp only [not_forall] at hby
    obtain ⟨k, hkr, hctx, hidle⟩ := hby
    obtain ⟨co, hr, hk⟩ := Option.bind_eq_some_iff.mp hkr
    obtain ⟨loc, hm⟩ := running_master hr
    simp only [Corosched.step, Corosched.masterStep, hm, hk, hctx, eventLoopRun] at hstep
    cases hem : s.eventmgr with
    | none => simp [hem] at hstep
    | some em =>
      simp only [hem, eventLoopStep, Option.some.injEq] at hstep
      have hown : Coherent (s.setCoro co { k with ctx := .eventLoop .wait }) :=
        hs.goesInBody hm hk
      exact (hown.schedRunOnce_runs hm hstep).unmarked hown hidle
  · split at hby
    · rename_i co hp
      have hps := hs.parallel
      rw [ParallelOk, hp] at hps
      obtain ⟨⟨k, hk, hready, -⟩, -⟩ := hps
      simp [Corosched.step, Corosched.parallelStep, hp, load_some hk] at hstep
      subst hstep
      exact not_recorded (t := .parallel) (x := co) rfl hk hready
    · exact absurd trivial hby
  · exact absurd trivial hby

/-- **When what executes is recorded as running.**  In every run whose steps are clean and
dispatch through `sched_run` only, every state is `Recorded`; and in a run whose steps are clean
no other dispatch leaves all states so. -/
theorem running_recorded (em : Option Eventmanager) (as : List Act) :
    (Machine.Meets Corosched.step (fun s act => Clean s act ∧ ByRun s act) (State.boot em) as →
        Machine.Throughout Corosched.step Recorded (State.boot em) as) ∧
      ∀ s, Machine.Run Corosched.step Clean (State.boot em) as s →
        Machine.Throughout Corosched.step Recorded (State.boot em) as →
        Machine.Meets Corosched.step ByRun (State.boot em) as := by
  constructor
  · intro h
    exact h.throughout (I := Marked) (fun _ _ _ hi hc hs => hi.step hc.1 hc.2 hs) (Marked.boot em)
      fun _ hi => hi.recorded
  · rintro s hrun hrec bs act s₁ ⟨cs, hcs⟩ hbs
    by_contra hby
    rw [← hcs] at hrun
    obtain ⟨s₂, hrun₂, -⟩ := hrun.append_inv
    obtain ⟨s₁', hrun₁, -, hstep⟩ := hrun₂.snoc_inv
    obtain rfl := hrun₁.det hbs
    exact ((Coherent.boot em).run hrun₁).unmarked hby hstep (hrec _ s₂ ⟨cs, hcs⟩ hrun₂.any)

/-- A coroutine dispatched by `sched_run` yields and is dispatched again. -/
theorem running_recorded_again :
    ∃ s, Machine.exec Corosched.step (fun s act => Clean s act ∧ ByRun s act) (State.boot none)
        [.main .master .user (some ⟨16, by decide⟩), .envRun, .master, .master, .master,
          .call .master .yield, .master, .master] = some (.ok s) ∧
      s.running .master = some ⟨16, by decide⟩ ∧ Recorded s := by
  have hrun : ∃ s, Machine.exec Corosched.step (fun s act => Clean s act ∧ ByRun s act)
        (State.boot none)
        [.main .master .user (some ⟨16, by decide⟩), .envRun, .master, .master, .master,
          .call .master .yield, .master, .master] = some (.ok s) ∧
      s.running .master = some ⟨16, by decide⟩ := ⟨_, rfl, rfl⟩
  obtain ⟨s, hexec, hr⟩ := hrun
  have hrun' := Machine.Run.of_exec hexec
  exact ⟨s, hexec, hr, ((running_recorded none _).1 hrun'.meets).end hrun'⟩

/-- `sched_run_once` dispatches `32`, which is not marked as running: when it asks to be queued at
the head the assertion of `coro_ready_immediatly` fails.  `parallel_run` dispatches `16`, which is
not recorded: when it yields the assertion of `coro_yield` fails. -/
theorem running_unrecorded :
    (∃ s : State, Machine.exec Corosched.step Machine.Any (State.boot none)
        [.main .master .user (some ⟨16, by decide⟩), .main .master .user (some ⟨32, by decide⟩),
          .envRun, .master, .master, .master, .call .master .runOnce] = some (.ok s) ∧
      s.running .master = some ⟨32, by decide⟩ ∧
      coroReadyImmediatly s (some ⟨32, by decide⟩) = .error .assertFail ∧ ¬ Recorded s) ∧
    ∃ s : State, Machine.exec Corosched.step Machine.Any (State.boot none)
        [.main .parallel .user (some ⟨16, by decide⟩), .envRun, .master, .master, .parallel,
          .parallel, .parallel, .parallel, .parallel, .parallel] = some (.ok s) ∧
      s.running .parallel = some ⟨16, by decide⟩ ∧
      coroYield s .parallel (some ⟨16, by decide⟩) = .error .assertFail ∧ ¬ Recorded s := by
  constructor
  · refine ⟨_, rfl, rfl, rfl, fun hrec => ?_⟩
    exact absurd (hrec.fields .master _ rfl) (by rintro ⟨k, hk, -, -, hrun⟩; cases hk; cases hrun)
  · refine ⟨_, rfl, rfl, rfl, fun hrec => ?_⟩
    exact absurd (hrec.fields .parallel _ rfl) (by rintro ⟨k, hk, -, -, hrun⟩; cases hk; cases hrun)

end Corosched
