/-
# `g_mutex` after the first trylock of `parallel_run`

`parallel_run` unlocks `g_mutex` on neither way out of the branch in which its trylock has
succeeded.  For whole runs that means: the lock stays taken, so the branch is never entered again
and `parallel_run` executes one coroutine at most; `coro_sent_parallel` hands nothing over any
more; and `env_run`, if it had not come to its own lock before, waits for it for ever.

`Turn` says what a step can do to the lock and to where the two threads stand, whatever the memory
looks like, and `step_turn` reads it off the code.
-/
import Corosched.Invariant
import Corosched.Mutex

namespace Corosched

open State

/-! ## 1. What a step does to the threads -/

/-- The lock and where the threads stand. -/
structure Threads where
  mutex : Option SchedId
  master : MasterPc
  parallel : ParallelPc

/-- What is seen of a state. -/
def State.threads (s : State) : Threads := ⟨s.mutex, s.master, s.parallel⟩

/-- How the parallel thread goes on without touching the lock. -/
inductive ParallelPc.Goes : ParallelPc → ParallelPc → Prop
  | test : Goes .loop .trylock
  | stop : Goes .loop .done
  | held : Goes .trylock .sleep
  | empty : Goes .check .sleep
  | take (x : Addr) : Goes .check (.switchTo x)
  | wake : Goes .sleep .loop
  | switch (x : Addr) : Goes (.switchTo x) (.exec x)
  | leave (x : Addr) : Goes (.exec x) (.toMaster x)
  | own (x : Addr) : Goes (.toMaster x) (.sending x)
  | again (x : Addr) : Goes (.sending x) (.toMaster x)
  | sent (x : Addr) : Goes (.sending x) .loop

/-- **What a step does to the threads.** -/
inductive Turn (x : Threads) : Threads → Prop
  | same : Turn x x
  | start (hm : x.master = .main) : Turn x { x with master := .envLock, parallel := .mainLock }
  /-- the master thread goes on -/
  | master {m : MasterPc} (hm : x.master ≠ .envLock) (hm' : m ≠ .main)
      (hc : m.critical = x.master.critical) : Turn x { x with master := m }
  | masterLock {m : MasterPc} (hx : x.mutex = none) :
      Turn x { x with mutex := some .master, master := m }
  | masterUnlock {m : MasterPc} (hc : x.master.critical = true) :
      Turn x { x with mutex := none, master := m }
  /-- the parallel thread goes on -/
  | parallel {p : ParallelPc} (hp : x.parallel.Goes p) : Turn x { x with parallel := p }
  | parallelLock {p : ParallelPc} (hx : x.mutex = none) (hc : p.critical = true) :
      Turn x { x with mutex := some .parallel, parallel := p }
  | mainUnlock (hp : x.parallel = .mainUnlock) :
      Turn x { x with mutex := none, parallel := .loop }

variable {s s' s₁ s₂ s₃ : State} {x y : Threads} {a b c co loc : Addr} {t h : SchedId}
  {p : Option Addr} {act : Act} {as bs cs : List Act} {em : Option Eventmanager}

theorem coroReady_threads (h' : coroReady s p = .ok s') : s'.threads = s.threads := by
  obtain ⟨a, k, h, q, -, -, -, -, rfl⟩ := coroReady_inv h'
  rfl

theorem insertHead_threads (h' : insertHead s h a = .ok s') : s'.threads = s.threads := by
  have hv := insertHead_view h'
  have hx : s'.mutex = s.mutex := congrArg View.mutex hv
  have hm : s'.master = s.master := congrArg View.master hv
  have hp : s'.parallel = s.parallel := congrArg View.parallel hv
  simp only [State.threads, hx, hm, hp]

theorem coroReadyImmediatly_threads (h' : coroReadyImmediatly s p = .ok s') :
    s'.threads = s.threads := by
  simp only [coroReadyImmediatly, bind_eq_ok] at h'
  obtain ⟨a, -, k, -, u, -, h, -, hins⟩ := h'
  have hx := insertHead_threads hins
  exact hx

theorem pop_threads (h' : pop s h = .ok (s', p)) : s'.threads = s.threads := by
  rcases pop_inv h' with ⟨-, rfl⟩ | ⟨c, q, -, rfl⟩ <;> rfl

theorem spawnStep_threads {fn : Entry} {mem : Option Addr}
    (h' : spawnStep s h fn mem = some (.ok s')) : s'.threads = s.threads := by
  rw [spawnStep] at h'
  split at h'
  · cases mem with
    | none =>
      simp only [coroSpawn, pure_eq_ok, ok_bind, Option.some.injEq, Except.ok.injEq] at h'
      rw [h']
    | some a =>
      simp only [coroSpawn, Option.some.injEq, bind_eq_ok] at h'
      obtain ⟨⟨s₁, rs⟩, ⟨r, -, s₂, hready, hs₁⟩, hs'⟩ := h'
      simp only [pure_eq_ok, Except.ok.injEq, Prod.mk.injEq] at hs₁ hs'
      obtain ⟨rfl, rfl⟩ := hs₁
      subst hs'
      have hx := coroReady_threads hready
      exact hx
  · exact absurd h' (by simp)

/-- A switch to the scheduler is made by a running coroutine. -/
theorem switchToSched_turn (h' : switchToSched s t h = .ok s') : Turn s.threads s'.threads := by
  obtain ⟨-, ⟨-, loc, co, hm, rfl⟩ | ⟨-, co, hp, rfl⟩⟩ := switchToSched_inv h'
  · exact .master (x := s.threads) (by simp [State.threads, hm]) (by simp)
      (by simp [State.threads, hm, MasterPc.critical])
  · exact .parallel (x := s.threads) (by simpa [State.threads, hp] using .leave co)

theorem coroYield_turn (h' : coroYield s t p = .ok s') : Turn s.threads s'.threads := by
  simp only [coroYield, bind_eq_ok] at h'
  obtain ⟨-, -, a, -, k, -, h, -, -, -, s₁, hready, -, -, hswitch⟩ := h'
  exact coroReady_threads hready ▸ switchToSched_turn hswitch

theorem coroExit_turn (h' : coroExit s t p = .ok s') : Turn s.threads s'.threads := by
  simp only [coroExit, bind_eq_ok] at h'
  obtain ⟨-, -, a, -, k, -, h, -, -, -, hswitch⟩ := h'
  have hx := switchToSched_turn hswitch
  exact hx

theorem coroSwitchToParallel_turn {rs : Option Rstatus}
    (h' : coroSwitchToParallel s t p = .ok (s', rs)) : Turn s.threads s'.threads := by
  simp only [coroSwitchToParallel, bind_eq_ok] at h'
  obtain ⟨-, -, a, -, k, -, hrest⟩ := h'
  split at hrest
  · simp only [pure_eq_ok, Except.ok.injEq, Prod.mk.injEq] at hrest
    exact hrest.1 ▸ .same
  · simp only [bind_eq_ok, pure_eq_ok, Except.ok.injEq, Prod.mk.injEq] at hrest
    obtain ⟨s₁, himm, s₂, hyield, rfl, -⟩ := hrest
    exact coroReadyImmediatly_threads himm ▸ coroYield_turn hyield

/-- `sched_run_once`, wherever its loop ends. -/
theorem schedRunOnceFrom_turn {n : Nat} (h' : schedRunOnceFrom n s = .ok s') :
    Turn s.threads s'.threads := by
  induction n generalizing s with
  | zero => exact absurd h' (by simp [schedRunOnceFrom])
  | succ n ih =>
    rw [schedRunOnceFrom] at h'
    split at h'
    · simp only [pure_eq_ok, Except.ok.injEq] at h'
      exact h' ▸ .same
    · split at h'
      · simp only [pure_eq_ok, Except.ok.injEq] at h'
        exact h' ▸ .same
      · obtain ⟨⟨s₁, head⟩, hpop, hrest⟩ := bind_eq_ok.mp h'
        have hs₁ := pop_threads hpop
        cases head with
        | none =>
          simp only [pure_eq_ok, Except.ok.injEq] at hrest
          exact hrest ▸ hs₁ ▸ .same
        | some x =>
          obtain ⟨k, -, hrest⟩ := bind_eq_ok.mp hrest
          split at hrest
          · exact hs₁ ▸ ih hrest
          · simp only [bind_eq_ok] at hrest
            obtain ⟨s₂, hready, k₂, -, hrest⟩ := hrest
            rw [← hs₁, ← coroReady_threads hready]
            split at hrest
            · obtain ⟨⟨s₃, rs⟩, hswitch, hs₃⟩ := bind_eq_ok.mp hrest
              simp only [pure_eq_ok, Except.ok.injEq] at hs₃
              exact hs₃ ▸ coroSwitchToParallel_turn hswitch
            · obtain ⟨-, -, hrest⟩ := bind_eq_ok.mp hrest
              rw [switchToCoro] at hrest
              split at hrest
              · rename_i loc co hm
                simp only [pure_eq_ok, Except.ok.injEq] at hrest
                subst hrest
                have hm' : s₂.master = .exec loc co := hm
                have hgo : Turn s₂.threads { s₂.threads with master := .exec loc x } :=
                  .master (by simp [State.threads, hm']) (by simp)
                    (by simp [State.threads, hm', MasterPc.critical])
                exact hgo
              · exact absurd hrest (by simp)

/-- A call by a running coroutine. -/
theorem callStep_turn {k : Call} (h' : callStep s t co k = some (.ok s')) :
    Turn s.threads s'.threads := by
  cases k with
  | spawn h fn mem => exact spawnStep_threads h' ▸ .same
  | yield => exact coroYield_turn (Option.some.inj h')
  | exit => exact coroExit_turn (Option.some.inj h')
  | runOnce =>
    simp only [callStep] at h'
    split at h'
    · exact schedRunOnceFrom_turn (Option.some.inj h')
    · exact absurd h' (by simp)
  | setNeedParallel b =>
    simp only [callStep, Option.some.injEq, bind_eq_ok] at h'
    obtain ⟨k, -, hset⟩ := h'
    simp only [pure_eq_ok, Except.ok.injEq] at hset
    exact hset ▸ .same
  | switchToParallel =>
    simp only [callStep, Option.some.injEq, bind_eq_ok] at h'
    obtain ⟨⟨s₁, rs⟩, hswitch, hs₁⟩ := h'
    simp only [pure_eq_ok, Except.ok.injEq] at hs₁
    exact hs₁ ▸ coroSwitchToParallel_turn hswitch
  | registerEvent q ev =>
    simp only [callStep] at h'
    split at h'
    · simp only [registerEvent, Option.some.injEq, bind_eq_ok] at h'
      obtain ⟨-, -, -, -, -, -, x, -, hyield⟩ := h'
      have hx := coroYield_turn hyield
      exact hx
    · exact absurd h' (by simp)
  | removeEvent q =>
    simp only [callStep] at h'
    split at h'
    · simp only [pure_eq_ok, Option.some.injEq, Except.ok.injEq] at h'
      exact h' ▸ .same
    · exact absurd h' (by simp)
  | envStop =>
    simp only [callStep, Option.some.injEq, envStop, bind_eq_ok] at h'
    obtain ⟨em, -, hset⟩ := h'
    simp only [pure_eq_ok, Except.ok.injEq] at hset
    exact hset ▸ .same
  | transfer =>
    simp only [callStep] at h'
    split at h'
    · simp only [Option.some.injEq, bind_eq_ok] at h'
      obtain ⟨k, -, h, -, hswitch⟩ := h'
      exact switchToSched_turn hswitch
    · exact absurd h' (by simp)

/-- `event_loop` between two calls of `epoll_wait`. -/
theorem eventLoopRun_turn {k : Coroutine} {pc : EvPc}
    (h' : eventLoopRun s co k pc = some (.ok s')) : Turn s.threads s'.threads := by
  rw [eventLoopRun] at h'
  split at h'
  · exact absurd h' (by simp)
  · split at h'
    · exact absurd h' (by simp)
    · rename_i em _ pc' call hpc
      cases call with
      | nothing =>
        simp only [pure_eq_ok, Option.some.injEq, Except.ok.injEq] at h'
        exact h' ▸ .same
      | callback e =>
        simp only [eventCallback, Option.some.injEq, bind_eq_ok] at h'
        obtain ⟨q, -, s₁, hready, honce⟩ := h'
        have hs₁ := coroReady_threads hready
        have honce' := schedRunOnceFrom_turn honce
        rw [hs₁] at honce'
        exact honce'
      | runOnce =>
        have honce := schedRunOnceFrom_turn (Option.some.inj h')
        exact honce
      | ret => exact absurd h' (by simp)

/-- One iteration of `sched_run`. -/
theorem schedRun_turn (hm : s.master = .loop) (h' : schedRun s = .ok s') :
    Turn s.threads s'.threads := by
  have hgo : ∀ m : MasterPc, m ≠ .main → m.critical = false →
      Turn s.threads { s.threads with master := m } := fun m hm' hc =>
    .master (by simp [State.threads, hm]) hm' (by rw [hc, State.threads, hm]; rfl)
  rw [schedRun] at h'
  split at h'
  · simp only [pure_eq_ok, Except.ok.injEq] at h'
    exact h' ▸ hgo .done (by simp) rfl
  · obtain ⟨⟨s₁, head⟩, hpop, hrest⟩ := bind_eq_ok.mp h'
    have hs₁ := pop_threads hpop
    rw [← hs₁] at hgo ⊢
    cases head with
    | none =>
      simp only [pure_eq_ok, Except.ok.injEq] at hrest
      exact hrest ▸ hgo .done (by simp) rfl
    | some c =>
      obtain ⟨k, -, hrest⟩ := bind_eq_ok.mp hrest
      split at hrest <;> simp only [pure_eq_ok, Except.ok.injEq] at hrest
      · exact hrest ▸ hgo (.sentTrylock c) (by simp) rfl
      · exact hrest ▸ hgo (.exec c c) (by simp) rfl

/-- `sched_run` after its switch. -/
theorem schedRunBack_turn (hm : s.master = .back c) (h' : schedRunBack s c = .ok s') :
    Turn s.threads s'.threads := by
  have hgo : Turn s.threads { s.threads with master := .loop } :=
    .master (by simp [State.threads, hm]) (by simp) (by simp [State.threads, hm, MasterPc.critical])
  simp only [schedRunBack, bind_eq_ok] at h'
  obtain ⟨k, -, hrest⟩ := h'
  split at hrest
  · obtain ⟨r, -, hrest⟩ := bind_eq_ok.mp hrest
    simp only [pure_eq_ok, Except.ok.injEq] at hrest
    exact hrest ▸ hgo
  · simp only [pure_eq_ok, Except.ok.injEq] at hrest
    exact hrest ▸ hgo

/-- The framework code on the master thread. -/
theorem masterStep_turn (h' : masterStep s = some (.ok s')) : Turn s.threads s'.threads := by
  rw [masterStep] at h'
  cases hm : s.master with
  | main | done => simp [hm] at h'
  | envLock =>
    simp only [hm] at h'
    split at h'
    · rename_i hx
      simp only [pure_eq_ok, Option.some.injEq, Except.ok.injEq] at h'
      exact h' ▸ .masterLock (x := s.threads) hx
    · exact absurd h' (by simp)
  | envUnlock | sentUnlock =>
    simp only [hm, pure_eq_ok, Option.some.injEq, Except.ok.injEq] at h'
    exact h' ▸ .masterUnlock (x := s.threads) (by simp [State.threads, hm, MasterPc.critical])
  | loop =>
    simp only [hm, Option.some.injEq] at h'
    exact schedRun_turn hm h'
  | sentTrylock c =>
    simp only [hm, Option.some.injEq, bind_eq_ok] at h'
    obtain ⟨⟨s₁, rs⟩, hsent, hrest⟩ := h'
    simp only [coroSentParallel, bind_eq_ok] at hsent
    obtain ⟨k, -, -, -, hlock⟩ := hsent
    cases hx : s.mutex with
    | none =>
      simp only [hx, pure_eq_ok, Except.ok.injEq, Prod.mk.injEq] at hlock
      obtain ⟨rfl, rfl⟩ := hlock
      simp only [if_true, pure_eq_ok, Except.ok.injEq] at hrest
      exact hrest ▸ .masterLock (x := s.threads) hx
    | some o =>
      simp only [hx, pure_eq_ok, Except.ok.injEq, Prod.mk.injEq] at hlock
      obtain ⟨rfl, rfl⟩ := hlock
      simp only [reduceCtorEq, if_false, pure_eq_ok, Except.ok.injEq] at hrest
      exact hrest ▸ .master (x := s.threads) (by simp [State.threads, hm]) (by simp)
        (by simp [State.threads, hm, MasterPc.critical])
  | sentInsert c =>
    simp only [hm, Option.some.injEq, bind_eq_ok, coroSentParallelInsert] at h'
    obtain ⟨s₁, ⟨k, -, hins⟩, hrest⟩ := h'
    simp only [pure_eq_ok, Except.ok.injEq] at hrest
    have hs₁ := insertHead_threads hins
    have hgo : Turn s.threads { s.threads with master := .sentUnlock c } :=
      .master (by simp [State.threads, hm]) (by simp)
        (by simp [State.threads, hm, MasterPc.critical])
    rw [show s.threads = s₁.threads from hs₁.symm] at hgo ⊢
    exact hrest ▸ hgo
  | readyImm c =>
    simp only [hm, Option.some.injEq, bind_eq_ok] at h'
    obtain ⟨s₁, hready, hrest⟩ := h'
    simp only [pure_eq_ok, Except.ok.injEq] at hrest
    have hgo : Turn s.threads { s.threads with master := .loop } :=
      .master (by simp [State.threads, hm]) (by simp)
        (by simp [State.threads, hm, MasterPc.critical])
    rw [← coroReadyImmediatly_threads hready] at hgo ⊢
    exact hrest ▸ hgo
  | exec loc co =>
    simp only [hm] at h'
    split at h'
    · exact absurd h' (by simp)
    · split at h'
      · exact absurd h' (by simp)
      · exact eventLoopRun_turn h'
  | back c =>
    simp only [hm, Option.some.injEq] at h'
    exact schedRunBack_turn hm h'

/-- The framework code on the parallel thread. -/
theorem parallelStep_turn (h' : parallelStep s = some (.ok s')) : Turn s.threads s'.threads := by
  have hgo : ∀ p, s.parallel.Goes p → Turn s.threads { s.threads with parallel := p } :=
    fun p hp => .parallel hp
  rw [parallelStep] at h'
  cases hp : s.parallel with
  | notStarted | exec | sending | done => simp [hp] at h'
  | mainLock =>
    simp only [hp] at h'
    split at h'
    · rename_i hx
      simp only [pure_eq_ok, Option.some.injEq, Except.ok.injEq] at h'
      exact h' ▸ .parallelLock (x := s.threads) hx rfl
    · exact absurd h' (by simp)
  | mainUnlock =>
    simp only [hp, pure_eq_ok, Option.some.injEq, Except.ok.injEq] at h'
    exact h' ▸ .mainUnlock (x := s.threads) hp
  | loop =>
    simp only [hp] at h' hgo
    split at h' <;> simp only [pure_eq_ok, Option.some.injEq, Except.ok.injEq] at h'
    · exact h' ▸ hgo .done .stop
    · exact h' ▸ hgo .trylock .test
  | trylock =>
    simp only [hp] at h' hgo
    split at h' <;> simp only [pure_eq_ok, Option.some.injEq, Except.ok.injEq] at h'
    · rename_i hx
      exact h' ▸ .parallelLock (x := s.threads) hx rfl
    · exact h' ▸ hgo .sleep .held
  | check =>
    simp only [hp] at h' hgo
    split at h'
    · simp only [pure_eq_ok, Option.some.injEq, Except.ok.injEq] at h'
      exact h' ▸ hgo .sleep .empty
    · simp only [Option.some.injEq, bind_eq_ok] at h'
      obtain ⟨⟨s₁, head⟩, hpop, -, -, x, -, hrest⟩ := h'
      simp only [pure_eq_ok, Except.ok.injEq] at hrest
      rw [← pop_threads hpop] at hgo ⊢
      exact hrest ▸ hgo (.switchTo x) (.take x)
  | sleep =>
    simp only [hp, pure_eq_ok, Option.some.injEq, Except.ok.injEq] at h' hgo
    exact h' ▸ hgo .loop .wake
  | switchTo x =>
    simp only [hp, Option.some.injEq, bind_eq_ok] at h' hgo
    obtain ⟨k, -, hrest⟩ := h'
    simp only [pure_eq_ok, Except.ok.injEq] at hrest
    exact hrest ▸ hgo (.exec x) (.switch x)
  | toMaster x =>
    simp only [hp, Option.some.injEq, bind_eq_ok] at h' hgo
    obtain ⟨k, -, hrest⟩ := h'
    simp only [pure_eq_ok, Except.ok.injEq] at hrest
    exact hrest ▸ hgo (.sending x) (.own x)

/-- The `send` of `coro_switch_to_master` returns. -/
theorem sendStep_turn {n : SendResult} (h' : sendStep s n = some (.ok s')) :
    Turn s.threads s'.threads := by
  rw [sendStep] at h'
  split at h'
  · rename_i x hp
    have hgo : ∀ p, ParallelPc.Goes (.sending x) p →
        Turn s.threads { s.threads with parallel := p } := fun p h =>
      .parallel (by simpa only [State.threads, hp] using h)
    split at h'
    · simp only [Option.some.injEq, bind_eq_ok, coroSwitchToMaster] at h'
      obtain ⟨⟨s₁, rs⟩, ⟨k, -, hsend⟩, hrest⟩ := h'
      have hs₁ : s₁.threads = s.threads := by
        cases n with
        | eintr | fail =>
          simp only [pure_eq_ok, Except.ok.injEq, Prod.mk.injEq] at hsend
          exact hsend.1 ▸ rfl
        | sent m =>
          simp only at hsend
          split at hsend <;> simp only [pure_eq_ok, Except.ok.injEq, Prod.mk.injEq] at hsend <;>
            exact hsend.1 ▸ rfl
      rw [← hs₁] at hgo ⊢
      cases rs with
      | none =>
        simp only [pure_eq_ok, Except.ok.injEq] at hrest
        exact hrest ▸ hgo (.toMaster x) (.again x)
      | some _ =>
        simp only [pure_eq_ok, Except.ok.injEq] at hrest
        exact hrest ▸ hgo .loop (.sent x)
    · exact absurd h' (by simp)
  · exact absurd h' (by simp)

/-- **Every step.** -/
theorem step_turn (h' : step s act = some (.ok s')) : Turn s.threads s'.threads := by
  cases act with
  | main h fn mem =>
    simp only [step] at h'
    split at h'
    · exact spawnStep_threads h' ▸ .same
    · exact absurd h' (by simp)
  | envRun =>
    simp only [step] at h'
    split at h'
    · rename_i hm
      simp only [pure_eq_ok, Option.some.injEq, Except.ok.injEq] at h'
      exact h' ▸ .start (x := s.threads) hm
    · exact absurd h' (by simp)
  | call t k =>
    simp only [step] at h'
    split at h'
    · exact absurd h' (by simp)
    · split at h'
      · exact absurd h' (by simp)
      · split at h'
        · exact callStep_turn h'
        · exact absurd h' (by simp)
  | master => exact masterStep_turn h'
  | parallel => exact parallelStep_turn h'
  | send n => exact sendStep_turn h'
  | epoll n =>
    simp only [step] at h'
    split at h'
    · split at h'
      · unfold eventLoopEpoll at h'
        split at h'
        · exact absurd h' (by simp)
        · split at h'
          · exact absurd h' (by simp)
          · split at h'
            · simp only [pure_eq_ok, Option.some.injEq, Except.ok.injEq] at h'
              exact h' ▸ .same
            · exact absurd h' (by simp)
        · split at h' <;> exact absurd h' (by simp)
      · exact absurd h' (by simp)
    · exact absurd h' (by simp)

/-! ## 2. After the trylock -/

/-- `parallel_run` has come past its trylock, or is in the branch behind it. -/
structure Taken (x : Threads) : Prop where
  mutex : x.mutex = some .parallel
  critical : x.master.critical = false
  main : x.master ≠ .main
  parallel : x.parallel ≠ .mainUnlock

/-- It goes to no place inside a critical section, and only the pop gives it another coroutine. -/
theorem ParallelPc.Goes.holds {p q : ParallelPc} (h : p.Goes q) :
    q ≠ .mainUnlock ∧ q ≠ .check ∧
      (p = .check ∨ q.holds = p.holds ∨ q.holds = none) := by
  cases h <;> simp [ParallelPc.holds]

theorem Turn.holds (h : Turn x y) (hx : x.parallel.holds = none)
    (hy : y.parallel.holds ≠ none) : x.parallel = .check := by
  cases h with
  | same | master | masterLock | masterUnlock => exact absurd hx hy
  | start | mainUnlock => exact absurd rfl hy
  | @parallelLock p _ hc =>
    cases p with
    | mainUnlock | check => exact absurd rfl hy
    | _ => exact absurd hc (by simp [ParallelPc.critical])
  | parallel hgo =>
    rcases hgo.holds.2.2 with h | h | h
    · exact h
    · exact absurd (h.trans hx) hy
    · exact absurd h hy

/-- **Every step keeps the lock taken.**  The master thread does not leave its lock in `env_run`,
and once `parallel_run` is out of the branch it serves whom it served, or nobody. -/
theorem Taken.turn (hx : Taken x) (h : Turn x y) :
    Taken y ∧ (x.master = .envLock → y.master = .envLock) ∧ (x.parallel ≠ .check →
      y.parallel ≠ .check ∧
        (y.parallel.holds = x.parallel.holds ∨ y.parallel.holds = none)) := by
  obtain ⟨hmx, hc, hm, hp⟩ := hx
  cases h with
  | same => exact ⟨⟨hmx, hc, hm, hp⟩, id, fun hn => ⟨hn, .inl rfl⟩⟩
  | start h => exact absurd h hm
  | master hl hm' hc' =>
    exact ⟨⟨hmx, hc'.trans hc, hm', hp⟩, fun h => absurd h hl, fun hn => ⟨hn, .inl rfl⟩⟩
  | masterLock h | parallelLock h => exact absurd (hmx.symm.trans h) (by simp)
  | masterUnlock h => exact absurd (hc.symm.trans h) (by simp)
  | mainUnlock h => exact absurd h hp
  | parallel hgo =>
    obtain ⟨hq, hq', hserve⟩ := hgo.holds
    exact ⟨⟨hmx, hc, hm, hq⟩, id, fun hn => ⟨hq', hserve.resolve_left hn⟩⟩

/-- **In every continuation.** -/
theorem Taken.run (hs : Taken s.threads) (h : Machine.Run step Machine.Any s as s') :
    Taken s'.threads ∧ (s.master = .envLock → s'.master = .envLock) ∧ (s.parallel ≠ .check →
      s'.parallel ≠ .check ∧
        (s'.parallel.holds = s.parallel.holds ∨ s'.parallel.holds = none)) := by
  induction h with
  | nil => exact ⟨hs, id, fun hn => ⟨hn, .inl rfl⟩⟩
  | snoc _ _ hstep ih =>
    obtain ⟨htaken, hlock, hserve⟩ := ih
    obtain ⟨htaken', hlock', hserve'⟩ := htaken.turn (step_turn hstep)
    refine ⟨htaken', fun hm => hlock' (hlock hm), fun hn => ?_⟩
    obtain ⟨hn₁, hx₁⟩ := hserve hn
    obtain ⟨hn₂, hx₂⟩ := hserve' hn₁
    refine ⟨hn₂, ?_⟩
    rcases hx₂ with hx₂ | hx₂
    · rcases hx₁ with hx₁ | hx₁
      · exact .inl (hx₂.trans hx₁)
      · exact .inr (hx₂.trans hx₁)
    · exact .inr hx₂

/-- Behind its trylock `parallel_run` owns the lock. -/
theorem Owns.taken (hv : Owns s.view) (hp : s.parallel = .check) : Taken s.threads := by
  have hmx : s.mutex = some .parallel :=
    hv.parallel (by simp [State.view, hp, ParallelPc.critical])
  refine ⟨hmx, ?_, fun hm => ?_, by simp [State.threads, hp]⟩
  · cases hc : s.master.critical with
    | false => exact hc
    | true => exact absurd (hmx.symm.trans (hv.master hc)) (by simp)
  · have : s.parallel = .notStarted := hv.start hm
    rw [hp] at this
    exact absurd this (by simp)

/-- What `parallel_run` serves it has taken behind its trylock. -/
theorem holds_taken (h : Machine.Run step Machine.Any (State.boot em) as s)
    (hx : s.parallel.holds = some a) : Taken s.threads ∧ s.parallel ≠ .check := by
  have hinv : Owns s.view ∧ (s.parallel.holds ≠ none → Taken s.threads) := by
    refine h.inv (I := fun s => Owns s.view ∧ (s.parallel.holds ≠ none → Taken s.threads))
      ?_ ⟨(Owns.boot em).1, by simp [State.boot, ParallelPc.holds]⟩
    intro s act s' hi _ hstep
    refine ⟨(hi.1.step hstep).1, fun hne => ?_⟩
    have hturn := step_turn hstep
    by_cases hs : s.parallel.holds = none
    · -- it was serving nobody: this is the pop
      exact ((hi.1.taken (hturn.holds hs hne)).turn hturn).1
    · exact ((hi.2 hs).turn hturn).1
  refine ⟨hinv.2 (by simp [hx]), fun hp => ?_⟩
  rw [hp] at hx
  exact absurd hx (by simp [ParallelPc.holds])

/-! ## 3. For whole runs -/

/-- **The lock is taken for good**: no trylock succeeds, of either thread; a coroutine that
`sched_run` has popped to hand it over is put into no queue; and `env_run` waits. -/
structure TakenForGood (s : State) : Prop where
  mutex : s.mutex = some .parallel
  master : s.master.critical = false
  parallelRun : s.parallel = .trylock →
    step s .parallel = some (.ok { s with parallel := .sleep })
  handOver : ∀ c s', s.master = .sentTrylock c → step s .master = some (.ok s') →
    s'.master = .loop ∧ s'.queue = s.queue
  envRun : s.master = .envLock → step s .master = none

theorem Taken.forGood (hs : Taken s.threads) : TakenForGood s := by
  have hmx : s.mutex = some .parallel := hs.mutex
  refine ⟨hmx, hs.critical, fun hp => ?_, fun c s' hm h' => ?_, fun hm => ?_⟩
  · simp [step, parallelStep, hp, hmx]
  · simp only [step, masterStep, hm, Option.some.injEq, bind_eq_ok, coroSentParallel] at h'
    obtain ⟨⟨s₁, rs⟩, ⟨k, -, -, -, hlock⟩, hrest⟩ := h'
    simp only [hmx, pure_eq_ok, Except.ok.injEq, Prod.mk.injEq] at hlock
    obtain ⟨rfl, rfl⟩ := hlock
    simp only [reduceCtorEq, if_false, pure_eq_ok, Except.ok.injEq] at hrest
    exact hrest ▸ ⟨rfl, rfl⟩
  · simp [step, masterStep, hm, hmx]

/-- **The first trylock of `parallel_run` that succeeds takes the lock for good**, whatever the
program does afterwards; and if `env_run` is still at its own lock, it never comes to the
scheduler. -/
theorem trylock_takes_for_good (h : Machine.Run step Machine.Any (State.boot em) as s)
    (hp : s.parallel = .check) (h' : Machine.Run step Machine.Any s bs s') :
    TakenForGood s' ∧ (s.master = .envLock → s'.master = .envLock) := by
  have howns : Owns s.view :=
    h.inv (I := fun s => Owns s.view) (fun _ _ _ hi _ hs => (hi.step hs).1) (Owns.boot em).1
  obtain ⟨htaken, hlock, -⟩ := (howns.taken hp).run h'
  exact ⟨htaken.forGood, hlock⟩

/-- The parallel thread comes to its trylock before `env_run` comes to its lock. -/
theorem trylock_takes_for_good_early :
    ∃ s s' : State, Machine.exec step Machine.Any (State.boot none)
        [.envRun, .parallel, .parallel, .parallel, .parallel] = some (.ok s) ∧
      Machine.exec step Machine.Any s [.parallel, .parallel, .parallel, .parallel] =
        some (.ok s') ∧ TakenForGood s' ∧ s'.master = .envLock := by
  have hrun : ∃ s s' : State, Machine.exec step Machine.Any (State.boot none)
        [.envRun, .parallel, .parallel, .parallel, .parallel] = some (.ok s) ∧
      Machine.exec step Machine.Any s [.parallel, .parallel, .parallel, .parallel] =
        some (.ok s') ∧ s.parallel = .check ∧ s.master = .envLock :=
    ⟨_, _, rfl, rfl, rfl, rfl⟩
  obtain ⟨s, s', hexec, hexec', hp, hm⟩ := hrun
  obtain ⟨hgood, hlock⟩ := trylock_takes_for_good (.of_exec hexec) hp (.of_exec hexec')
  exact ⟨s, s', hexec, hexec', hgood, hlock hm⟩

/-- **`parallel_run` serves one coroutine in the whole run**, and serves it once: two coroutines
that it is ever seen to serve are the same, and in between it has served no other and has not been
without. -/
theorem parallel_serves_one (h₁ : Machine.Run step Machine.Any (State.boot em) as s₁)
    (h₂ : Machine.Run step Machine.Any s₁ bs s₂) (h₃ : Machine.Run step Machine.Any s₂ cs s₃)
    (ha : s₁.parallel.holds = some a) (hb : s₃.parallel.holds = some b) :
    b = a ∧ s₂.parallel.holds = some a := by
  obtain ⟨htaken, hcheck⟩ := holds_taken h₁ ha
  obtain ⟨htaken₂, -, hserve₂⟩ := htaken.run h₂
  obtain ⟨hcheck₂, hx₂⟩ := hserve₂ hcheck
  have hx₃ := ((htaken₂.run h₃).2.2 hcheck₂).2
  rw [hb] at hx₃
  rw [ha] at hx₂
  rcases hx₂ with hx₂ | hx₂
  · rw [hx₂] at hx₃
    exact ⟨by simpa using hx₃, hx₂⟩
  · rw [hx₂] at hx₃
    exact absurd hx₃ (by simp)

/-- Of two coroutines spawned on the parallel scheduler the first is taken, runs and gives up
control. -/
theorem parallel_serves_one_of_two :
    ∃ s₁ s₂ s₃ : State, Machine.exec step Machine.Any (State.boot none)
        [.main .parallel .user (some ⟨160, by decide⟩),
          .main .parallel .user (some ⟨176, by decide⟩), .envRun, .parallel, .parallel, .parallel,
          .parallel, .parallel] = some (.ok s₁) ∧
      Machine.exec step Machine.Any s₁ [.parallel, .call .parallel .transfer] = some (.ok s₂) ∧
      Machine.exec step Machine.Any s₂ [.parallel] = some (.ok s₃) ∧
      s₃.parallel = .sending ⟨160, by decide⟩ ∧ s₂.parallel.holds = some ⟨160, by decide⟩ := by
  have hrun : ∃ s₁ s₂ s₃ : State, Machine.exec step Machine.Any (State.boot none)
        [.main .parallel .user (some ⟨160, by decide⟩),
          .main .parallel .user (some ⟨176, by decide⟩), .envRun, .parallel, .parallel, .parallel,
          .parallel, .parallel] = some (.ok s₁) ∧
      Machine.exec step Machine.Any s₁ [.parallel, .call .parallel .transfer] = some (.ok s₂) ∧
      Machine.exec step Machine.Any s₂ [.parallel] = some (.ok s₃) ∧
      s₁.parallel.holds = some ⟨160, by decide⟩ ∧ s₃.parallel = .sending ⟨160, by decide⟩ :=
    ⟨_, _, _, rfl, rfl, rfl, rfl, rfl⟩
  obtain ⟨s₁, s₂, s₃, hexec₁, hexec₂, hexec₃, ha, hp⟩ := hrun
  have hone := parallel_serves_one (.of_exec hexec₁) (.of_exec hexec₂) (.of_exec hexec₃) ha
    (b := ⟨160, by decide⟩) (by rw [hp]; rfl)
  exact ⟨s₁, s₂, s₃, hexec₁, hexec₂, hexec₃, hp, hone.2⟩

end Corosched
