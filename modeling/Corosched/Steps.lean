/-
# What a clean step does

`CleanStep s act s'` lists the clean steps of a state in order: where the thread stood, what it took
and inserted, and the state it left.  `Coherent.cleanStep` reads it off the code, once; whatever a
clean run keeps is then shown case by case, first of all the invariant itself.
-/
import Corosched.Invariant

namespace Corosched

open State Tailq

/-! ## 1. The steps -/

/-- `coro_spawn`, called by `main` or by a coroutine. -/
def Spawns (s : State) (act : Act) (h : SchedId) (fn : Entry) (mem : Option Addr) : Prop :=
  act = .main h fn mem ∧ s.master = .main ∨
    ∃ t co, act = .call t (.spawn h fn mem) ∧ s.running t = some co

/-- What `coro_spawn` does with the memory it asks for. -/
inductive Spawned (s : State) (h : SchedId) (fn : Entry) : Option Addr → State → Prop
  | noMemory : Spawned s h fn none s
  | allocated {a : Addr} {q : Heap SchedId Addr} {r : Registry} (ha : s.coro a = none)
      (hst : Store q (Function.update s.coro a (some ⟨a.cid, fn.start, .ready, some h, false⟩)) r
        (queuesOf (s.hist ++ [.alloc a, .enqueue h a]))) :
      Spawned s h fn (some a) { s with
        queue := q
        coro := Function.update s.coro a (some ⟨a.cid, fn.start, .ready, some h, false⟩)
        registry := r
        hist := s.hist ++ [.alloc a, .enqueue h a] }

/-- `coro_yield` of the coroutine `co`, which runs on the master thread. -/
inductive Yields (s : State) (loc co : Addr) : State → Prop
  | intro {k : Coroutine} {q : Heap SchedId Addr} (hm : s.master = .exec loc co)
      (hk : s.coro co = some k) (hlive : k.status ≠ .exit)
      (hst : Store q (Function.update s.coro co (some { k with status := .ready })) s.registry
        (queuesOf (s.hist ++ [.enqueue .master co]))) :
      Yields s loc co { s with
        queue := q
        coro := Function.update s.coro co (some { k with status := .ready })
        master := .back loc
        hist := s.hist ++ [.enqueue .master co] }

/-- `sched_run_once`, called by the coroutine `co`, which runs on the master thread. -/
inductive RunsOnce (s : State) (loc co : Addr) : State → Prop
  | idle (h : (s.sched .master).stop = true ∨ queuesOf s.hist .master = []) : RunsOnce s loc co s
  | dispatch {k c : Coroutine} {x : Addr} {l : List Addr} {q : Heap SchedId Addr}
      (hk : s.coro co = some k) (hlive : k.status ≠ .exit) (hstop : (s.sched .master).stop = false)
      (hl : queuesOf s.hist .master = x :: l) (hx : s.coro x = some c) (hready : c.status = .ready)
      (hsched : c.sched = some .master) (hxco : x ≠ co)
      (hst : Store q (Function.update s.coro co (some { k with status := .ready })) s.registry
        (queuesOf (s.hist ++ [.pop .master x, .enqueue .master co, .dispatch .master x]))) :
      RunsOnce s loc co { s with
        queue := q
        coro := Function.update s.coro co (some { k with status := .ready })
        sched := Function.update s.sched .master { s.sched .master with currentCoro := some x }
        master := .exec loc x
        hist := s.hist ++ [.pop .master x, .enqueue .master co, .dispatch .master x] }

/-- **The clean steps.** -/
inductive CleanStep (s : State) : Act → State → Prop
  -- spawning
  | spawn {act : Act} {h : SchedId} {fn : Entry} {mem : Option Addr} {s' : State}
      (hact : Spawns s act h fn mem) (hs : Spawned s h fn mem s') : CleanStep s act s'
  | envRun (hm : s.master = .main) :
      CleanStep s .envRun { s with master := .envLock, parallel := .mainLock }
  -- the calls of a running coroutine
  | yield {loc co : Addr} {s' : State} (h : Yields s loc co s') :
      CleanStep s (.call .master .yield) s'
  | exit {loc co : Addr} {k : Coroutine} (hm : s.master = .exec loc co) (hk : s.coro co = some k)
      (hst : Store s.queue (Function.update s.coro co (some { k with status := .exit })) s.registry
        (queuesOf (s.hist ++ [.exit co]))) :
      CleanStep s (.call .master .exit) { s with
        coro := Function.update s.coro co (some { k with status := .exit })
        master := .back loc
        hist := s.hist ++ [.exit co] }
  | runOnce {loc co : Addr} {s' : State} (hm : s.master = .exec loc co) (h : RunsOnce s loc co s') :
      CleanStep s (.call .master .runOnce) s'
  | setNeedParallel {t : SchedId} {co : Addr} {k : Coroutine} {b : Bool}
      (hr : s.running t = some co) (hk : s.coro co = some k) :
      CleanStep s (.call t (.setNeedParallel b)) (s.setCoro co { k with needParallel := b })
  | stays {t : SchedId} : CleanStep s (.call t .switchToParallel) s
  | registerEvent {loc co : Addr} {p : EventPtr} {ev : Event} {event : EventPtr → Event}
      {interest : List (Int × EventPtr)} {s' : State}
      (h : Yields { s with event, interest, hist := s.hist ++ [.await p co] } loc co s') :
      CleanStep s (.call .master (.registerEvent p ev)) s'
  | removeEvent {p : EventPtr} : CleanStep s (.call .master (.removeEvent p)) (removeEvent s p)
  | envStop {t : SchedId} {em : Eventmanager} (hem : s.eventmgr = some em) :
      CleanStep s (.call t .envStop) { (s.setStop .master).setStop .master with
        eventmgr := some { em with stop := true } }
  | transfer {co : Addr} (hp : s.parallel = .exec co) :
      CleanStep s (.call .parallel .transfer) { s with parallel := .toMaster co }
  -- `env_run` and `sched_run`
  | lock (hm : s.master = .envLock) (hmx : s.mutex = none) :
      CleanStep s .master { s with mutex := some .master, master := .envUnlock }
  | unlock (hm : s.master = .envUnlock) :
      CleanStep s .master { s with mutex := none, master := .loop }
  | finish (hm : s.master = .loop)
      (h : (s.sched .master).stop = true ∨ queuesOf s.hist .master = []) :
      CleanStep s .master { s with master := .done }
  | take {x : Addr} {c : Coroutine} {l : List Addr} {q : Heap SchedId Addr} (hm : s.master = .loop)
      (hstop : (s.sched .master).stop = false) (hl : queuesOf s.hist .master = x :: l)
      (hx : s.coro x = some c) (hready : c.status = .ready) (hnp : c.needParallel = true)
      (hst : Store q s.coro s.registry (queuesOf (s.hist ++ [.pop .master x])))
      (hout : Out (s.hist ++ [.pop .master x]) x) :
      CleanStep s .master { s with
        queue := q
        master := .sentTrylock x
        hist := s.hist ++ [.pop .master x] }
  | dispatch {x : Addr} {c : Coroutine} {l : List Addr} {q : Heap SchedId Addr}
      (hm : s.master = .loop) (hstop : (s.sched .master).stop = false)
      (hl : queuesOf s.hist .master = x :: l) (hx : s.coro x = some c) (hready : c.status = .ready)
      (hsched : c.sched = some .master) (hnp : c.needParallel = false)
      (hst : Store q (Function.update s.coro x (some { c with status := .run })) s.registry
        (queuesOf (s.hist ++ [.pop .master x, .dispatch .master x])))
      (hout : Out (s.hist ++ [.pop .master x, .dispatch .master x]) x) :
      CleanStep s .master { s with
        queue := q
        coro := Function.update s.coro x (some { c with status := .run })
        sched := Function.update s.sched .master { s.sched .master with currentCoro := some x }
        master := .exec x x
        hist := s.hist ++ [.pop .master x, .dispatch .master x] }
  | keep {c : Addr} {k : Coroutine} (hm : s.master = .back c) (hk : s.coro c = some k)
      (hlive : k.status ≠ .exit) :
      CleanStep s .master { s with
        sched := Function.update s.sched .master { s.sched .master with currentCoro := none }
        master := .loop }
  | reclaim {c : Addr} {k : Coroutine} {r : Registry} (hm : s.master = .back c)
      (hk : s.coro c = some k) (hexit : k.status = .exit)
      (hst : Store (s.queue.unmap c) (Function.update s.coro c none) r
        (queuesOf (s.hist ++ [.unregister c, .dealloc c]))) :
      CleanStep s .master { s with
        queue := s.queue.unmap c
        coro := Function.update s.coro c none
        registry := r
        sched := Function.update s.sched .master { s.sched .master with currentCoro := none }
        master := .loop
        hist := s.hist ++ [.unregister c, .dealloc c] }
  -- `coro_sent_parallel`
  | locked {c : Addr} (hm : s.master = .sentTrylock c) (hmx : s.mutex = none) :
      CleanStep s .master { s with mutex := some .master, master := .sentInsert c }
  | refused {c : Addr} {k : Coroutine} (hm : s.master = .sentTrylock c) (hk : s.coro c = some k) :
      CleanStep s .master { s.setCoro c { k with sched := some .master } with master := .loop }
  | insert {c : Addr} {k : Coroutine} {q : Heap SchedId Addr} (hm : s.master = .sentInsert c)
      (hk : s.coro c = some k) (hready : k.status = .ready)
      (hst : Store q (Function.update s.coro c (some { k with sched := some .parallel }))
        s.registry (queuesOf (s.hist ++ [.enqueueHead .parallel c]))) :
      CleanStep s .master { s with
        queue := q
        coro := Function.update s.coro c (some { k with sched := some .parallel })
        master := .sentUnlock c
        hist := s.hist ++ [.enqueueHead .parallel c] }
  | unlocked {c : Addr} (hm : s.master = .sentUnlock c) :
      CleanStep s .master { s with mutex := none, master := .readyImm c }
  -- `event_loop`
  | body {loc co : Addr} {k : Coroutine} {pc pc' : EvPc} (hm : s.master = .exec loc co)
      (hk : s.coro co = some k) (hctx : k.ctx = .eventLoop pc) :
      CleanStep s .master (s.setCoro co { k with ctx := .eventLoop pc' })
  | bodyOnce {loc co : Addr} {k : Coroutine} {s' : State} (hm : s.master = .exec loc co)
      (hk : s.coro co = some k) (hctx : k.ctx = .eventLoop .once)
      (h : RunsOnce (s.setCoro co { k with ctx := .eventLoop .wait }) loc co s') :
      CleanStep s .master s'
  | epoll {loc co : Addr} {k : Coroutine} {pc pc' : EvPc} {em : Eventmanager}
      {b : List EpollEvent} (hm : s.master = .exec loc co) (hk : s.coro co = some k)
      (hctx : k.ctx = .eventLoop pc) :
      CleanStep s (.epoll (some b)) { s.setCoro co { k with ctx := .eventLoop pc' } with
        eventmgr := some em }
  -- `parallel_run`
  | move {mutex : Option SchedId} {p : ParallelPc} (hp : s.parallel.holds = none)
      (hp' : p.holds = none) : CleanStep s .parallel { s with mutex, parallel := p }
  | pop {x : Addr} {c : Coroutine} {l : List Addr} {q : Heap SchedId Addr}
      (hp : s.parallel = .check) (hl : queuesOf s.hist .parallel = x :: l)
      (hx : s.coro x = some c) (hready : c.status = .ready) (hsched : c.sched = some .parallel)
      (hst : Store q s.coro s.registry (queuesOf (s.hist ++ [.pop .parallel x])))
      (hout : Out (s.hist ++ [.pop .parallel x]) x) :
      CleanStep s .parallel { s with
        queue := q
        parallel := .switchTo x
        hist := s.hist ++ [.pop .parallel x] }
  | switchTo {co : Addr} (hp : s.parallel = .switchTo co) :
      CleanStep s .parallel { s with
        parallel := .exec co
        hist := s.hist ++ [.dispatch .parallel co] }
  -- `coro_switch_to_master`
  | toMaster {co : Addr} {k : Coroutine} (hp : s.parallel = .toMaster co)
      (hk : s.coro co = some k) :
      CleanStep s .parallel { s.setCoro co { k with sched := some .master } with
        parallel := .sending co }
  | again {co : Addr} (hp : s.parallel = .sending co) :
      CleanStep s (.send .eintr) { s with parallel := .toMaster co }
  | sent {co : Addr} {k : Coroutine} {r : SendResult} {sock : List (BitVec 8)}
      (hp : s.parallel = .sending co) (hk : s.coro co = some k) :
      CleanStep s (.send r) { s.setCoro co { k with sched := some .parallel } with
        sock, parallel := .loop }

variable {s s' : State} {loc co a b c x : Addr} {k : Coroutine} {t h : SchedId} {act : Act}
  {fn : Entry} {mem : Option Addr}

/-! ## 2. The code has no others -/

theorem Coherent.spawnStep_spawned (hs : Coherent s)
    (hstep : spawnStep s h fn mem = some (.ok s')) : Spawned s h fn mem s' := by
  rw [spawnStep] at hstep
  split at hstep
  · rename_i hok
    cases mem with
    | none =>
      obtain rfl : s = s' := by simpa [coroSpawn] using hstep
      exact .noMemory
    | some a =>
      have ha : s.coro a = none := hok.1 a rfl
      obtain ⟨q', r', hcode, hst⟩ := coroSpawn_ok hs.store ha h fn.start
      rw [hcode] at hstep
      simp only [ok_bind, pure_eq_ok, Option.some.injEq, Except.ok.injEq] at hstep
      exact hstep ▸ .allocated ha hst
  · exact absurd hstep (by simp)

/-- `coro_spawn` succeeds. -/
theorem spawnStep_succeeds (hs : Coherent s) {r : Except Fault State}
    (hstep : spawnStep s h fn mem = some r) : ∃ s', r = .ok s' := by
  rw [spawnStep] at hstep
  split at hstep
  · rename_i hok
    cases mem with
    | none => exact ⟨s, by simpa [coroSpawn] using hstep.symm⟩
    | some a =>
      obtain ⟨q', r', hcode, -⟩ := coroSpawn_ok hs.store (hok.1 a rfl) h fn.start
      rw [hcode] at hstep
      exact ⟨_, (Option.some.inj hstep).symm⟩
  · exact absurd hstep (by simp)

theorem Coherent.coroYield_yields (hs : Coherent s) (hm : s.master = .exec loc co)
    (hstep : coroYield s .master (some co) = .ok s') : Yields s loc co s' := by
  obtain ⟨-, ⟨k, hk, hlive, hsched⟩, hout, hcur⟩ := hs.exec hm
  obtain ⟨q', hcode, hst⟩ := coroYield_ok hs.store hm hk hlive hsched hout hcur
  rw [hcode, Except.ok.injEq] at hstep
  subst hstep
  exact .intro hm hk hlive hst

theorem Coherent.schedRunOnce_runs (hs : Coherent s) (hm : s.master = .exec loc co)
    (hstep : schedRunOnce s = .ok s') : RunsOnce s loc co s' := by
  obtain ⟨-, ⟨k, hk, hlive, hsched⟩, hout, hcur⟩ := hs.exec hm
  by_cases hidle : (s.sched .master).stop = true ∨ queuesOf s.hist .master = []
  · rw [schedRunOnce_idle hs.store hidle, Except.ok.injEq] at hstep
    exact hstep ▸ .idle hidle
  · rw [not_or, Bool.not_eq_true] at hidle
    obtain ⟨hstop, hne⟩ := hidle
    obtain ⟨x, l, hl⟩ := List.exists_cons_of_ne_nil hne
    have hxin : x ∈ queuesOf s.hist .master := hl ▸ List.mem_cons_self
    obtain ⟨c, hx, hready, hxs⟩ := hs.store.queued _ x hxin
    obtain ⟨hfail, hgo⟩ := schedRunOnce_ok hs.store hm hk hlive hsched hout hcur hstop hl hx
    cases hnp : c.needParallel with
    | true =>
      rw [hfail hnp] at hstep
      exact absurd hstep (by simp)
    | false =>
      obtain ⟨q', hcode, hst⟩ := hgo hnp
      rw [hcode, Except.ok.injEq] at hstep
      subst hstep
      refine .dispatch hk hlive hstop hl hx hready hxs ?_ hst
      rintro rfl
      exact hout _ hxin

/-- Only the running coroutine passes the assertion of `coro_yield`. -/
theorem coroYield_cur (hs : Coherent s) (hm : s.master = .exec loc co)
    (hstep : coroYield s .master (some x) = .ok s') : x = co := by
  obtain ⟨-, -, -, hcur⟩ := hs.exec hm
  simp only [coroYield, Option.isSome_some, ASSERT_true, ok_bind, deref_some, bind_eq_ok] at hstep
  obtain ⟨k, -, h, -, u, hassert, -⟩ := hstep
  rw [ASSERT_eq_ok, decide_eq_true_eq] at hassert
  cases h with
  | master => exact Option.some.inj (hassert.trans hcur)
  | parallel =>
    rw [hs.parallelCur] at hassert
    exact absurd hassert (by simp)

/-- **`register_event`** is `coro_yield` of the running coroutine, after some bookkeeping. -/
theorem registerEvent_inv {p : EventPtr} (hstep : registerEvent s .master p = .ok s') :
    ∃ ev int x, coroYield { s with
      event := ev, interest := int, hist := s.hist ++ [.await p x] } .master (some x) = .ok s' := by
  simp only [registerEvent, bind_eq_ok] at hstep
  obtain ⟨-, -, -, -, -, -, x, -, hy⟩ := hstep
  exact ⟨_, _, x, hy⟩

/-- **A clean call of a running coroutine.** -/
theorem Coherent.call_cleanStep (hs : Coherent s) (hr : s.running t = some co) {n : Call}
    (hclean : Clean s (.call t n)) (hstep : callStep s t co n = some (.ok s')) :
    CleanStep s (.call t n) s' := by
  cases n with
  | spawn h fn mem => exact .spawn (Or.inr ⟨t, co, rfl, hr⟩) (hs.spawnStep_spawned hstep)
  | yield =>
    simp only [callStep, Option.some.injEq] at hstep
    cases t with
    | master =>
      obtain ⟨loc, hm⟩ := running_master hr
      exact .yield (hs.coroYield_yields hm hstep)
    | parallel =>
      obtain ⟨⟨k, hk, -, hsched⟩, -⟩ := hs.parallelExec (running_parallel hr)
      rw [coroYield_parallel hk hsched hs.parallelCur] at hstep
      exact absurd hstep (by simp)
  | exit =>
    simp only [callStep, Option.some.injEq] at hstep
    cases t with
    | master =>
      obtain ⟨loc, hm⟩ := running_master hr
      obtain ⟨-, ⟨k, hk, -, hsched⟩, hout, hcur⟩ := hs.exec hm
      obtain ⟨hcode, hst⟩ := coroExit_ok hs.store hm hk hsched hout hcur
      rw [hcode, Except.ok.injEq] at hstep
      subst hstep
      exact .exit hm hk hst
    | parallel =>
      obtain ⟨⟨k, hk, -, hsched⟩, -⟩ := hs.parallelExec (running_parallel hr)
      rw [coroExit_parallel hk hsched hs.parallelCur] at hstep
      exact absurd hstep (by simp)
  | runOnce =>
    cases t with
    | master =>
      obtain ⟨loc, hm⟩ := running_master hr
      exact .runOnce hm (hs.schedRunOnce_runs hm (by simpa [callStep] using hstep))
    | parallel => simp [callStep] at hstep
  | setNeedParallel b =>
    simp only [callStep, Option.some.injEq, bind_eq_ok] at hstep
    obtain ⟨k, hk, hset⟩ := hstep
    rw [pure_eq_ok, Except.ok.injEq] at hset
    subst hset
    exact .setNeedParallel hr (load_eq_ok.mp hk)
  | switchToParallel =>
    simp only [callStep, Option.some.injEq, coroSwitchToParallel, Option.isSome_some, ASSERT_true,
      ok_bind, deref_some, bind_eq_ok] at hstep
    obtain ⟨⟨s₁, rs⟩, ⟨k, hk, hrest⟩, hset⟩ := hstep
    have hnp : k.needParallel = false := hclean k (runningCoro_some hr (load_eq_ok.mp hk))
    simp only [hnp, Bool.not_false, if_true, pure_eq_ok, Except.ok.injEq, Prod.mk.injEq]
      at hrest hset
    obtain rfl : s = s' := hrest.1.trans hset
    exact .stays
  | registerEvent p ev =>
    cases t with
    | master =>
      obtain ⟨loc, hm⟩ := running_master hr
      simp only [callStep, if_true, Option.some.injEq] at hstep
      obtain ⟨ev', int, x, hy⟩ := registerEvent_inv hstep
      have hs₁ : Coherent { s with
          event := ev', interest := int, hist := s.hist ++ [.await p x] } :=
        hs.quiet rfl rfl rfl (queuesOf_snoc _ _) rfl rfl fun _ => rfl
      obtain rfl := coroYield_cur hs₁ hm hy
      exact .registerEvent (hs₁.coroYield_yields hm hy)
    | parallel => simp [callStep] at hstep
  | removeEvent p =>
    cases t with
    | master =>
      simp only [callStep, if_true, pure_eq_ok, Option.some.injEq, Except.ok.injEq] at hstep
      subst hstep
      exact .removeEvent
    | parallel => simp [callStep] at hstep
  | envStop =>
    simp only [callStep, Option.some.injEq, envStop, bind_eq_ok] at hstep
    obtain ⟨em, hem, hset⟩ := hstep
    rw [pure_eq_ok, Except.ok.injEq] at hset
    subst hset
    exact .envStop (deref_eq_ok.mp hem)
  | transfer =>
    cases t with
    | master => simp [callStep] at hstep
    | parallel =>
      have hp := running_parallel hr
      simp only [callStep, if_true, Option.some.injEq, bind_eq_ok] at hstep
      obtain ⟨k, -, h, -, hswitch⟩ := hstep
      obtain ⟨-, ⟨ht, -⟩ | ⟨-, x, hx, rfl⟩⟩ := switchToSched_inv hswitch
      · exact absurd ht (by simp)
      · obtain rfl : co = x := by simpa [hp] using hx
        exact .transfer hp

/-- **A clean step of the framework code on the master thread.** -/
theorem Coherent.master_cleanStep (hs : Coherent s) (hclean : Clean s .master)
    (hstep : masterStep s = some (.ok s')) : CleanStep s .master s' := by
  have hms := hs.master
  rw [MasterOk] at hms
  rw [masterStep] at hstep
  cases hm : s.master with
  | main | done => simp [hm] at hstep
  | envLock =>
    simp only [hm] at hstep
    split at hstep
    · rename_i hmx
      simp only [pure_eq_ok, Option.some.injEq, Except.ok.injEq] at hstep
      exact hstep ▸ .lock hm hmx
    · exact absurd hstep (by simp)
  | envUnlock =>
    simp only [hm, pure_eq_ok, Option.some.injEq, Except.ok.injEq] at hstep
    exact hstep ▸ .unlock hm
  | loop =>
    simp only [hm, Option.some.injEq] at hstep
    obtain ⟨hidle, hcode⟩ | ⟨x, l, c, q', hstop, hl, hx, hready, hsched,
      ⟨hnp, hcode, hst, hout⟩ | ⟨hnp, hcode, hst, hout⟩⟩ := schedRun_cases hs.store
    all_goals
      rw [hcode, Except.ok.injEq] at hstep
      subst hstep
    · exact .finish hm hidle
    · exact .take hm hstop hl hx hready hnp hst hout
    · exact .dispatch hm hstop hl hx hready hsched hnp hst hout
  | sentTrylock c =>
    simp only [hm] at hstep hms
    obtain ⟨⟨k, hk, hready, hnp⟩, hout, hcur⟩ := hms
    cases hmx : s.mutex with
    | none =>
      simp [coroSentParallel, load_some hk, hnp, hmx] at hstep
      exact hstep ▸ .locked hm hmx
    | some o =>
      have hback : CleanStep s .master _ := .refused hm hk
      simp [coroSentParallel, load_some hk, hnp, hmx] at hstep
      rw [hnp] at hback
      exact hstep ▸ hback
  | sentInsert c =>
    simp only [hm] at hstep hms
    obtain ⟨⟨k, hk, hready, hnp⟩, hout, hcur⟩ := hms
    have hstore : Store s.queue
        (Function.update s.coro c (some { k with sched := some .parallel })) s.registry
        (queuesOf s.hist) := hs.store.setCoro hk rfl fun h hq => absurd hq (hout h)
    obtain ⟨q', hcode, hst⟩ := insertHead_ok (h := .parallel)
      (s := s.setCoro c { k with sched := some .parallel }) hstore (Function.update_self _ _ _)
      hready rfl hout
    simp only [coroSentParallelInsert, load_some hk, ok_bind, hcode, pure_eq_ok, Option.some.injEq,
      Except.ok.injEq] at hstep
    exact hstep ▸ .insert hm hk hready hst
  | sentUnlock c =>
    simp only [hm, pure_eq_ok, Option.some.injEq, Except.ok.injEq] at hstep
    exact hstep ▸ .unlocked hm
  | readyImm c =>
    simp only [hm] at hstep hms
    obtain ⟨⟨k, hk, hready⟩, -⟩ := hms
    rw [coroReadyImmediatly_ready hk hready] at hstep
    exact absurd hstep (by simp)
  | exec loc co =>
    obtain ⟨-, ⟨k, hk, -⟩, -⟩ := hs.exec hm
    simp only [hm, hk] at hstep
    cases hctx : k.ctx with
    | user => simp [hctx] at hstep
    | eventLoop pc =>
      simp only [hctx, eventLoopRun] at hstep
      cases hem : s.eventmgr with
      | none => simp [hem] at hstep
      | some em =>
        simp only [hem] at hstep
        cases pc with
        | poll | wait => simp [eventLoopStep] at hstep
        | test =>
          by_cases hst : em.stop = true
          · simp [eventLoopStep, hst] at hstep
          · by_cases hh : schedHasTask s = true
            all_goals
              simp [eventLoopStep, hst, hh] at hstep
              exact hstep ▸ .body hm hk hctx
        | each i nsd =>
          have hr : s.running .master = some co := by rw [State.running, hm]
          have hle : ¬ i < nsd := by
            simpa [hctx, Body.delivers] using hclean k (runningCoro_some hr hk)
          simp [eventLoopStep, hle] at hstep
          exact hstep ▸ .body hm hk hctx
        | once =>
          simp only [eventLoopStep, Option.some.injEq] at hstep
          exact .bodyOnce hm hk hctx ((hs.goesInBody hm hk).schedRunOnce_runs hm hstep)
  | back c =>
    simp only [hm, Option.some.injEq] at hstep hms
    obtain ⟨k, hk⟩ := hms
    by_cases hexit : k.status = .exit
    · have hout : Out s.hist c := by
        intro h hq
        obtain ⟨k', hk', hr, -⟩ := hs.store.queued h c hq
        obtain rfl : k = k' := Option.some.inj (hk.symm.trans hk')
        exact absurd (hexit.symm.trans hr) (by simp)
      obtain ⟨r', hcode, hst⟩ := schedRunBack_exit hs.store hk hexit hout
      rw [hcode, Except.ok.injEq] at hstep
      exact hstep ▸ .reclaim hm hk hexit hst
    · rw [schedRunBack_live hk hexit, Except.ok.injEq] at hstep
      exact hstep ▸ .keep hm hk hexit

/-- **A step of the framework code on the parallel thread.** -/
theorem Coherent.parallel_cleanStep (hs : Coherent s) (hstep : parallelStep s = some (.ok s')) :
    CleanStep s .parallel s' := by
  rw [parallelStep] at hstep
  cases hp : s.parallel with
  | notStarted | exec | sending | done => simp [hp] at hstep
  | mainLock | loop | trylock =>
    simp only [hp] at hstep
    split at hstep <;> simp only [pure_eq_ok, Option.some.injEq, Except.ok.injEq,
      reduceCtorEq] at hstep
    all_goals exact hstep ▸ .move (by rw [hp]; rfl) rfl
  | mainUnlock | sleep =>
    simp only [hp, pure_eq_ok, Option.some.injEq, Except.ok.injEq] at hstep
    exact hstep ▸ .move (by rw [hp]; rfl) rfl
  | check =>
    simp only [hp, empty_eq hs.store] at hstep
    cases hl : queuesOf s.hist .parallel with
    | nil =>
      simp only [hl, List.isEmpty_nil, if_true, pure_eq_ok, Option.some.injEq,
        Except.ok.injEq] at hstep
      exact hstep ▸ .move (by rw [hp]; rfl) rfl
    | cons x l =>
      obtain ⟨q', hpop, hst, hout, c, hx, hready, hsched⟩ := pop_cons hs.store hl
      simp [hl, hpop] at hstep
      exact hstep ▸ .pop hp hl hx hready hsched hst hout
  | switchTo co =>
    simp only [hp, Option.some.injEq, bind_eq_ok] at hstep
    obtain ⟨k, -, hset⟩ := hstep
    simp only [pure_eq_ok, Except.ok.injEq] at hset
    exact hset ▸ .switchTo hp
  | toMaster co =>
    simp only [hp, Option.some.injEq, bind_eq_ok] at hstep
    obtain ⟨k, hk, hset⟩ := hstep
    simp only [pure_eq_ok, Except.ok.injEq] at hset
    exact hset ▸ .toMaster hp (load_eq_ok.mp hk)

/-- **The end of `coro_switch_to_master`**: no count of bytes is the size of the whole structure,
so the owner is set back. -/
theorem send_cleanStep {r : SendResult} (hstep : sendStep s r = some (.ok s')) :
    CleanStep s (.send r) s' := by
  rw [sendStep] at hstep
  split at hstep
  · rename_i co hp
    split at hstep
    · rename_i hr
      simp only [Option.some.injEq, bind_eq_ok, coroSwitchToMaster] at hstep
      obtain ⟨⟨s₁, rs⟩, ⟨k, hk, hsend⟩, hset⟩ := hstep
      have hk := load_eq_ok.mp hk
      cases r with
      | eintr =>
        simp only [pure_eq_ok, Except.ok.injEq, Prod.mk.injEq] at hsend
        obtain ⟨rfl, rfl⟩ := hsend
        simp only [pure_eq_ok, Except.ok.injEq] at hset
        exact hset ▸ .again hp
      | fail =>
        simp only [pure_eq_ok, Except.ok.injEq, Prod.mk.injEq] at hsend
        obtain ⟨rfl, rfl⟩ := hsend
        simp only [pure_eq_ok, Except.ok.injEq] at hset
        exact hset ▸ .sent hp hk
      | sent n =>
        have hne : n ≠ sizeofCoroutine := by
          have hle : 0 < n ∧ n ≤ sizeofPtr := of_decide_eq_true hr
          have : sizeofPtr < sizeofCoroutine := by decide
          omega
        simp only [ne_eq, hne, not_false_eq_true, if_true, pure_eq_ok, Except.ok.injEq,
          Prod.mk.injEq] at hsend
        obtain ⟨rfl, rfl⟩ := hsend
        simp only [pure_eq_ok, Except.ok.injEq] at hset
        exact hset ▸ .sent hp hk
    · exact absurd hstep (by simp)
  · exact absurd hstep (by simp)

/-- **A return of `epoll_wait`.** -/
theorem epoll_cleanStep {r : Option (List EpollEvent)} (hstep : step s (.epoll r) = some (.ok s')) :
    CleanStep s (.epoll r) s' := by
  simp only [step] at hstep
  split at hstep
  · rename_i loc co hm
    split at hstep
    · rename_i cid pc status sched np hk
      unfold eventLoopEpoll at hstep
      split at hstep
      · exact absurd hstep (by simp)
      · split at hstep
        · exact absurd hstep (by simp)
        · split at hstep
          · simp only [pure_eq_ok, Option.some.injEq, Except.ok.injEq] at hstep
            exact hstep ▸ .epoll hm hk rfl
          · exact absurd hstep (by simp)
      · split at hstep <;> exact absurd hstep (by simp)
    · exact absurd hstep (by simp)
  · exact absurd hstep (by simp)

/-- **The clean steps of a coherent state are those of the list.** -/
theorem Coherent.cleanStep (hs : Coherent s) (hclean : Clean s act)
    (hstep : step s act = some (.ok s')) : CleanStep s act s' := by
  cases act with
  | main h fn mem =>
    simp only [step] at hstep
    split at hstep
    · rename_i hm
      exact .spawn (Or.inl ⟨rfl, hm⟩) (hs.spawnStep_spawned hstep)
    · exact absurd hstep (by simp)
  | envRun =>
    simp only [step] at hstep
    split at hstep
    · rename_i hm
      simp only [pure_eq_ok, Option.some.injEq, Except.ok.injEq] at hstep
      exact hstep ▸ .envRun hm
    · exact absurd hstep (by simp)
  | call t n =>
    simp only [step] at hstep
    split at hstep
    · exact absurd hstep (by simp)
    · rename_i co hr
      split at hstep
      · exact absurd hstep (by simp)
      · split at hstep
        · exact hs.call_cleanStep hr hclean hstep
        · exact absurd hstep (by simp)
  | master => exact hs.master_cleanStep hclean hstep
  | parallel => exact hs.parallel_cleanStep hstep
  | send r => exact send_cleanStep hstep
  | epoll r => exact epoll_cleanStep hstep

/-! ## 3. The invariant -/

theorem Coherent.masterOk (hs : Coherent s) {m : MasterPc} (hm : s.master = m) :
    MasterOk { s with master := m } := by
  rw [← hm]
  exact hs.master

/-- The master thread goes on, and takes nothing. -/
theorem Coherent.goesOn (hs : Coherent s) {mutex : Option SchedId} {m : MasterPc}
    (hm : MasterOk { s with mutex, master := m })
    (hheld : ∀ b, m.holds = some b → s.master.holds = some b) :
    Coherent { s with mutex, master := m } :=
  hs.ofMaster rfl rfl hs.store hm fun b hb => ⟨rfl, id, fun hb' => hs.apart b hb (hheld b hb')⟩

/-- What the parallel thread holds is not what the master thread takes out of a queue. -/
theorem Coherent.apart_queued (hs : Coherent s) (hx : x ∈ queuesOf s.hist h)
    (hb : s.parallel.holds = some b) : b ≠ x := by
  rintro rfl
  exact (hs.parallel.held hb).2 _ hx

theorem Coherent.apart_exec (hs : Coherent s) (hm : s.master.holds = some c)
    (hb : s.parallel.holds = some b) : b ≠ c := by
  rintro rfl
  exact hs.apart b hb hm

/-- A coroutine that appears in unused memory is none of those the threads hold. -/
theorem Coherent.spawned (hs : Coherent s) (h' : Spawned s h fn mem s') : Coherent s' := by
  cases h' with
  | noMemory => exact hs
  | @allocated a q r ha hst =>
    have hne : ∀ {b k}, s.coro b = some k → b ≠ a := by
      rintro b k hk rfl
      rw [ha] at hk
      exact absurd hk (by simp)
    have hout : ∀ {b}, b ≠ a → Out s.hist b → Out (s.hist ++ [.alloc a, .enqueue h a]) b :=
      fun hb ho => ho.append (by simp [hb])
    refine ⟨hst, hs.master.frame rfl rfl (fun b k hk => ?_) (fun b hb => ?_),
      hs.parallel.frame rfl (fun b hb => ?_), hs.apart, hs.parallelCur⟩
    · exact ⟨k, (Function.update_of_ne (hne hk) _ _).trans hk, rfl⟩
    · obtain ⟨⟨k, hk⟩, -⟩ := hs.master.held hb
      exact ⟨Function.update_of_ne (hne hk) _ _, hout (hne hk)⟩
    · obtain ⟨⟨k, hk, -⟩, -⟩ := hs.parallel.held hb
      exact ⟨Function.update_of_ne (hne hk) _ _, hout (hne hk)⟩

/-- The coroutine `sched_run` has dispatched is still there when another one is overwritten. -/
theorem Coherent.loc_update (hs : Coherent s) (hm : s.master = .exec loc co) (m : Coroutine) :
    ∃ k, Function.update s.coro co (some m) loc = some k := by
  obtain ⟨⟨k, hk⟩, -⟩ := hs.exec hm
  by_cases hl : loc = co
  · subst hl
    exact ⟨m, Function.update_self _ _ _⟩
  · exact ⟨k, (Function.update_of_ne hl _ _).trans hk⟩

/-- The coroutine that runs on the master thread gives up control, by `coro_yield`. -/
theorem Coherent.yields (hs : Coherent s) (h : Yields s loc co s') : Coherent s' := by
  obtain ⟨hm, hk, hlive, hst⟩ := h
  refine hs.ofMaster rfl rfl hst (hs.loc_update hm _) fun b hb => ?_
  have hbco : b ≠ co := hs.apart_exec (by rw [hm]; rfl) hb
  exact ⟨Function.update_of_ne hbco _ _, fun ho => ho.append (by simp [hbco]),
    by simp [MasterPc.holds]⟩

/-- The coroutine that runs on the master thread gives up control, by `coro_exit`. -/
theorem Coherent.exits (hs : Coherent s) (hm : s.master = .exec loc co)
    (hst : Store s.queue (Function.update s.coro co (some { k with status := .exit })) s.registry
      (queuesOf (s.hist ++ [.exit co]))) :
    Coherent { s with
      coro := Function.update s.coro co (some { k with status := .exit })
      master := .back loc
      hist := s.hist ++ [.exit co] } := by
  refine hs.ofMaster rfl rfl hst (hs.loc_update hm _) fun b hb => ?_
  have hbco : b ≠ co := hs.apart_exec (by rw [hm]; rfl) hb
  exact ⟨Function.update_of_ne hbco _ _, fun ho => ho.append (by simp), by simp [MasterPc.holds]⟩

/-- The coroutine that runs on the master thread calls `sched_run_once`. -/
theorem Coherent.runsOnce (hs : Coherent s) (hm : s.master = .exec loc co)
    (h : RunsOnce s loc co s') : Coherent s' := by
  cases h with
  | idle => exact hs
  | @dispatch k c x l q hk hlive hstop hl hx hready hsched hxco hst =>
    have hxin : x ∈ queuesOf s.hist .master := hl ▸ List.mem_cons_self
    obtain ⟨-, -, -, hxout, -⟩ := pop_cons hs.store hl
    refine hs.ofMaster rfl (by simp [Function.update]) hst ?_ fun b hb => ?_
    · refine ⟨hs.loc_update hm _, ⟨c, (Function.update_of_ne hxco _ _).trans hx, by simp [hready],
        hsched⟩, ?_, by simp⟩
      have hnew : Out ((s.hist ++ [.pop .master x]) ++
          [.enqueue .master co, .dispatch .master x]) x := Out.append hxout (by simp [hxco])
      simpa using hnew
    · have hbco : b ≠ co := hs.apart_exec (by rw [hm]; rfl) hb
      exact ⟨Function.update_of_ne hbco _ _, fun ho => ho.append (by simp [hbco]),
        by simpa [MasterPc.holds] using (hs.apart_queued hxin hb).symm⟩

/-- The owner of the coroutine that the parallel thread holds changes, and nothing else of it. -/
theorem Coherent.setOwner (hs : Coherent s) (hp : s.parallel.holds = some co)
    (hk : s.coro co = some k) {sched : Option SchedId} {sock : List (BitVec 8)} {p : ParallelPc}
    (hp' : ∀ b, p.holds = some b → b = co)
    (hpar : ParallelOk { s.setCoro co { k with sched } with sock, parallel := p }) :
    Coherent { s.setCoro co { k with sched } with sock, parallel := p } := by
  obtain ⟨-, hout⟩ := hs.parallel.held hp
  have hne : ∀ {b}, s.master.holds = some b → b ≠ co := fun hb hbc =>
    hs.apart co hp (hbc ▸ hb)
  refine hs.ofParallel rfl rfl (hs.store.setCoro hk rfl fun h hq => absurd hq (hout h)) hpar
    (fun b c hc => ?_) fun b hb => ?_
  · by_cases hbc : b = co
    · subst hbc
      obtain rfl : k = c := Option.some.inj (hk.symm.trans hc)
      exact ⟨_, Function.update_self _ _ _, rfl⟩
    · exact ⟨c, (Function.update_of_ne hbc _ _).trans hc, rfl⟩
  · exact ⟨Function.update_of_ne (hne hb) _ _, id, fun hb' => hne hb (hp' b hb')⟩

/-- The parallel thread goes on with the coroutine it holds, or with none. -/
theorem Coherent.parallelGoesOn (hs : Coherent s) {mutex : Option SchedId} {p : ParallelPc}
    {hist : List Obs} (hq : queuesOf hist = queuesOf s.hist)
    (hpar : ParallelOk { s with mutex, parallel := p, hist })
    (hheld : ∀ b, p.holds = some b → s.parallel.holds = some b) :
    Coherent { s with mutex, parallel := p, hist } := by
  refine hs.ofParallel rfl rfl (hq ▸ hs.store) hpar (fun b c hc => ⟨c, hc, rfl⟩) fun b hb => ?_
  refine ⟨rfl, fun ho => ?_, fun hb' => hs.apart b (hheld b hb') hb⟩
  exact fun h => hq ▸ ho h

/-- **Every clean step keeps the invariant.** -/
theorem Coherent.step (hs : Coherent s) {a : Act} (hclean : Clean s a)
    (hstep : step s a = some (.ok s')) : Coherent s' := by
  cases hs.cleanStep hclean hstep with
  | stays => exact hs
  | spawn _ h => exact hs.spawned h
  | envRun hm =>
    exact ⟨hs.store, hs.masterOk hm, trivial, by simp [ParallelPc.holds], hs.parallelCur⟩
  | yield h => exact hs.yields h
  | exit hm _ hst => exact hs.exits hm hst
  | runOnce hm h => exact hs.runsOnce hm h
  | @setNeedParallel t co k b hr hk =>
    refine hs.setOwn hk rfl rfl rfl fun hx => ?_
    cases t with
    | master => exact running_master hr
    | parallel => exact absurd hx (hs.apart co (by rw [running_parallel hr]; rfl))
  | @registerEvent loc co p _ event interest _ h =>
    have hawait : Coherent { s with event, interest, hist := s.hist ++ [.await p co] } :=
      hs.quiet rfl rfl rfl (queuesOf_snoc _ _) rfl rfl fun _ => rfl
    exact hawait.yields h
  | removeEvent => exact hs.quiet rfl rfl rfl rfl rfl rfl fun _ => rfl
  | envStop =>
    refine hs.quiet rfl rfl rfl rfl rfl rfl fun h => ?_
    cases h <;> simp [State.setStop]
  | @transfer co hp =>
    have hheld : s.parallel.holds = some co := by rw [hp]; rfl
    refine hs.parallelGoesOn rfl (hs.parallel.held hheld) fun b hb => ?_
    rw [hp]
    exact hb
  | lock hm | unlock hm | finish hm | unlocked hm =>
    have hok := hs.masterOk hm
    exact hs.goesOn hok (by simp [MasterPc.holds])
  | @take x c l q hm hstop hl hx hready hnp hst hout =>
    refine hs.ofMaster rfl rfl hst ⟨⟨c, hx, hready, hnp⟩, hout, hs.masterOk hm⟩ fun b hb => ?_
    exact ⟨rfl, fun ho => ho.append (by simp),
      by simpa [MasterPc.holds] using (hs.apart_queued (hl ▸ List.mem_cons_self) hb).symm⟩
  | @dispatch x c l q hm hstop hl hx hready hsched hnp hst hout =>
    have hself : Function.update s.coro x (some { c with status := .run }) x =
        some { c with status := .run } := Function.update_self _ _ _
    refine hs.ofMaster rfl (by simp [Function.update]) hst
      ⟨⟨_, hself⟩, ⟨_, hself, by simp, hsched⟩, hout, by simp⟩ fun b hb => ?_
    have hbx : b ≠ x := hs.apart_queued (hl ▸ List.mem_cons_self) hb
    exact ⟨Function.update_of_ne hbx _ _, fun ho => ho.append (by simp),
      by simpa [MasterPc.holds] using hbx.symm⟩
  | keep =>
    exact hs.ofMaster rfl (by simp [Function.update]) hs.store (by simp [MasterOk])
      fun b _ => ⟨rfl, id, by simp [MasterPc.holds]⟩
  | @reclaim c k r hm hk hexit hst =>
    refine hs.ofMaster rfl (by simp [Function.update]) hst (by simp [MasterOk]) fun b hb => ?_
    have hbc : b ≠ c := by
      rintro rfl
      obtain ⟨⟨k', hk', hr⟩, -⟩ := hs.parallel.held hb
      obtain rfl : k = k' := Option.some.inj (hk.symm.trans hk')
      exact absurd (hexit.symm.trans hr) (by simp)
    exact ⟨Function.update_of_ne hbc _ _, fun ho => ho.append (by simp), by simp [MasterPc.holds]⟩
  | locked hm =>
    refine hs.goesOn (hs.masterOk hm) fun b hb => ?_
    rw [hm]
    exact hb
  | @refused c k hm hk =>
    have hheld : s.master.holds = some c := by rw [hm]; rfl
    obtain ⟨-, hout, hcur⟩ := hs.masterOk hm
    refine hs.ofMaster rfl rfl (hs.store.setCoro hk rfl fun h hq => absurd hq (hout h)) hcur
      fun b hb => ?_
    exact ⟨Function.update_of_ne (hs.apart_exec hheld hb) _ _, id, by simp [MasterPc.holds]⟩
  | @insert c k q hm hk hready hst =>
    have hheld : s.master.holds = some c := by rw [hm]; rfl
    obtain ⟨-, -, hcur⟩ := hs.masterOk hm
    refine hs.ofMaster rfl rfl hst ⟨⟨_, Function.update_self _ _ _, hready⟩, hcur⟩ fun b hb => ?_
    have hbc : b ≠ c := hs.apart_exec hheld hb
    exact ⟨Function.update_of_ne hbc _ _, fun ho => ho.append (by simp [hbc]),
      by simp [MasterPc.holds]⟩
  | body hm hk hctx => exact hs.goesInBody hm hk
  | bodyOnce hm hk hctx h => exact (hs.goesInBody hm hk).runsOnce hm h
  | epoll hm hk hctx =>
    exact (hs.goesInBody hm hk).quiet rfl rfl rfl rfl rfl rfl fun _ => rfl
  | @move mutex p hp hp' =>
    refine hs.parallelGoesOn rfl ?_ (by simp [hp'])
    cases p <;> trivial
  | @pop x c l q hp hl hx hready hsched hst hout =>
    refine hs.ofParallel rfl rfl hst ⟨⟨c, hx, hready, hsched⟩, hout⟩ (fun b c hc => ⟨c, hc, rfl⟩)
      fun b hb => ⟨rfl, fun ho => ho.append (by simp), ?_⟩
    simp only [ParallelPc.holds, ne_eq, Option.some.injEq]
    rintro rfl
    exact (hs.master.held hb).2 _ (hl ▸ List.mem_cons_self)
  | @switchTo co hp =>
    have hps := hs.parallel
    rw [ParallelOk, hp] at hps
    refine hs.parallelGoesOn (queuesOf_snoc _ _) ⟨hps.1, hps.2.append (by simp)⟩ fun b hb => ?_
    rw [hp]
    exact hb
  | @toMaster co k hp hk =>
    have hheld : s.parallel.holds = some co := by rw [hp]; rfl
    obtain ⟨⟨k', hk', hready⟩, hout⟩ := hs.parallel.held hheld
    obtain rfl : k = k' := Option.some.inj (hk.symm.trans hk')
    exact hs.setOwner hheld hk (by simp [ParallelPc.holds])
      ⟨⟨_, Function.update_self _ _ _, hready⟩, hout⟩
  | @again co hp =>
    have hheld : s.parallel.holds = some co := by rw [hp]; rfl
    refine hs.parallelGoesOn rfl (hs.parallel.held hheld) fun b hb => ?_
    rw [hp]
    exact hb
  | sent hp hk => exact hs.setOwner (by rw [hp]; rfl) hk (by simp [ParallelPc.holds]) trivial

/-- **The invariant holds after `env_init`.** -/
theorem Coherent.boot (em : Option Eventmanager) : Coherent (State.boot em) := by
  have hL : queuesOf (State.boot em).hist = fun _ => [] := rfl
  refine ⟨⟨⟨fun h => rfl, fun h => ?_, fun h => ?_, by simp [hL], by simp [hL], by simp [State.boot,
    Tailq.Heap.init, Tailq.Heap.setFirst, Tailq.Heap.setLast]⟩, ?_, by simp [hL], ?_, ?_⟩,
    rfl, trivial, by simp [State.boot, ParallelPc.holds], rfl⟩
  · cases h <;> simp [State.boot, Tailq.Heap.init, Tailq.Heap.val, Tailq.Heap.setFirst,
      Tailq.Heap.setLast]
  · cases h <;> simp [State.boot, Tailq.Heap.init, Tailq.Heap.setFirst, Tailq.Heap.setLast,
      Function.update]
  · simp [State.boot, Tailq.Heap.init, Tailq.Heap.setFirst, Tailq.Heap.setLast]
  · have : {a | (State.boot em).coro a ≠ none} = ∅ := by
      ext a
      simp [State.boot]
    rw [this]
    exact RegOk.init _
  · simp [State.boot]

/-- **Every clean run keeps the invariant.** -/
theorem Coherent.run (hs : Coherent s) {as : List Act}
    (h : Machine.Run Corosched.step Clean s as s') :
    Coherent s' :=
  h.inv (fun _ _ _ hi hc hstep => hi.step hc hstep) hs

end Corosched
