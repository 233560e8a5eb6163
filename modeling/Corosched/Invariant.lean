/-
# The coherence invariant

`Coherent` ties the memory to the places where the two threads stand: which coroutine each of them
has taken out of the queues, in which state it is, and who is recorded as running.  It holds at
the start and every `Clean` step keeps it.  Two steps are not clean, as they may link a coroutine
that is linked already: `coro_switch_to_parallel` by a marked coroutine, and any call of
`event_callback`.
-/
import Corosched.Coherence

namespace Corosched

open State

/-! ## 1. What the threads hold -/

/-- The coroutine the master thread has taken out of the queues. -/
def MasterPc.holds : MasterPc → Option Addr
  | .exec _ co => some co
  | .sentTrylock c => some c
  | .sentInsert c => some c
  | _ => none

/-- The coroutine the parallel thread has taken out of the queues. -/
def ParallelPc.holds : ParallelPc → Option Addr
  | .switchTo co => some co
  | .exec co => some co
  | .toMaster co => some co
  | .sending co => some co
  | _ => none

/-- What is true where the master thread stands. -/
def MasterOk (s : State) : Prop :=
  match s.master with
  | .exec loc co =>
    (∃ k, s.coro loc = some k) ∧
      (∃ k, s.coro co = some k ∧ k.status ≠ .exit ∧ k.sched = some .master) ∧ Out s.hist co ∧
      (s.sched .master).currentCoro = some co
  | .back loc => ∃ k, s.coro loc = some k
  | .sentTrylock c | .sentInsert c =>
    (∃ k, s.coro c = some k ∧ k.status = .ready ∧ k.needParallel = true) ∧ Out s.hist c ∧
      (s.sched .master).currentCoro = none
  | .sentUnlock c | .readyImm c =>
    (∃ k, s.coro c = some k ∧ k.status = .ready) ∧ (s.sched .master).currentCoro = none
  | _ => (s.sched .master).currentCoro = none

/-- What is true where the parallel thread stands. -/
def ParallelOk (s : State) : Prop :=
  match s.parallel with
  | .switchTo co | .exec co =>
    (∃ k, s.coro co = some k ∧ k.status = .ready ∧ k.sched = some .parallel) ∧ Out s.hist co
  | .toMaster co | .sending co => (∃ k, s.coro co = some k ∧ k.status = .ready) ∧ Out s.hist co
  | _ => True

/-- **The coherence invariant.** -/
structure Coherent (s : State) : Prop where
  store : Store s.queue s.coro s.registry (queuesOf s.hist)
  master : MasterOk s
  parallel : ParallelOk s
  apart : ∀ b, s.parallel.holds = some b → s.master.holds ≠ some b
  parallelCur : (s.sched .parallel).currentCoro = none

/-- What is stored about the coroutine that runs on a thread. -/
def State.runningCoro (s : State) (t : SchedId) : Option Coroutine := (s.running t).bind s.coro

/-- Whether the next step of `event_loop` is a call of `event_callback`. -/
def Body.delivers : Body → Bool
  | .eventLoop (.each i nsd) => decide (i < nsd)
  | _ => false

/-- A step that is not a call of `event_callback`, and not one of `coro_switch_to_parallel` by a
marked coroutine.  No other step can link a coroutine that is linked already. -/
def Clean (s : State) : Act → Prop
  | .call t .switchToParallel => ∀ k ∈ s.runningCoro t, k.needParallel = false
  | .master => ∀ k ∈ s.runningCoro .master, k.ctx.delivers = false
  | _ => True

instance (s : State) (act : Act) : Decidable (Clean s act) := by
  unfold Clean
  split <;> infer_instance

variable {s s' : State} {loc co a b x : Addr} {k : Coroutine} {t h : SchedId}

theorem Coherent.exec (hs : Coherent s) (hm : s.master = .exec loc co) :
    (∃ k, s.coro loc = some k) ∧
      (∃ k, s.coro co = some k ∧ k.status ≠ .exit ∧ k.sched = some .master) ∧ Out s.hist co ∧
      (s.sched .master).currentCoro = some co := by
  have := hs.master
  rwa [MasterOk, hm] at this

theorem ParallelOk.held (hs : ParallelOk s) (hb : s.parallel.holds = some b) :
    (∃ k, s.coro b = some k ∧ k.status = .ready) ∧ Out s.hist b := by
  rw [ParallelOk] at hs
  cases hp : s.parallel <;> rw [hp] at hs hb <;> simp only [ParallelPc.holds, Option.some.injEq,
    reduceCtorEq] at hb
  case toMaster | sending => exact hb ▸ hs
  all_goals
    obtain ⟨⟨k, hk, hr, -⟩, ho⟩ := hs
    exact hb ▸ ⟨⟨k, hk, hr⟩, ho⟩

theorem runningCoro_some (hr : s.running t = some co) (hk : s.coro co = some k) :
    s.runningCoro t = some k := by
  rw [State.runningCoro, hr, Option.bind_some, hk]

/-! ## 2. Frame rules -/

/-- The parallel thread does not see a step that leaves alone the coroutine it holds. -/
theorem ParallelOk.frame (hs : ParallelOk s) (hp : s'.parallel = s.parallel)
    (hheld : ∀ b, s.parallel.holds = some b →
      s'.coro b = s.coro b ∧ (Out s.hist b → Out s'.hist b)) : ParallelOk s' := by
  rw [ParallelOk] at hs ⊢
  rw [hp]
  cases hpc : s.parallel <;> rw [hpc] at hs hheld <;> simp only at hs ⊢
  case switchTo co | exec co | toMaster co | sending co =>
    obtain ⟨hc, ho⟩ := hheld co rfl
    exact ⟨by rw [hc]; exact hs.1, ho hs.2⟩

/-- The master thread does not see a step that keeps the coroutine it holds and the statuses. -/
theorem MasterOk.frame (hs : MasterOk s) (hm : s'.master = s.master)
    (hcur : (s'.sched .master).currentCoro = (s.sched .master).currentCoro)
    (hco : ∀ b k, s.coro b = some k → ∃ k', s'.coro b = some k' ∧ k'.status = k.status)
    (hheld : ∀ b, s.master.holds = some b →
      s'.coro b = s.coro b ∧ (Out s.hist b → Out s'.hist b)) : MasterOk s' := by
  rw [MasterOk] at hs ⊢
  rw [hm, hcur]
  cases hpc : s.master <;> rw [hpc] at hs hheld <;> simp only at hs ⊢
  case exec loc co =>
    obtain ⟨⟨k, hk⟩, hx, ho, hc⟩ := hs
    obtain ⟨hc', ho'⟩ := hheld co rfl
    obtain ⟨k', hk', -⟩ := hco loc k hk
    exact ⟨⟨k', hk'⟩, by rw [hc']; exact hx, ho' ho, hc⟩
  case back loc =>
    obtain ⟨k, hk⟩ := hs
    obtain ⟨k', hk', -⟩ := hco loc k hk
    exact ⟨k', hk'⟩
  case sentTrylock c | sentInsert c =>
    obtain ⟨hc', ho'⟩ := hheld c rfl
    exact ⟨by rw [hc']; exact hs.1, ho' hs.2.1, hs.2.2⟩
  case sentUnlock c | readyImm c =>
    obtain ⟨⟨k, hk, hr⟩, hc⟩ := hs
    obtain ⟨k', hk', hr'⟩ := hco c k hk
    exact ⟨⟨k', hk', hr'.trans hr⟩, hc⟩
  all_goals exact hs

/-- **A step of the master thread** keeps the invariant if it keeps its own part and leaves alone
what the parallel thread holds. -/
theorem Coherent.ofMaster (hs : Coherent s) (hp : s'.parallel = s.parallel)
    (hpc : (s'.sched .parallel).currentCoro = (s.sched .parallel).currentCoro)
    (hstore : Store s'.queue s'.coro s'.registry (queuesOf s'.hist)) (hmaster : MasterOk s')
    (hheld : ∀ b, s.parallel.holds = some b →
      s'.coro b = s.coro b ∧ (Out s.hist b → Out s'.hist b) ∧ s'.master.holds ≠ some b) :
    Coherent s' :=
  ⟨hstore, hmaster, hs.parallel.frame hp fun b hb => ⟨(hheld b hb).1, (hheld b hb).2.1⟩,
    fun b hb => (hheld b (hp ▸ hb)).2.2, hpc.trans hs.parallelCur⟩

/-- **A step of the parallel thread** keeps the invariant if it keeps its own part and leaves
alone what the master thread holds. -/
theorem Coherent.ofParallel (hs : Coherent s) (hm : s'.master = s.master)
    (hcur : s'.sched = s.sched)
    (hstore : Store s'.queue s'.coro s'.registry (queuesOf s'.hist)) (hpar : ParallelOk s')
    (hco : ∀ b k, s.coro b = some k → ∃ k', s'.coro b = some k' ∧ k'.status = k.status)
    (hheld : ∀ b, s.master.holds = some b →
      s'.coro b = s.coro b ∧ (Out s.hist b → Out s'.hist b) ∧ s'.parallel.holds ≠ some b) :
    Coherent s' :=
  ⟨hstore, hs.master.frame hm (by rw [hcur]) hco fun b hb => ⟨(hheld b hb).1, (hheld b hb).2.1⟩,
    hpar, fun b hb hb' => (hheld b (hm ▸ hb')).2.2 hb, by rw [hcur]; exact hs.parallelCur⟩

/-- **A step that touches no coroutine, no queue and no thread.** -/
theorem Coherent.quiet (hs : Coherent s) (hq : s'.queue = s.queue) (hc : s'.coro = s.coro)
    (hr : s'.registry = s.registry) (hL : queuesOf s'.hist = queuesOf s.hist)
    (hm : s'.master = s.master) (hp : s'.parallel = s.parallel)
    (hcur : ∀ h, (s'.sched h).currentCoro = (s.sched h).currentCoro) : Coherent s' := by
  have hout : ∀ b, Out s.hist b → Out s'.hist b := by
    intro b ho h
    rw [hL]
    exact ho h
  refine ⟨by rw [hq, hc, hr, hL]; exact hs.store, ?_, ?_, ?_, (hcur _).trans hs.parallelCur⟩
  · refine hs.master.frame hm (hcur _) (fun b k hk => ⟨k, by rw [hc]; exact hk, rfl⟩) fun b _ => ?_
    exact ⟨by rw [hc], hout b⟩
  · exact hs.parallel.frame hp fun b _ => ⟨by rw [hc], hout b⟩
  · rw [hm, hp]
    exact hs.apart

theorem MasterOk.held (hs : MasterOk s) (hb : s.master.holds = some b) :
    (∃ k, s.coro b = some k) ∧ Out s.hist b := by
  rw [MasterOk] at hs
  cases hp : s.master <;> rw [hp] at hs hb <;> simp only [MasterPc.holds, Option.some.injEq,
    reduceCtorEq] at hb
  case exec =>
    obtain ⟨-, ⟨k, hk, -⟩, ho, -⟩ := hs
    exact hb ▸ ⟨⟨k, hk⟩, ho⟩
  all_goals
    obtain ⟨⟨k, hk, -⟩, ho, -⟩ := hs
    exact hb ▸ ⟨⟨k, hk⟩, ho⟩

/-- A coroutine changes a field of its own that the invariant does not read. -/
theorem Coherent.setOwn (hs : Coherent s) (hk : s.coro x = some k) {k' : Coroutine}
    (hcid : k'.cid = k.cid) (hst : k'.status = k.status) (hsc : k'.sched = k.sched)
    (hnp : s.master.holds = some x → (∃ loc, s.master = .exec loc x)) :
    Coherent (s.setCoro x k') := by
  have hstore : Store s.queue (Function.update s.coro x (some k')) s.registry
      (queuesOf s.hist) := by
    refine hs.store.setCoro hk hcid fun h hm => ?_
    obtain ⟨c, hc, hr, hcs⟩ := hs.store.queued h x hm
    obtain rfl : k = c := by rw [hk] at hc; exact Option.some.inj hc
    exact ⟨hst.trans hr, hsc.trans hcs⟩
  have hco : ∀ b c, s.coro b = some c → ∃ c', Function.update s.coro x (some k') b = some c' ∧
      c'.status = c.status ∧ c'.sched = c.sched := by
    intro b c hc
    by_cases hb : b = x
    · subst hb
      obtain rfl : k = c := by rw [hk] at hc; exact Option.some.inj hc
      exact ⟨k', Function.update_self _ _ _, hst, hsc⟩
    · exact ⟨c, (Function.update_of_ne hb _ _).trans hc, rfl, rfl⟩
  refine ⟨hstore, ?_, ?_, hs.apart, hs.parallelCur⟩
  · have hm := hs.master
    by_cases hx : s.master.holds = some x
    · obtain ⟨loc, hpc⟩ := hnp hx
      obtain ⟨⟨kl, hkl⟩, ⟨c, hc, hl, hcs⟩, ho, hcur⟩ := hs.exec hpc
      obtain ⟨kl', hkl', -⟩ := hco loc kl hkl
      obtain ⟨c', hc', hl', hcs'⟩ := hco x c hc
      rw [MasterOk]
      simp only [State.setCoro, hpc]
      exact ⟨⟨kl', hkl'⟩, ⟨c', hc', by rw [hl']; exact hl, hcs'.trans hcs⟩, ho, hcur⟩
    · refine hm.frame rfl rfl (fun b c hc => ?_) (fun b hb => ?_)
      · obtain ⟨c', hc', hl', -⟩ := hco b c hc
        exact ⟨c', hc', hl'⟩
      · have hbx : b ≠ x := by rintro rfl; exact hx hb
        exact ⟨Function.update_of_ne hbx _ _, id⟩
  · have hp := hs.parallel
    rw [ParallelOk] at hp ⊢
    simp only [State.setCoro]
    cases hpc : s.parallel <;> rw [hpc] at hp <;> simp only at hp ⊢
    case switchTo co | exec co =>
      obtain ⟨⟨c, hc, hr, hcs⟩, ho⟩ := hp
      obtain ⟨c', hc', hr', hcs'⟩ := hco co c hc
      exact ⟨⟨c', hc', hr'.trans hr, hcs'.trans hcs⟩, ho⟩
    case toMaster co | sending co =>
      obtain ⟨⟨c, hc, hr⟩, ho⟩ := hp
      obtain ⟨c', hc', hr', -⟩ := hco co c hc
      exact ⟨⟨c', hc', hr'.trans hr⟩, ho⟩

/-- `event_loop` goes on. -/
theorem Coherent.goesInBody (hs : Coherent s) (hm : s.master = .exec loc co)
    (hk : s.coro co = some k) {ctx : Body} : Coherent (s.setCoro co { k with ctx }) :=
  hs.setOwn hk rfl rfl rfl fun _ => ⟨loc, hm⟩

/-! ## 3. The running coroutines -/

theorem running_master (hr : s.running .master = some co) : ∃ loc, s.master = .exec loc co := by
  cases hm : s.master <;> simp [State.running, hm] at hr
  exact ⟨_, by rw [hr]⟩

theorem running_parallel (hr : s.running .parallel = some co) : s.parallel = .exec co := by
  cases hp : s.parallel <;> simp [State.running, hp] at hr
  rw [hr]

theorem Coherent.parallelExec (hs : Coherent s) (hp : s.parallel = .exec co) :
    (∃ k, s.coro co = some k ∧ k.status = .ready ∧ k.sched = some .parallel) ∧ Out s.hist co := by
  have := hs.parallel
  rwa [ParallelOk, hp] at this

end Corosched
