/-
# Programs of the master scheduler alone

The programs whose coroutines are all spawned on `g_mastersched`, never set `need_parallel`, and
act only through `coro_spawn`, `coro_yield`, `coro_exit` and `sched_run_once`.  `Alone` is what is
true in every state such a program can reach, and `Alone.step` says that no step of it fails and
that every step keeps `Alone`.

Two theorems follow.  `master_fifo`: the scheduler is a queue in the sense of `Fifo.Served`, the
insertions being those of `coro_spawn`, `coro_yield` and `sched_run_once` and the removals the
dispatches of both dispatchers.  `master_coherent`: queue, current coroutine, registry and memory
agree.
-/
import Corosched.Steps
import Corosched.Lib.Fifo

namespace Corosched

open State

/-! ## 1. What the history says -/

/-- The uses of the queue: the insertions at the tail, and the dispatches. -/
def queueUses (hist : List Obs) : List (Fifo.Ev Addr) := hist.filterMap fun
  | .enqueue _ c => some (.enq c)
  | .dispatch _ c => some (.deq c)
  | _ => none

/-- The coroutines enqueued, in order. -/
def enqueues (hist : List Obs) : List Addr := Fifo.enqs (queueUses hist)

/-- The coroutines dispatched, in order. -/
def dispatches (hist : List Obs) : List Addr := Fifo.deqs (queueUses hist)

/-- What an observation does to the set of the allocated coroutines; to allocate or to free
something twice is an error. -/
def heapStep (m : Option (Addr → Bool)) : Obs → Option (Addr → Bool)
  | .alloc a => m.bind fun f => if f a then none else some (Function.update f a true)
  | .dealloc a => m.bind fun f => if f a then some (Function.update f a false) else none
  | _ => m

/-- The coroutines that are allocated after a history, if none was allocated or freed twice. -/
def heapOf (hist : List Obs) : Option (Addr → Bool) := hist.foldl heapStep (some fun _ => false)

/-- What an observation does to the set of the coroutines that have not exited. -/
def aliveStep (f : Addr → Bool) : Obs → Addr → Bool
  | .alloc a => Function.update f a true
  | .exit a => Function.update f a false
  | _ => f

/-- The coroutines that have been spawned and have not exited since. -/
def aliveOf (hist : List Obs) : Addr → Bool := hist.foldl aliveStep fun _ => false

theorem queueUses_append (hist new : List Obs) :
    queueUses (hist ++ new) = queueUses hist ++ queueUses new := List.filterMap_append

theorem heapOf_append (hist new : List Obs) :
    heapOf (hist ++ new) = new.foldl heapStep (heapOf hist) := List.foldl_append

theorem aliveOf_append (hist new : List Obs) :
    aliveOf (hist ++ new) = new.foldl aliveStep (aliveOf hist) := List.foldl_append

theorem queuesOf_append (hist new : List Obs) :
    queuesOf (hist ++ new) = new.foldl replay (queuesOf hist) := List.foldl_append

/-! ## 2. The programs, and their invariant -/

/-- What such a program does, and anything the rest of the system does. -/
def Plain : Act → Prop
  | .main h fn _ => h = .master ∧ fn = .user
  | .call _ k => match k with
    | .spawn h fn _ => h = .master ∧ fn = .user
    | .yield | .exit | .runOnce => True
    | _ => False
  | _ => True

instance : DecidablePred Plain := fun act => by
  cases act with
  | call t k => cases k <;> (simp only [Plain]; infer_instance)
  | main h fn mem => exact inferInstanceAs (Decidable (_ ∧ _))
  | envRun | master | parallel | send | epoll => exact isTrue trivial

/-- Whether the master thread is outside `coro_sent_parallel`. -/
def MasterPc.Plain : MasterPc → Prop
  | .sentTrylock _ | .sentInsert _ | .sentUnlock _ | .readyImm _ => False
  | _ => True

/-- **The invariant of the programs of the master scheduler alone.** -/
structure Alone (s : State) : Prop where
  coherent : Coherent s
  user : ∀ a k, s.coro a = some k →
    k.ctx = .user ∧ k.sched = some .master ∧ k.needParallel = false
  pc : s.master.Plain
  idle : queuesOf s.hist .parallel = [] ∧ s.parallel.holds = none
  served : Fifo.Served (queueUses s.hist) (queuesOf s.hist .master)
  heap : heapOf s.hist = some fun a => (s.coro a).isSome
  alive : ∀ a, aliveOf s.hist a = true ↔ ∃ k, s.coro a = some k ∧ k.status ≠ .exit
  placed : ∀ a k, s.coro a = some k → k.status ≠ .exit →
    a ∈ queuesOf s.hist .master ∨ s.master.holds = some a

variable {s s' : State} {loc co a b x c : Addr} {k : Coroutine} {t h : SchedId} {l : List Addr}

theorem Alone.boot (em : Option Eventmanager) : Alone (State.boot em) := by
  refine ⟨.boot em, ?_, trivial, ⟨rfl, rfl⟩, .nil, rfl, ?_, ?_⟩
  · intro a k hk
    exact absurd hk (by simp [State.boot])
  · intro a
    simp [State.boot, aliveOf]
  · intro a k hk
    exact absurd hk (by simp [State.boot])

/-- A new status for an allocated coroutine. -/
theorem Alone.user_update (hs : Alone s) (hk : s.coro co = some k) (st : Status) :
    (∀ a k', Function.update s.coro co (some { k with status := st }) a = some k' →
      k'.ctx = .user ∧ k'.sched = some .master ∧ k'.needParallel = false) ∧
    (fun a => (Function.update s.coro co (some { k with status := st }) a).isSome) =
      fun a => (s.coro a).isSome := by
  constructor
  · intro a k' hk'
    rcases eq_or_ne a co with rfl | ha
    · rw [Function.update_self, Option.some.injEq] at hk'
      subst hk'
      exact hs.user a k hk
    · rw [Function.update_of_ne ha] at hk'
      exact hs.user a k' hk'
  · funext a
    rcases eq_or_ne a co with rfl | ha
    · simp [hk]
    · rw [Function.update_of_ne ha]

/-- A status that is not `M_EXIT` for a coroutine that has not exited. -/
theorem Alone.alive_update (hs : Alone s) (hk : s.coro co = some k) (hlive : k.status ≠ .exit)
    {st : Status} (hst : st ≠ .exit) (a : Addr) :
    aliveOf s.hist a = true ↔
      ∃ k', Function.update s.coro co (some { k with status := st }) a = some k' ∧
        k'.status ≠ .exit := by
  rw [hs.alive]
  rcases eq_or_ne a co with rfl | ha
  · simp [hk, hlive, hst]
  · rw [Function.update_of_ne ha]

/-- While `co` runs every other coroutine that has not exited is queued. -/
theorem Alone.queued (hs : Alone s) (hm : s.master = .exec loc co) (hb : b ≠ co)
    {v : Option Coroutine} (hk : Function.update s.coro co v b = some k)
    (hlive : k.status ≠ .exit) : b ∈ queuesOf s.hist .master := by
  rw [Function.update_of_ne hb] at hk
  rcases hs.placed b k hk hlive with hq | hh
  · exact hq
  · rw [hm] at hh
    exact absurd (Option.some.inj hh).symm hb

/-! ## 3. The steps -/

theorem Alone.spawn (hs : Alone s) {mem : Option Addr} {r : Except Fault State}
    (hstep : spawnStep s .master .user mem = some r) :
    ∃ s', r = .ok s' ∧ Alone s' ∧ s.hist <+: s'.hist := by
  obtain ⟨s', rfl⟩ := spawnStep_succeeds hs.coherent hstep
  have hspawned := hs.coherent.spawnStep_spawned hstep
  have hcoh := hs.coherent.spawned hspawned
  cases hspawned with
  | noMemory => exact ⟨_, rfl, hs, List.prefix_refl _⟩
  | @allocated a _ _ ha =>
    refine ⟨_, rfl, ?_, List.prefix_append _ _⟩
    have hL : queuesOf (s.hist ++ [.alloc a, .enqueue .master a]) =
        Function.update (queuesOf s.hist) .master (queuesOf s.hist .master ++ [a]) := by
      rw [queuesOf_append]; rfl
    have hmem : ∀ b, b ∈ queuesOf s.hist .master →
        b ∈ queuesOf (s.hist ++ [.alloc a, .enqueue .master a]) .master := by
      intro b hb
      rw [hL, Function.update_self]
      exact List.mem_append_left _ hb
    refine ⟨hcoh, ?_, hs.pc, ⟨?_, hs.idle.2⟩, ?_, ?_, ?_, ?_⟩
    · intro b k hk
      rcases eq_or_ne b a with rfl | hb
      · simp only [Function.update_self, Option.some.injEq] at hk
        subst hk
        exact ⟨rfl, rfl, rfl⟩
      · exact hs.user b k (by simpa [Function.update_of_ne hb] using hk)
    · rw [hL, Function.update_of_ne (by simp)]
      exact hs.idle.1
    · rw [hL, Function.update_self, queueUses_append]
      exact hs.served.enq a
    · rw [heapOf_append, hs.heap]
      simp only [List.foldl_cons, List.foldl_nil, heapStep, Option.bind_some, ha,
        Option.isSome_none, Bool.false_eq_true, if_false, Option.some.injEq]
      funext b
      rcases eq_or_ne b a with rfl | hb
      · simp
      · simp [Function.update_of_ne hb]
    · intro b
      rw [aliveOf_append]
      rcases eq_or_ne b a with rfl | hb
      · simp [aliveStep]
      · simpa [aliveStep, Function.update_of_ne hb] using hs.alive b
    · intro b k hk hlive
      rcases eq_or_ne b a with rfl | hb
      · left
        rw [hL, Function.update_self]
        simp
      · rcases hs.placed b k (by simpa [Function.update_of_ne hb] using hk) hlive with hq | hh
        · exact Or.inl (hmem b hq)
        · exact Or.inr hh

theorem Alone.yield (hs : Alone s) (hm : s.master = .exec loc co) :
    ∃ s', coroYield s .master (some co) = .ok s' ∧ Alone s' ∧
      s'.hist = s.hist ++ [.enqueue .master co] := by
  obtain ⟨-, ⟨k, hk, hlive, hsched⟩, hout, hcur⟩ := hs.coherent.exec hm
  obtain ⟨q', hcode, hst⟩ := coroYield_ok hs.coherent.store hm hk hlive hsched hout hcur
  refine ⟨_, hcode, ?_, rfl⟩
  obtain ⟨huser, hsome⟩ := hs.user_update hk .ready
  have hL : queuesOf (s.hist ++ [.enqueue .master co]) =
      Function.update (queuesOf s.hist) .master (queuesOf s.hist .master ++ [co]) :=
    queuesOf_append _ _
  refine ⟨hs.coherent.yields (.intro hm hk hlive hst), huser, trivial, ⟨?_, hs.idle.2⟩,
    ?_, ?_, ?_, ?_⟩
  · rw [hL, Function.update_of_ne (by simp)]
    exact hs.idle.1
  · rw [hL, Function.update_self, queueUses_append]
    exact hs.served.enq co
  · rw [hsome, heapOf_append]
    exact hs.heap
  · rw [aliveOf_append]
    exact hs.alive_update hk hlive (by simp)
  · intro b k' hk' hlive'
    left
    rw [hL, Function.update_self, List.mem_append, List.mem_singleton]
    rcases eq_or_ne b co with rfl | hb
    · exact Or.inr rfl
    · exact Or.inl (hs.queued hm hb hk' hlive')

theorem Alone.exit (hs : Alone s) (hm : s.master = .exec loc co) :
    ∃ s', coroExit s .master (some co) = .ok s' ∧ Alone s' ∧ s'.hist = s.hist ++ [.exit co] := by
  obtain ⟨-, ⟨k, hk, -, hsched⟩, hout, hcur⟩ := hs.coherent.exec hm
  obtain ⟨hcode, hst⟩ := coroExit_ok hs.coherent.store hm hk hsched hout hcur
  refine ⟨_, hcode, ?_, rfl⟩
  obtain ⟨huser, hsome⟩ := hs.user_update hk .exit
  have hL : queuesOf (s.hist ++ [.exit co]) = queuesOf s.hist := queuesOf_append _ _
  refine ⟨hs.coherent.exits hm hst, huser, trivial, ⟨?_, hs.idle.2⟩, ?_, ?_, ?_, ?_⟩
  · rw [hL]
    exact hs.idle.1
  · rw [hL, queueUses_append]
    simpa [queueUses] using hs.served
  · rw [hsome, heapOf_append]
    exact hs.heap
  · intro b
    rw [aliveOf_append]
    rcases eq_or_ne b co with rfl | hb
    · simp [aliveStep]
    · simpa [aliveStep, Function.update_of_ne hb] using hs.alive b
  · intro b k' hk' hlive'
    left
    rw [hL]
    rcases eq_or_ne b co with rfl | hb
    · simp only [Function.update_self, Option.some.injEq] at hk'
      exact absurd (by rw [← hk']) hlive'
    · exact hs.queued hm hb hk' hlive'

theorem Alone.runOnce (hs : Alone s) (hm : s.master = .exec loc co) :
    ∃ s', schedRunOnce s = .ok s' ∧ Alone s' ∧ s.hist <+: s'.hist := by
  obtain ⟨-, ⟨k, hk, hlive, hsched⟩, hout, hcur⟩ := hs.coherent.exec hm
  by_cases hidle : (s.sched .master).stop = true ∨ queuesOf s.hist .master = []
  · exact ⟨s, schedRunOnce_idle hs.coherent.store hidle, hs, List.prefix_refl _⟩
  · rw [not_or, Bool.not_eq_true] at hidle
    obtain ⟨hstop, hne⟩ := hidle
    obtain ⟨x, l, hl⟩ := List.exists_cons_of_ne_nil hne
    have hxin : x ∈ queuesOf s.hist .master := hl ▸ List.mem_cons_self
    obtain ⟨c, hx, -⟩ := hs.coherent.store.queued _ x hxin
    obtain ⟨-, hgo⟩ :=
      schedRunOnce_ok hs.coherent.store hm hk hlive hsched hout hcur hstop hl hx
    obtain ⟨q', hcode, -⟩ := hgo (hs.user x c hx).2.2
    refine ⟨_, hcode, ?_, List.prefix_append _ _⟩
    obtain ⟨huser, hsome⟩ := hs.user_update hk .ready
    have hL : queuesOf (s.hist ++ [.pop .master x, .enqueue .master co, .dispatch .master x]) =
        Function.update (queuesOf s.hist) .master (l ++ [co]) := by
      rw [queuesOf_append]
      simp [replay, hl]
    refine ⟨hs.coherent.runsOnce hm (hs.coherent.schedRunOnce_runs hm hcode), huser, trivial,
      ⟨?_, hs.idle.2⟩, ?_, ?_, ?_, ?_⟩
    · rw [hL, Function.update_of_ne (by simp)]
      exact hs.idle.1
    · rw [hL, Function.update_self, queueUses_append]
      have henq := hs.served.enq co
      rw [hl, List.cons_append] at henq
      simpa [queueUses] using henq.deq
    · rw [hsome, heapOf_append]
      exact hs.heap
    · rw [aliveOf_append]
      exact hs.alive_update hk hlive (by simp)
    · intro b k' hk' hlive'
      rw [hL, Function.update_self, List.mem_append, List.mem_singleton]
      rcases eq_or_ne b co with rfl | hb
      · exact Or.inl (Or.inr rfl)
      · have hq := hs.queued hm hb hk' hlive'
        rw [hl, List.mem_cons] at hq
        rcases hq with rfl | hq
        · exact Or.inr rfl
        · exact Or.inl (Or.inl hq)

/-- A step that changes no coroutine, no queue and nothing the threads hold. -/
theorem Alone.quiet (hs : Alone s) (hcoh : Coherent s') (hc : s'.coro = s.coro)
    (hh : s'.hist = s.hist) (hpc : s'.master.Plain) (hm : s'.master.holds = s.master.holds)
    (hp : s'.parallel.holds = none) : Alone s' := by
  constructor
  case coherent => exact hcoh
  case user => exact hc ▸ hs.user
  case pc => exact hpc
  case idle => exact ⟨hh ▸ hs.idle.1, hp⟩
  case served => exact hh ▸ hs.served
  case heap => exact hh ▸ hc ▸ hs.heap
  case alive => exact hh ▸ hc ▸ hs.alive
  case placed =>
    rw [hc, hh, hm]
    exact hs.placed

/-- One iteration of `sched_run`. -/
theorem Alone.loop (hs : Alone s) (hm : s.master = .loop) :
    ∃ s', schedRun s = .ok s' ∧ (Coherent s' → Alone s') ∧ s.hist <+: s'.hist := by
  obtain ⟨-, hcode⟩ | ⟨x, l, c, q', -, hl, hx, hready, -, ⟨hnp, -⟩ | ⟨-, hcode, -⟩⟩ :=
    schedRun_cases hs.coherent.store
  · refine ⟨_, hcode, fun hcoh => ?_, List.prefix_refl _⟩
    exact hs.quiet hcoh rfl rfl trivial (by rw [hm]; rfl) hs.idle.2
  · exact absurd hnp (by simp [(hs.user x c hx).2.2])
  · have hlive : c.status ≠ .exit := by simp [hready]
    refine ⟨_, hcode, fun hcoh => ?_, List.prefix_append _ _⟩
    obtain ⟨huser, hsome⟩ := hs.user_update hx .run
    have hL : queuesOf (s.hist ++ [.pop .master x, .dispatch .master x]) =
        Function.update (queuesOf s.hist) .master l := by
      rw [queuesOf_append]
      simp [replay, hl]
    refine ⟨hcoh, huser, trivial, ⟨?_, hs.idle.2⟩, ?_, ?_, ?_, ?_⟩
    · rw [hL, Function.update_of_ne (by simp)]
      exact hs.idle.1
    · rw [hL, Function.update_self, queueUses_append]
      have hserved := hs.served
      rw [hl] at hserved
      simpa [queueUses] using hserved.deq
    · rw [hsome, heapOf_append]
      exact hs.heap
    · rw [aliveOf_append]
      exact hs.alive_update hx hlive (by simp)
    · intro b k' hk' hlive'
      rw [hL, Function.update_self]
      rcases eq_or_ne b x with rfl | hb
      · exact Or.inr rfl
      · simp only [Function.update_of_ne hb] at hk'
        rcases hs.placed b k' hk' hlive' with hq | hh
        · rw [hl, List.mem_cons] at hq
          exact Or.inl (hq.resolve_left hb)
        · rw [hm] at hh
          exact absurd hh (by simp [MasterPc.holds])

/-- `sched_run` after its switch. -/
theorem Alone.back (hs : Alone s) (hm : s.master = .back c) :
    ∃ s', schedRunBack s c = .ok s' ∧ (Coherent s' → Alone s') ∧ s.hist <+: s'.hist := by
  have hms := hs.coherent.master
  rw [MasterOk, hm] at hms
  obtain ⟨k, hk⟩ := hms
  by_cases hexit : k.status = .exit
  · have hout : Out s.hist c := by
      intro h hq
      obtain ⟨k', hk', hr, -⟩ := hs.coherent.store.queued h c hq
      obtain rfl : k = k' := Option.some.inj (hk.symm.trans hk')
      rw [hexit] at hr
      exact absurd hr (by simp)
    obtain ⟨r', hcode, -⟩ := schedRunBack_exit hs.coherent.store hk hexit hout
    refine ⟨_, hcode, fun hcoh => ?_, List.prefix_append _ _⟩
    have hL : queuesOf (s.hist ++ [.unregister c, .dealloc c]) = queuesOf s.hist :=
      queuesOf_append _ _
    have hcoro : ∀ {b k'}, Function.update s.coro c none b = some k' → s.coro b = some k' := by
      intro b k' hk'
      rcases eq_or_ne b c with rfl | hb
      · simp at hk'
      · rwa [Function.update_of_ne hb] at hk'
    refine ⟨hcoh, fun b k' hk' => hs.user b k' (hcoro hk'), trivial, ⟨?_, hs.idle.2⟩,
      ?_, ?_, ?_, ?_⟩
    · rw [hL]
      exact hs.idle.1
    · rw [hL, queueUses_append]
      simpa [queueUses] using hs.served
    · rw [heapOf_append, hs.heap]
      simp only [List.foldl_cons, List.foldl_nil, heapStep, Option.bind_some, hk,
        Option.isSome_some, if_true, Option.some.injEq]
      funext b
      rcases eq_or_ne b c with rfl | hb
      · simp
      · simp [Function.update_of_ne hb]
    · intro b
      rw [aliveOf_append]
      simp only [List.foldl_cons, List.foldl_nil, aliveStep, hs.alive b]
      rcases eq_or_ne b c with rfl | hb
      · simp [hk, hexit]
      · simp [Function.update_of_ne hb]
    · intro b k' hk' hlive'
      rw [hL]
      rcases hs.placed b k' (hcoro hk') hlive' with hq | hh
      · exact Or.inl hq
      · rw [hm] at hh
        exact absurd hh (by simp [MasterPc.holds])
  · refine ⟨_, schedRunBack_live hk hexit, fun hcoh => ?_, List.prefix_refl _⟩
    exact hs.quiet hcoh rfl rfl trivial (by rw [hm]; rfl) hs.idle.2

/-- Every such step is clean. -/
theorem Alone.clean (hs : Alone s) {a : Act} (hact : Plain a) : Clean s a := by
  cases a with
  | call t k =>
    cases k with
    | switchToParallel => exact absurd hact id
    | _ => trivial
  | master =>
    intro k hk
    obtain ⟨co, -, hk⟩ := Option.bind_eq_some_iff.mp hk
    rw [(hs.user co k hk).1]
    rfl
  | _ => trivial

/-- The call of a running coroutine. -/
theorem Alone.call (hs : Alone s) (hr : s.running t = some co) {k : Call}
    (hact : Plain (.call t k)) {r : Except Fault State} (hstep : callStep s t co k = some r) :
    ∃ s', r = .ok s' ∧ Alone s' ∧ s.hist <+: s'.hist := by
  cases t with
  | parallel =>
    have := hs.idle.2
    rw [running_parallel hr] at this
    exact absurd this (by simp [ParallelPc.holds])
  | master =>
    obtain ⟨loc, hm⟩ := running_master hr
    cases k with
    | spawn h fn mem =>
      obtain ⟨rfl, rfl⟩ := hact
      exact hs.spawn hstep
    | yield =>
      obtain ⟨s', hcode, hs', hh⟩ := hs.yield hm
      rw [callStep, hcode, Option.some.injEq] at hstep
      exact ⟨s', hstep.symm, hs', hh ▸ List.prefix_append _ _⟩
    | exit =>
      obtain ⟨s', hcode, hs', hh⟩ := hs.exit hm
      rw [callStep, hcode, Option.some.injEq] at hstep
      exact ⟨s', hstep.symm, hs', hh ▸ List.prefix_append _ _⟩
    | runOnce =>
      obtain ⟨s', hcode, hs', hh⟩ := hs.runOnce hm
      rw [callStep, if_pos rfl, hcode, Option.some.injEq] at hstep
      exact ⟨s', hstep.symm, hs', hh⟩
    | setNeedParallel | switchToParallel | registerEvent | removeEvent | envStop | transfer =>
      exact absurd hact id

/-- The framework code on the master thread. -/
theorem Alone.masterStep (hs : Alone s) {r : Except Fault State} (hstep : masterStep s = some r) :
    ∃ s', r = .ok s' ∧ Alone s' ∧ s.hist <+: s'.hist := by
  have hcoh : ∀ {s'}, r = .ok s' → Coherent s' := by
    rintro s' rfl
    exact hs.coherent.step (hs.clean (a := .master) trivial) hstep
  rw [Corosched.masterStep] at hstep
  cases hm : s.master with
  | main => simp [hm] at hstep
  | done => simp [hm] at hstep
  | envLock =>
    simp only [hm] at hstep
    split at hstep
    · obtain rfl := Option.some.inj hstep
      exact ⟨_, rfl, hs.quiet (hcoh rfl) rfl rfl trivial (by rw [hm]; rfl) hs.idle.2,
        List.prefix_refl _⟩
    · exact absurd hstep (by simp)
  | envUnlock =>
    simp only [hm] at hstep
    obtain rfl := Option.some.inj hstep
    exact ⟨_, rfl, hs.quiet (hcoh rfl) rfl rfl trivial (by rw [hm]; rfl) hs.idle.2,
      List.prefix_refl _⟩
  | loop =>
    simp only [hm] at hstep
    obtain rfl := Option.some.inj hstep
    obtain ⟨s', hcode, hs', hh⟩ := hs.loop hm
    exact ⟨s', hcode, hs' (hcoh hcode), hh⟩
  | sentTrylock | sentInsert | sentUnlock | readyImm =>
    have := hs.pc
    rw [hm] at this
    exact absurd this id
  | exec loc co =>
    obtain ⟨-, ⟨k, hk, -⟩, -⟩ := hs.coherent.exec hm
    simp [hm, hk, (hs.user co k hk).1] at hstep
  | back c =>
    simp only [hm] at hstep
    obtain rfl := Option.some.inj hstep
    obtain ⟨s', hcode, hs', hh⟩ := hs.back hm
    exact ⟨s', hcode, hs' (hcoh hcode), hh⟩

/-- The framework code on the parallel thread finds its queue empty. -/
theorem Alone.parallelStep (hs : Alone s) {r : Except Fault State}
    (hstep : parallelStep s = some r) : ∃ s', r = .ok s' ∧ Alone s' ∧ s.hist <+: s'.hist := by
  have hcoh : ∀ {s'}, r = .ok s' → Coherent s' := by
    rintro s' rfl
    exact hs.coherent.step (hs.clean (a := .parallel) trivial) hstep
  have hmove : ∀ (mx : Option SchedId) (p : ParallelPc), p.holds = none →
      r = .ok { s with mutex := mx, parallel := p } →
      ∃ s', r = .ok s' ∧ Alone s' ∧ s.hist <+: s'.hist := fun mx p hp hr =>
    ⟨_, hr, hs.quiet (hcoh hr) rfl rfl hs.pc rfl hp, List.prefix_refl _⟩
  have hidle := hs.idle.2
  rw [Corosched.parallelStep] at hstep
  cases hp : s.parallel with
  | notStarted | done => simp [hp] at hstep
  | switchTo | exec | toMaster | sending =>
    rw [hp] at hidle
    exact absurd hidle (by simp [ParallelPc.holds])
  | mainLock =>
    simp only [hp] at hstep
    split at hstep
    · exact hmove _ .mainUnlock rfl (Option.some.inj hstep).symm
    · exact absurd hstep (by simp)
  | mainUnlock =>
    simp only [hp] at hstep
    exact hmove _ .loop rfl (Option.some.inj hstep).symm
  | loop =>
    simp only [hp] at hstep
    split at hstep
    · exact hmove s.mutex .done rfl (Option.some.inj hstep).symm
    · exact hmove s.mutex .trylock rfl (Option.some.inj hstep).symm
  | trylock =>
    simp only [hp] at hstep
    split at hstep
    · exact hmove _ .check rfl (Option.some.inj hstep).symm
    · exact hmove s.mutex .sleep rfl (Option.some.inj hstep).symm
  | check =>
    simp only [hp, empty_eq hs.coherent.store, hs.idle.1, List.isEmpty_nil, if_true] at hstep
    exact hmove s.mutex .sleep rfl (Option.some.inj hstep).symm
  | sleep =>
    simp only [hp] at hstep
    exact hmove s.mutex .loop rfl (Option.some.inj hstep).symm

/-- **No step of such a program fails, and every step keeps the invariant.** -/
theorem Alone.step (hs : Alone s) {act : Act} (hact : Plain act) {r : Except Fault State}
    (hstep : step s act = some r) : ∃ s', r = .ok s' ∧ Alone s' ∧ s.hist <+: s'.hist := by
  cases act with
  | main h fn mem =>
    obtain ⟨rfl, rfl⟩ := hact
    simp only [Corosched.step] at hstep
    split at hstep
    · exact hs.spawn hstep
    · exact absurd hstep (by simp)
  | envRun =>
    have hcoh : ∀ {s'}, r = .ok s' → Coherent s' := by
      rintro s' rfl
      exact hs.coherent.step (hs.clean (a := .envRun) trivial) hstep
    simp only [Corosched.step] at hstep
    split at hstep
    · rename_i hm
      obtain rfl := Option.some.inj hstep
      exact ⟨_, rfl, hs.quiet (hcoh rfl) rfl rfl trivial (by rw [hm]; rfl) rfl, List.prefix_refl _⟩
    · exact absurd hstep (by simp)
  | call t k =>
    simp only [Corosched.step] at hstep
    split at hstep
    · exact absurd hstep (by simp)
    · rename_i co hr
      split at hstep
      · rename_i hk
        cases t with
        | master =>
          obtain ⟨loc, hm⟩ := running_master hr
          obtain ⟨-, ⟨k', hk', -⟩, -⟩ := hs.coherent.exec hm
          rw [hk] at hk'
          exact absurd hk' (by simp)
        | parallel =>
          have := hs.idle.2
          rw [running_parallel hr] at this
          exact absurd this (by simp [ParallelPc.holds])
      · split at hstep
        · exact hs.call hr hact hstep
        · exact absurd hstep (by simp)
  | master => exact hs.masterStep hstep
  | parallel => exact hs.parallelStep hstep
  | send r =>
    simp only [Corosched.step, sendStep] at hstep
    split at hstep
    · rename_i co hp
      have := hs.idle.2
      rw [hp] at this
      exact absurd this (by simp [ParallelPc.holds])
    · exact absurd hstep (by simp)
  | epoll r =>
    simp only [Corosched.step] at hstep
    split at hstep
    · rename_i loc co hm
      split at hstep
      · rename_i hk
        exact absurd (hs.user co _ hk).1 (by simp)
      · exact absurd hstep (by simp)
    · exact absurd hstep (by simp)

/-- **Every state such a program reaches.** -/
theorem Alone.run {as : List Act} (hs : Alone s)
    (h : Machine.Run Corosched.step (fun _ => Plain) s as s') : Alone s' ∧ s.hist <+: s'.hist := by
  refine h.inv (I := fun s' => Alone s' ∧ s.hist <+: s'.hist) (fun s₁ act s₂ hi hact hstep => ?_)
    ⟨hs, List.prefix_refl _⟩
  obtain ⟨s₃, he, hs₃, hh⟩ := hi.1.step hact hstep
  obtain rfl := Except.ok.inj he
  exact ⟨hs₃, hi.2.trans hh⟩

/-! ## 4. The theorems -/

/-- **The master scheduler refines a queue.**  After every run, the insertions and dispatches are
those of a queue whose contents are what the tail queue in memory represents, so the `i`-th
dispatch is of the coroutine of the `i`-th insertion.  And when `c` yields, what is dispatched
before `c` is dispatched again is what was queued when it yielded, once each. -/
theorem master_fifo {em : Option Eventmanager} {as : List Act}
    (h : Machine.Run Corosched.step (fun _ => Plain) (State.boot em) as s) :
    (∃ L, Tailq.Queues s.queue L ∧ Fifo.Served (queueUses s.hist) (L .master)) ∧
      dispatches s.hist <+: enqueues s.hist ∧
      ∀ c s₁ s₂ bs ds rest, s.running .master = some c →
        Corosched.step s (.call .master .yield) = some (.ok s₁) →
        Machine.Run Corosched.step (fun _ => Plain) s₁ bs s₂ →
        dispatches s₂.hist = dispatches s.hist ++ ds ++ c :: rest → c ∉ ds →
        (∃ L, Tailq.Queues s.queue L ∧ ds = L .master) ∧ ds.Nodup := by
  have hs := ((Alone.boot em).run h).1
  have hq := hs.coherent.store.queues
  refine ⟨⟨_, hq, hs.served⟩, hs.served.in_order, ?_⟩
  intro c s₁ s₂ bs ds rest hr hyield hrun hds hc
  obtain ⟨loc, hm⟩ := running_master hr
  obtain ⟨-, ⟨k, hk, -⟩, hout, -⟩ := hs.coherent.exec hm
  -- the yield inserts `c`, and everything later comes after it
  obtain ⟨s₁', hcode, hs₁, hh₁⟩ := hs.yield hm
  obtain rfl : s₁' = s₁ := by
    simp only [Corosched.step, hr, hk, (hs.user c k hk).1, if_true, callStep, hcode,
      Option.some.injEq, Except.ok.injEq] at hyield
    exact hyield
  obtain ⟨hs₂, more, hmore⟩ := hs₁.run hrun
  have huses : queueUses s₂.hist = queueUses s.hist ++ .enq c :: queueUses more := by
    rw [← hmore, hh₁, queueUses_append, queueUses_append]
    simp [queueUses]
  have hdeqs : Fifo.deqs (queueUses more) = ds ++ c :: rest := by
    rw [dispatches, dispatches, huses, Fifo.deqs_append, Fifo.deqs_enq, List.append_assoc] at hds
    exact List.append_cancel_left hds
  have hqueue : ds = queuesOf s.hist .master :=
    hs.served.between (huses ▸ hs₂.served) (hout .master) hdeqs hc
  exact ⟨⟨_, hq, hqueue⟩, hqueue ▸ hq.nodup .master⟩

/-- Two coroutines: the first yields, the second is dispatched, then the first again. -/
theorem master_fifo_two :
    ∃ s s₁ s₂ : State, s.running .master = some ⟨16, by decide⟩ ∧
      Corosched.step s (.call .master .yield) = some (.ok s₁) ∧
      Machine.exec Corosched.step (fun _ => Plain) s₁
        [.master, .master, .call .master .runOnce] = some (.ok s₂) ∧
      dispatches s.hist = [⟨16, by decide⟩] ∧
      dispatches s₂.hist = [⟨16, by decide⟩, ⟨32, by decide⟩, ⟨16, by decide⟩] ∧
      ∃ L, Tailq.Queues s.queue L ∧ [⟨32, by decide⟩] = L .master := by
  have hrun : ∃ s s₁ s₂ : State, Machine.exec Corosched.step (fun _ => Plain) (State.boot none)
        [.main .master .user (some ⟨16, by decide⟩), .main .master .user (some ⟨32, by decide⟩),
          .envRun, .master, .master, .master] = some (.ok s) ∧
      s.running .master = some ⟨16, by decide⟩ ∧
      Corosched.step s (.call .master .yield) = some (.ok s₁) ∧
      Machine.exec Corosched.step (fun _ => Plain) s₁
        [.master, .master, .call .master .runOnce] = some (.ok s₂) ∧
      dispatches s.hist = [⟨16, by decide⟩] ∧
      dispatches s₂.hist = [⟨16, by decide⟩, ⟨32, by decide⟩, ⟨16, by decide⟩] :=
    ⟨_, _, _, rfl, rfl, rfl, rfl, rfl, rfl⟩
  obtain ⟨s, s₁, s₂, hexec, hr, hyield, hexec₂, hds, hds₂⟩ := hrun
  obtain ⟨-, -, hbetween⟩ := master_fifo (.of_exec hexec)
  obtain ⟨hq, -⟩ := hbetween _ s₁ s₂ _ [⟨32, by decide⟩] [] hr hyield
    (.of_exec hexec₂) (by rw [hds₂, hds]; rfl) (by decide)
  exact ⟨s, s₁, s₂, hr, hyield, hexec₂, hds, hds₂, hq⟩

/-- **Queue, current coroutine, registry and memory agree.**  After every run no step can fail and
nothing was freed twice; and where a coroutine executes or `sched_run` is at the test of its loop,
every coroutine that was spawned and has not exited is registered and in exactly one place, and no
coroutine that is not allocated is anywhere. -/
theorem master_coherent {em : Option Eventmanager} {as : List Act}
    (h : Machine.Run Corosched.step (fun _ => Plain) (State.boot em) as s) :
    (∀ act r, Plain act → Corosched.step s act = some r → ∃ s', r = .ok s') ∧
      heapOf s.hist = some (fun a => (s.coro a).isSome) ∧
      (s.master = .loop ∨ (∃ loc co, s.master = .exec loc co) →
        ∃ L, Tailq.Queues s.queue L ∧ (L .master).Nodup ∧
          (∀ a, aliveOf s.hist a = true → ∃ k, s.coro a = some k ∧ k.cid = a.cid ∧
            s.registry.mem.key (.node a) = k.cid ∧ s.registry.mem.data (.node a) = some a ∧
            schedGetCoro s.registry k.cid = .ok (some a) ∧
            ((a ∈ L .master ∧ k.status = .ready ∧ (s.sched .master).currentCoro ≠ some a) ∨
              (a ∉ L .master ∧ (s.sched .master).currentCoro = some a))) ∧
          ∀ a, s.coro a = none → (∀ h, a ∉ L h) ∧ (s.sched .master).currentCoro ≠ some a ∧
            ∀ pid, schedGetCoro s.registry pid ≠ .ok (some a)) := by
  have hs := ((Alone.boot em).run h).1
  have hst := hs.coherent.store
  refine ⟨fun act r hact hstep => ?_, hs.heap, fun hpc => ?_⟩
  · obtain ⟨s', hr, -⟩ := hs.step hact hstep
    exact ⟨s', hr⟩
  -- the current coroutine is the one that executes
  have hcur : (s.sched .master).currentCoro = s.master.holds := by
    rcases hpc with hm | ⟨loc, co, hm⟩
    · have := hs.coherent.master
      rw [MasterOk, hm] at this
      rw [hm]
      exact this
    · rw [hm]
      exact (hs.coherent.exec hm).2.2.2
  have hheld : ∀ {a}, s.master.holds = some a → (∃ k, s.coro a = some k) ∧ Out s.hist a :=
    fun hh => hs.coherent.master.held hh
  refine ⟨_, hst.queues, hst.queues.nodup _, fun a ha => ?_, fun a ha => ⟨?_, ?_, ?_⟩⟩
  · obtain ⟨k, hk, hlive⟩ := (hs.alive a).mp ha
    have hcid := hst.cid a k hk
    have hmem : a ∈ {a | s.coro a ≠ none} := by simp [hk]
    refine ⟨k, hk, hcid, ?_, hst.registry.data a hmem, ?_, ?_⟩
    · rw [hcid]
      exact hst.registry.key a hmem
    · rw [hcid]
      exact schedGetCoro_live hst.registry hmem
    · rcases hs.placed a k hk hlive with hq | hh
      · left
        obtain ⟨k', hk', hready, -⟩ := hst.queued _ a hq
        obtain rfl : k = k' := Option.some.inj (hk.symm.trans hk')
        refine ⟨hq, hready, fun hc => ?_⟩
        exact (hheld (hcur.symm.trans hc)).2 _ hq
      · exact Or.inr ⟨(hheld hh).2 _, hcur.trans hh⟩
  · exact hst.not_free ha
  · intro hc
    obtain ⟨⟨k, hk⟩, -⟩ := hheld (hcur.symm.trans hc)
    rw [ha] at hk
    exact absurd hk (by simp)
  · intro pid hget
    by_cases hpid : ∃ b, s.coro b ≠ none ∧ b.cid = pid
    · obtain ⟨b, hb, rfl⟩ := hpid
      rw [schedGetCoro_live hst.registry hb] at hget
      simp only [Except.ok.injEq, Option.some.injEq] at hget
      exact hb (hget ▸ ha)
    · push Not at hpid
      rw [schedGetCoro_absent hst.registry hpid] at hget
      exact absurd hget (by simp)

/-- A coroutine resumed by the `sched_run_once` of another one exits: the run goes on. -/
theorem master_coherent_exit :
    ∃ s, Machine.exec Corosched.step (fun _ => Plain) (State.boot none)
      [.main .master .user (some ⟨16, by decide⟩), .main .master .user (some ⟨32, by decide⟩),
        .envRun, .master, .master, .master, .call .master .runOnce, .call .master .exit,
        .master] = some (.ok s) ∧ s.master = .loop ∧
      heapOf s.hist = some (fun a => (s.coro a).isSome) ∧
      ∃ L, Tailq.Queues s.queue L ∧ (L .master).Nodup := by
  have hrun : ∃ s, Machine.exec Corosched.step (fun _ => Plain) (State.boot none)
      [.main .master .user (some ⟨16, by decide⟩), .main .master .user (some ⟨32, by decide⟩),
        .envRun, .master, .master, .master, .call .master .runOnce, .call .master .exit,
        .master] = some (.ok s) ∧ s.master = .loop := ⟨_, rfl, rfl⟩
  obtain ⟨s, hexec, hm⟩ := hrun
  obtain ⟨-, hheap, hrest⟩ := master_coherent (.of_exec hexec)
  obtain ⟨L, hq, hnd, -⟩ := hrest (Or.inl hm)
  exact ⟨s, hexec, hm, hheap, L, hq, hnd⟩

end Corosched
