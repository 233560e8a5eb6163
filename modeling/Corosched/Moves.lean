/-
# What a step can do

Whatever the memory looks like, a step of the program is made of few kinds of moves on what the
coroutines are (`coro`, `registry`), on where the threads stand and who owns the lock, and on the
history; the links of the wait queues decide only which coroutine a move is about.  `Move` lists
them, and `step_effect` says that every step that succeeds is a sequence of moves or one of a few
steps that stand alone, among them `env_run`, `coro_exit`, the calls of `epoll_wait` and of
`send`, and the step by which `parallel_run` leaves the pop.  What all of these keep holds in every
reachable state, in orderly memory or not.
-/
import Corosched.Coherence
import Mathlib.Logic.Relation

namespace Corosched

open State

/-! ## 1. The moves -/

/-- What the moves change. -/
structure View where
  coro : Addr → Option Coroutine
  registry : Registry
  mutex : Option SchedId
  master : MasterPc
  parallel : ParallelPc
  parallelCurrent : Option Addr
  parallelStop : Bool
  sock : List (BitVec 8)
  interest : List (Int × EventPtr)
  buffer : Option (Nat → EpollEvent)
  hist : List Obs

/-- What is seen of a state. -/
def State.view (s : State) : View :=
  ⟨s.coro, s.registry, s.mutex, s.master, s.parallel, (s.sched .parallel).currentCoro,
    (s.sched .parallel).stop, s.sock, s.interest, s.eventmgr.map Eventmanager.events, s.hist⟩

/-- Whether the master thread is inside a critical section. -/
def MasterPc.critical : MasterPc → Bool
  | .envUnlock | .sentInsert _ | .sentUnlock _ => true
  | _ => false

/-- Whether the parallel thread is inside a critical section. -/
def ParallelPc.critical : ParallelPc → Bool
  | .mainUnlock | .check => true
  | _ => false

/-- Whether the master thread is between a dispatch and the return to `sched_run`. -/
def MasterPc.away : MasterPc → Bool
  | .exec _ _ | .back _ => true
  | _ => false

/-- The observations that are neither a dispatch by the master thread, nor about the life of a
coroutine, nor a registration. -/
def Obs.minor : Obs → Bool
  | .enqueue _ _ | .enqueueHead _ _ | .pop _ _ | .dispatch .parallel _ | .report _ => true
  | _ => false

/-- **One move.** -/
inductive Move (v : View) : View → Prop
  /-- an insertion or pop, a dispatch by the parallel thread, or a report -/
  | note (o : Obs) (ho : o.minor = true) : Move v { v with hist := v.hist ++ [o] }
  /-- `coro->sched = h` -/
  | own {a : Addr} {k : Coroutine} (h : SchedId) (hk : v.coro a = some k) :
      Move v { v with coro := Function.update v.coro a (some { k with sched := some h }) }
  /-- `event_loop` goes on between two calls of `epoll_wait` -/
  | body {a : Addr} {k : Coroutine} {stop hasTask : Bool} {events : Nat → EpollEvent}
      {pc pc' : EvPc} {call : EvCall} (hk : v.coro a = some k) (hctx : k.ctx = .eventLoop pc)
      (hpc : eventLoopStep stop hasTask events pc = some (pc', call)) :
      Move v { v with coro := Function.update v.coro a (some { k with ctx := .eventLoop pc' }) }
  /-- `coro->status = M_READY` -/
  | ready {a : Addr} {k : Coroutine} (hk : v.coro a = some k) (hlive : k.status ≠ .exit) :
      Move v { v with coro := Function.update v.coro a (some { k with status := .ready }) }
  /-- `coro_spawn` -/
  | spawn {a : Addr} {r : Registry} (fn : Entry) (h : SchedId) (ha : v.coro a = none)
      (hr : schedRegisterCoro (v.registry.spawnNode a) a = .ok r) :
      Move v { v with
        coro := Function.update v.coro a (some ⟨a.cid, fn.start, .ready, some h, false⟩)
        registry := r
        hist := v.hist ++ [.alloc a, .enqueue h a] }
  /-- `sched_run` dispatches -/
  | dispatch {c : Addr} {k : Coroutine} (hm : v.master = .loop) (hk : v.coro c = some k) :
      Move v { v with
        coro := Function.update v.coro c (some { k with status := .run })
        master := .exec c c
        hist := v.hist ++ [.pop .master c, .dispatch .master c] }
  /-- `sched_run_once` dispatches -/
  | redispatch {loc co : Addr} (x : Addr) (hm : v.master = .exec loc co) :
      Move v { v with master := .exec loc x, hist := v.hist ++ [.dispatch .master x] }
  /-- the running coroutine gives up control -/
  | back {loc co : Addr} (hm : v.master = .exec loc co) : Move v { v with master := .back loc }
  /-- `sched_run` goes on after a coroutine that has not exited -/
  | resume {c : Addr} {k : Coroutine} (hm : v.master = .back c) (hk : v.coro c = some k)
      (hlive : k.status ≠ .exit) : Move v { v with master := .loop }
  /-- `sched_run` reclaims a coroutine that has exited -/
  | reclaim {c : Addr} {k : Coroutine} {r : Registry} (hm : v.master = .back c)
      (hk : v.coro c = some k) (hexit : k.status = .exit) (hr : v.registry.delete c = .ok r) :
      Move v { v with
        coro := Function.update v.coro c none
        registry := r
        master := .loop
        hist := v.hist ++ [.unregister c, .dealloc c] }
  /-- the master thread goes on in `main`, `env_run`, `sched_run` or `coro_sent_parallel` -/
  | masterPc {m : MasterPc} (hm : v.master.away = false) (hm' : m.away = false ∧ m ≠ .main)
      (hc : m.critical = v.master.critical) : Move v { v with master := m }
  /-- the master thread locks `g_mutex` -/
  | masterLock {m : MasterPc} (hx : v.mutex = none) (hm : v.master.away = false)
      (hc : v.master.critical = false) (hm' : m.away = false) (hc' : m.critical = true) :
      Move v { v with mutex := some .master, master := m }
  /-- the master thread unlocks `g_mutex` -/
  | masterUnlock {m : MasterPc} (hm : v.master.away = false) (hc : v.master.critical = true)
      (hm' : m.away = false ∧ m ≠ .main) (hc' : m.critical = false) :
      Move v { v with mutex := none, master := m }
  /-- the parallel thread goes on -/
  | parallelPc {p : ParallelPc} (hp : v.parallel ≠ .notStarted)
      (hc : p.critical = v.parallel.critical) : Move v { v with parallel := p }
  /-- the parallel thread locks `g_mutex` -/
  | parallelLock {p : ParallelPc} (hp : v.parallel ≠ .notStarted) (hx : v.mutex = none)
      (hc : v.parallel.critical = false) (hc' : p.critical = true) :
      Move v { v with mutex := some .parallel, parallel := p }
  /-- the parallel thread unlocks `g_mutex` -/
  | parallelUnlock {p : ParallelPc} (hc : v.parallel.critical = true) (hc' : p.critical = false) :
      Move v { v with mutex := none, parallel := p }

/-- A sequence of moves. -/
abbrev Moves := Relation.ReflTransGen Move

/-- **What a step does.** -/
inductive Effect (s : State) (act : Act) (s' : State) : Prop
  | moves (h : Moves s.view s'.view)
  | exit {loc co : Addr} {k : Coroutine} (hact : act = .call .master .exit)
      (hm : s.master = .exec loc co) (hk : s.coro co = some k)
      (hv : s'.view = { s.view with
        coro := Function.update s.coro co (some { k with status := .exit })
        master := .back loc
        hist := s.hist ++ [.exit co] })
  | start (hm : s.master = .main)
      (hv : s'.view = { s.view with master := .envLock, parallel := .mainLock })
  | register {q : EventPtr} {ev : Event} {c : Addr} {int : List (Int × EventPtr)}
      (hact : act = .call .master (.registerEvent q ev))
      (hint : ∀ x ∈ int, x ∈ s.interest ∨ x.2 = q)
      (h : Moves { s.view with interest := int, hist := s.hist ++ [.await q c] } s'.view)
  | remove {q : EventPtr} (hact : act = .call .master (.removeEvent q))
      (hv : s'.view = { s.view with interest := epollDel s.interest (s.event q).sockfd })
  | epoll {a : Addr} {k : Coroutine} {b : List EpollEvent} {pc pc' : EvPc}
      (hact : act = .epoll (some b)) (hk : s.coro a = some k) (hctx : k.ctx = .eventLoop pc)
      (hb : ∀ e ∈ b, ∃ x ∈ s.interest, e.ptr = some x.2) (hpc : eventLoopWait b pc = some pc')
      (hv : s'.view = { s.view with
        coro := Function.update s.coro a (some { k with ctx := .eventLoop pc' })
        buffer := s.view.buffer.map (fill b) })
  | mark {t : SchedId} {b : Bool} {a : Addr} {k : Coroutine}
      (hact : act = .call t (.setNeedParallel b)) (hk : s.coro a = some k)
      (hv : s'.view = { s.view with
        coro := Function.update s.coro a (some { k with needParallel := b }) })
  | send {n : SendResult} (hact : act = .send n)
      (h : Moves s.view { s'.view with sock := s.sock })
  | check {p : ParallelPc} {new : List Obs} (hact : act = .parallel) (hp : s.parallel = .check)
      (hc : p.critical = false) (hnew : ∀ o ∈ new, o.minor = true)
      (hv : s'.view = { s.view with parallel := p, hist := s.hist ++ new })

variable {s s' s₁ : State} {v v' : View} {a c co loc x : Addr} {k : Coroutine} {t h : SchedId}
  {p : Option Addr}

theorem Moves.of_eq (h : v' = v) : Moves v v' := h ▸ Relation.ReflTransGen.refl

theorem Moves.one (h : Move v v') : Moves v v' := Relation.ReflTransGen.single h

/-- **The invariant rule** for moves. -/
theorem Moves.inv {I : View → Prop} (h : Moves v v') (step : ∀ v v', I v → Move v v' → I v')
    (hv : I v) : I v' := by
  induction h with
  | refl => exact hv
  | tail _ hmove ih => exact step _ _ ih hmove

/-- No move writes to the socketpair. -/
theorem Moves.sock_eq (h : Moves v v') : v'.sock = v.sock := by
  refine h.inv (I := fun w => w.sock = v.sock) (fun w w' hi hmove => ?_) rfl
  cases hmove <;> exact hi

/-! ## 2. The wait queues -/

theorem insertHead_view (h' : insertHead s h a = .ok s') :
    s'.view = { s.view with hist := s.hist ++ [.enqueueHead h a] } := by
  simp only [insertHead, bind_eq_ok] at h'
  obtain ⟨q, -, hq⟩ := h'
  simp only [pure_eq_ok, Except.ok.injEq] at hq
  subst hq
  rfl

/-- A pop finds the queue empty, or records what it takes. -/
theorem pop_inv (h' : pop s h = .ok (s', p)) :
    (p = none ∧ s' = s) ∨
      ∃ c q, p = some c ∧ s' = { s with queue := q, hist := s.hist ++ [.pop h c] } := by
  simp only [pop, bind_eq_ok] at h'
  obtain ⟨⟨q, head⟩, -, hq⟩ := h'
  cases head with
  | none =>
    simp only [pure_eq_ok, Except.ok.injEq, Prod.mk.injEq] at hq
    exact Or.inl ⟨hq.2.symm, hq.1.symm⟩
  | some c =>
    simp only [pure_eq_ok, Except.ok.injEq, Prod.mk.injEq] at hq
    obtain ⟨rfl, rfl⟩ := hq
    exact Or.inr ⟨c, q, rfl, rfl⟩

/-- What a successful `coro_ready` has done. -/
theorem coroReady_inv (h' : coroReady s p = .ok s') :
    ∃ a k h q, p = some a ∧ s.coro a = some k ∧ k.status ≠ .exit ∧ k.sched = some h ∧ s' = { s with
      queue := q
      coro := Function.update s.coro a (some { k with status := .ready })
      hist := s.hist ++ [.enqueue h a] } := by
  simp only [coroReady, bind_eq_ok, ASSERT_eq_ok, decide_eq_true_eq, insertTail, pure_eq_ok,
    Except.ok.injEq] at h'
  obtain ⟨a, ha, k, hk, u, hlive, h, hh, q, -, rfl⟩ := h'
  exact ⟨a, k, h, q, deref_eq_ok.mp ha, load_eq_ok.mp hk, hlive, deref_eq_ok.mp hh, rfl⟩

/-- `coro_ready`. -/
theorem coroReady_moves (h' : coroReady s p = .ok s') :
    Moves s.view s'.view ∧ s'.master = s.master := by
  obtain ⟨a, k, h, q, -, hk, hlive, -, rfl⟩ := coroReady_inv h'
  have hready := Moves.one (Move.ready (v := s.view) hk hlive)
  exact ⟨hready.tail (.note (.enqueue h a) rfl), rfl⟩

/-- `coro_ready_immediatly`. -/
theorem coroReadyImmediatly_moves (h' : coroReadyImmediatly s p = .ok s') :
    Moves s.view s'.view ∧ s'.master = s.master := by
  simp only [coroReadyImmediatly, bind_eq_ok, ASSERT_eq_ok, decide_eq_true_eq] at h'
  obtain ⟨a, -, k, hk, u, hst, h, -, hins⟩ := h'
  have hlive : k.status ≠ .exit := by rcases hst with h | h <;> simp [h]
  have hv := insertHead_view hins
  have hm : s'.master = s.master := congrArg View.master hv
  refine ⟨?_, hm⟩
  have hready := Moves.one (Move.ready (v := s.view) (load_eq_ok.mp hk) hlive)
  exact hready.tail (hv ▸ .note _ rfl)

/-! ## 3. Spawn, yield, exit -/

/-- The switch to the scheduler. -/
theorem switchToSched_moves (h' : switchToSched s t h = .ok s') :
    Moves s.view s'.view := by
  obtain ⟨-, ⟨-, loc, co, hm, rfl⟩ | ⟨-, co, hp, rfl⟩⟩ := switchToSched_inv h'
  · exact .one (.back (v := s.view) hm)
  · exact .one (.parallelPc (v := s.view) (by simp [State.view, hp])
      (by simp [State.view, hp, ParallelPc.critical]))

/-- `coro_spawn`. -/
theorem spawnStep_moves {fn : Entry} {mem : Option Addr}
    (h' : spawnStep s h fn mem = some (.ok s')) : Moves s.view s'.view := by
  rw [spawnStep] at h'
  split at h'
  · rename_i hok
    cases mem with
    | none =>
      simp only [coroSpawn, pure_eq_ok, ok_bind, Option.some.injEq, Except.ok.injEq] at h'
      exact .of_eq (by rw [h'])
    | some a =>
      have ha : s.coro a = none := hok.1 a rfl
      simp only [coroSpawn, Option.some.injEq, bind_eq_ok] at h'
      obtain ⟨⟨s₁, rs⟩, ⟨r, hr, s₂, hready, hs₁⟩, hs'⟩ := h'
      simp only [pure_eq_ok, Except.ok.injEq, Prod.mk.injEq] at hs₁ hs'
      obtain ⟨rfl, rfl⟩ := hs₁
      subst hs'
      obtain ⟨b, k, h', q, hb, hk, -, hh, rfl⟩ := coroReady_inv hready
      obtain rfl := Option.some.inj hb
      simp only [coroAlloc, State.setCoro, State.note, Function.update_self,
        Option.some.injEq] at hk
      subst hk
      obtain rfl := Option.some.inj hh
      have hmove := Move.spawn (v := s.view) (a := a) fn h ha hr
      refine .one ?_
      simpa [State.view, coroAlloc, State.setCoro, State.note] using hmove
  · exact absurd h' (by simp)

/-- `coro_yield`. -/
theorem coroYield_moves (h' : coroYield s t p = .ok s') : Moves s.view s'.view := by
  simp only [coroYield, bind_eq_ok] at h'
  obtain ⟨-, -, a, -, k, -, h, -, -, -, s₁, hready, -, -, hswitch⟩ := h'
  exact (coroReady_moves hready).1.trans (switchToSched_moves hswitch)

/-- `coro_switch_to_parallel`. -/
theorem coroSwitchToParallel_moves {rs : Option Rstatus}
    (h' : coroSwitchToParallel s t p = .ok (s', rs)) :
    Moves s.view s'.view := by
  simp only [coroSwitchToParallel, bind_eq_ok] at h'
  obtain ⟨-, -, a, -, k, -, hrest⟩ := h'
  split at hrest
  · simp only [pure_eq_ok, Except.ok.injEq, Prod.mk.injEq] at hrest
    exact .of_eq (by rw [hrest.1])
  · simp only [bind_eq_ok, pure_eq_ok, Except.ok.injEq, Prod.mk.injEq] at hrest
    obtain ⟨s₁, hready, s₂, hyield, rfl, -⟩ := hrest
    exact (coroReadyImmediatly_moves hready).1.trans (coroYield_moves hyield)

/-- `coro_exit` on the master thread; on the parallel thread no coroutine is recorded as running. -/
theorem coroExit_inv (hcur : (s.sched .parallel).currentCoro = none)
    (h' : coroExit s t (some co) = .ok s') :
    t = .master ∧ ∃ loc x k, s.master = .exec loc x ∧ s.coro co = some k ∧
      s'.view = { s.view with
        coro := Function.update s.coro co (some { k with status := .exit })
        master := .back loc
        hist := s.hist ++ [.exit co] } := by
  simp only [coroExit, Option.isSome_some, ASSERT_true, ok_bind, deref_some, bind_eq_ok,
    ASSERT_eq_ok, decide_eq_true_eq] at h'
  obtain ⟨k, hk, h, -, -, hc, hswitch⟩ := h'
  have hh : h = .master := by
    cases h with
    | master => rfl
    | parallel =>
      rw [hcur] at hc
      exact absurd hc (by simp)
  subst hh
  obtain ⟨rfl, ⟨-, loc, x, hm, rfl⟩ | ⟨ht, -⟩⟩ := switchToSched_inv hswitch
  · exact ⟨rfl, loc, x, k, hm, load_eq_ok.mp hk, rfl⟩
  · exact absurd ht (by simp)

/-! ## 4. The dispatchers -/

/-- What is recorded as running on the master scheduler is not seen. -/
theorem setCurrent_view : (s.setCurrent .master p).view = s.view := by
  simp [State.view, State.setCurrent]

/-- The switch to another coroutine. -/
theorem switchToCoro_moves (h' : switchToCoro s c = .ok s') : Moves s.view s'.view := by
  rw [switchToCoro] at h'
  split at h'
  · rename_i loc co hm
    simp only [pure_eq_ok, Except.ok.injEq] at h'
    subst h'
    exact .one (.redispatch (v := s.view) c hm)
  · exact absurd h' (by simp)

/-- `sched_run_once`. -/
theorem schedRunOnceFrom_moves {n : Nat} (h' : schedRunOnceFrom n s = .ok s') :
    Moves s.view s'.view := by
  induction n generalizing s with
  | zero => exact absurd h' (by simp [schedRunOnceFrom])
  | succ n ih =>
    rw [schedRunOnceFrom] at h'
    split at h'
    · simp only [pure_eq_ok, Except.ok.injEq] at h'
      exact .of_eq (by rw [h'])
    · split at h'
      · simp only [pure_eq_ok, Except.ok.injEq] at h'
        exact .of_eq (by rw [h'])
      · obtain ⟨⟨s₁, head⟩, hpop, hrest⟩ := bind_eq_ok.mp h'
        rcases pop_inv hpop with ⟨rfl, rfl⟩ | ⟨c, q, rfl, rfl⟩
        · simp only [pure_eq_ok, Except.ok.injEq] at hrest
          exact .of_eq (by rw [hrest])
        · refine (Moves.one (.note (v := s.view) (.pop .master c) rfl)).trans ?_
          obtain ⟨k, -, hrest⟩ := bind_eq_ok.mp hrest
          split at hrest
          · exact ih hrest
          · obtain ⟨s₂, hready, hrest⟩ := bind_eq_ok.mp hrest
            obtain ⟨k₂, -, hrest⟩ := bind_eq_ok.mp hrest
            refine (coroReady_moves hready).1.trans ?_
            split at hrest
            · obtain ⟨⟨s₃, rs⟩, hswitch, hrest⟩ := bind_eq_ok.mp hrest
              simp only [pure_eq_ok, Except.ok.injEq] at hrest
              exact hrest ▸ coroSwitchToParallel_moves hswitch
            · obtain ⟨-, -, hrest⟩ := bind_eq_ok.mp hrest
              exact setCurrent_view ▸ switchToCoro_moves hrest

/-- `event_callback`. -/
theorem eventCallback_moves {ptr : Option EventPtr} {events : BitVec 32}
    (h' : eventCallback s ptr events = .ok s') : Moves s.view s'.view := by
  simp only [eventCallback, bind_eq_ok] at h'
  obtain ⟨q, -, s₁, hready, honce⟩ := h'
  have hnote := Moves.one (.note (v := s.view) (.report q) rfl)
  exact (hnote.trans (coroReady_moves hready).1).trans (schedRunOnceFrom_moves honce)

/-- `register_event`. -/
theorem registerEvent_moves {q : EventPtr} (h' : registerEvent s t q = .ok s') :
    ∃ int c, (∀ x ∈ int, x ∈ s.interest ∨ x.2 = q) ∧
      Moves { s.view with interest := int, hist := s.hist ++ [.await q c] } s'.view := by
  simp only [registerEvent, bind_eq_ok] at h'
  obtain ⟨-, -, -, -, -, -, x, -, hy⟩ := h'
  refine ⟨_, x, fun y hmem => ?_, coroYield_moves hy⟩
  simp only [State.note, epollAdd] at hmem
  split at hmem
  · exact Or.inl hmem
  · rcases List.mem_cons.mp hmem with rfl | hmem
    · exact Or.inr rfl
    · exact Or.inl hmem

/-- One iteration of `sched_run`. -/
theorem schedRun_moves (hm : s.master = .loop) (h' : schedRun s = .ok s') :
    Moves s.view s'.view := by
  have hdone : Moves s.view { s.view with master := .done } :=
    .one (.masterPc (v := s.view) (by simp [State.view, hm, MasterPc.away])
      (by simp [MasterPc.away]) (by simp [State.view, hm, MasterPc.critical]))
  rw [schedRun] at h'
  split at h'
  · simp only [pure_eq_ok, Except.ok.injEq] at h'
    subst h'
    exact hdone
  · obtain ⟨⟨s₁, head⟩, hpop, hrest⟩ := bind_eq_ok.mp h'
    rcases pop_inv hpop with ⟨rfl, rfl⟩ | ⟨c, q, rfl, rfl⟩
    · simp only [pure_eq_ok, Except.ok.injEq] at hrest
      subst hrest
      exact hdone
    · obtain ⟨k, hk, hrest⟩ := bind_eq_ok.mp hrest
      split at hrest
      · simp only [pure_eq_ok, Except.ok.injEq] at hrest
        subst hrest
        have hpopped := Moves.one (.note (v := s.view) (.pop .master c) rfl)
        exact hpopped.tail (.masterPc (by simp [State.view, hm, MasterPc.away])
          (by simp [MasterPc.away]) (by simp [State.view, hm, MasterPc.critical]))
      · simp only [pure_eq_ok, Except.ok.injEq] at hrest
        subst hrest
        have hmove := Move.dispatch (v := s.view) (c := c) hm (load_eq_ok.mp hk)
        refine .one ?_
        simpa [State.view, State.setCoro, State.setCurrent, State.note] using hmove

/-- `sched_run` after its switch. -/
theorem schedRunBack_moves (hm : s.master = .back c) (h' : schedRunBack s c = .ok s') :
    Moves s.view s'.view := by
  simp only [schedRunBack, bind_eq_ok] at h'
  obtain ⟨k, hk, hrest⟩ := h'
  have hk' : s.view.coro c = some k := load_eq_ok.mp hk
  have hm' : s.view.master = .back c := hm
  split at hrest
  · rename_i hexit
    obtain ⟨r, hr, hrest⟩ := bind_eq_ok.mp hrest
    simp only [pure_eq_ok, Except.ok.injEq] at hrest
    subst hrest
    have hmove := Move.reclaim hm' hk' hexit hr
    refine .one ?_
    simpa [State.view, coroDealloc, State.note, State.setCurrent] using hmove
  · rename_i hlive
    simp only [pure_eq_ok, Except.ok.injEq] at hrest
    subst hrest
    have hmove := Move.resume hm' hk' hlive
    refine .one ?_
    simpa [State.view, State.setCurrent] using hmove

/-! ## 5. The steps -/

/-- A call by a running coroutine. -/
theorem callStep_effect {n : Call} (hcur : (s.sched .parallel).currentCoro = none)
    (hr : s.running t = some co) (h' : callStep s t co n = some (.ok s')) :
    Effect s (.call t n) s' := by
  cases n with
  | spawn h fn mem => exact .moves (spawnStep_moves h')
  | yield => exact .moves (coroYield_moves (Option.some.inj h'))
  | exit =>
    obtain ⟨rfl, loc, x, k, hm, hk, hv⟩ := coroExit_inv hcur (Option.some.inj h')
    have hx : x = co := by simpa [State.running, hm] using hr
    exact .exit rfl (hx ▸ hm) hk hv
  | runOnce =>
    simp only [callStep] at h'
    split at h'
    · exact .moves (schedRunOnceFrom_moves (Option.some.inj h'))
    · exact absurd h' (by simp)
  | setNeedParallel b =>
    simp only [callStep, Option.some.injEq, bind_eq_ok] at h'
    obtain ⟨k, hk, hset⟩ := h'
    simp only [pure_eq_ok, Except.ok.injEq] at hset
    subst hset
    exact .mark rfl (load_eq_ok.mp hk) rfl
  | switchToParallel =>
    simp only [callStep, Option.some.injEq, bind_eq_ok] at h'
    obtain ⟨⟨s₁, rs⟩, hswitch, hrest⟩ := h'
    simp only [pure_eq_ok, Except.ok.injEq] at hrest
    exact .moves (hrest ▸ coroSwitchToParallel_moves hswitch)
  | registerEvent q ev =>
    simp only [callStep] at h'
    split at h'
    · rename_i ht
      obtain ⟨int, c, hint, hmoves⟩ := registerEvent_moves (Option.some.inj h')
      exact .register (by rw [ht]) hint hmoves
    · exact absurd h' (by simp)
  | removeEvent q =>
    simp only [callStep] at h'
    split at h'
    · simp only [pure_eq_ok, Option.some.injEq, Except.ok.injEq] at h'
      rename_i ht
      subst h' ht
      exact .remove rfl rfl
    · exact absurd h' (by simp)
  | envStop =>
    simp only [callStep, Option.some.injEq, envStop, bind_eq_ok] at h'
    obtain ⟨em, hem, hset⟩ := h'
    simp only [pure_eq_ok, Except.ok.injEq] at hset
    subst hset
    have hem' : s.eventmgr = some em := deref_eq_ok.mp hem
    exact .moves (.of_eq (by simp [State.view, State.setStop, hem']))
  | transfer =>
    simp only [callStep] at h'
    split at h'
    · simp only [Option.some.injEq, bind_eq_ok] at h'
      obtain ⟨k, -, h, -, hswitch⟩ := h'
      exact .moves (switchToSched_moves hswitch)
    · exact absurd h' (by simp)

/-- `event_loop` between two calls of `epoll_wait`. -/
theorem eventLoopRun_moves {pc : EvPc} (hk : s.coro co = some k) (hctx : k.ctx = .eventLoop pc)
    (h' : eventLoopRun s co k pc = some (.ok s')) : Moves s.view s'.view := by
  rw [eventLoopRun] at h'
  split at h'
  · exact absurd h' (by simp)
  · split at h'
    · exact absurd h' (by simp)
    · rename_i em _ pc' call hpc
      have hown : Moves s.view (s.setCoro co { k with ctx := .eventLoop pc' }).view :=
        .one (.body (v := s.view) hk hctx hpc)
      cases call with
      | nothing =>
        simp only [pure_eq_ok, Option.some.injEq, Except.ok.injEq] at h'
        exact h' ▸ hown
      | callback e => exact hown.trans (eventCallback_moves (Option.some.inj h'))
      | runOnce => exact hown.trans (schedRunOnceFrom_moves (Option.some.inj h'))
      | ret => exact absurd h' (by simp)

/-- The framework code on the master thread. -/
theorem masterStep_moves (h' : masterStep s = some (.ok s')) : Moves s.view s'.view := by
  rw [masterStep] at h'
  cases hm : s.master with
  | main | done => simp [hm] at h'
  | envLock =>
    simp only [hm] at h'
    split at h'
    · rename_i hx
      simp only [pure_eq_ok, Option.some.injEq, Except.ok.injEq] at h'
      subst h'
      exact .one (.masterLock (v := s.view) hx (by simp [State.view, hm, MasterPc.away])
        (by simp [State.view, hm, MasterPc.critical]) rfl rfl)
    · exact absurd h' (by simp)
  | envUnlock =>
    simp only [hm, pure_eq_ok, Option.some.injEq, Except.ok.injEq] at h'
    subst h'
    exact .one (.masterUnlock (v := s.view) (by simp [State.view, hm, MasterPc.away])
      (by simp [State.view, hm, MasterPc.critical]) (by simp [MasterPc.away]) rfl)
  | loop =>
    simp only [hm, Option.some.injEq] at h'
    exact schedRun_moves hm h'
  | sentTrylock c =>
    simp only [hm, Option.some.injEq, bind_eq_ok] at h'
    obtain ⟨⟨s₁, rs⟩, hsent, hrest⟩ := h'
    simp only [coroSentParallel, bind_eq_ok] at hsent
    obtain ⟨k, hk, -, -, hlock⟩ := hsent
    cases hx : s.mutex with
    | none =>
      simp only [hx, pure_eq_ok, Except.ok.injEq, Prod.mk.injEq] at hlock
      obtain ⟨rfl, rfl⟩ := hlock
      simp only [if_true, pure_eq_ok, Except.ok.injEq] at hrest
      subst hrest
      exact .one (.masterLock (v := s.view) hx (by simp [State.view, hm, MasterPc.away])
        (by simp [State.view, hm, MasterPc.critical]) rfl rfl)
    | some o =>
      simp only [hx, pure_eq_ok, Except.ok.injEq, Prod.mk.injEq] at hlock
      obtain ⟨rfl, rfl⟩ := hlock
      simp only [reduceCtorEq, if_false, pure_eq_ok, Except.ok.injEq] at hrest
      subst hrest
      have hown := Moves.one (.own (v := s.view) .master (load_eq_ok.mp hk))
      exact hown.tail (.masterPc (by simp [State.view, hm, MasterPc.away]) (by simp [MasterPc.away])
        (by simp [State.view, hm, MasterPc.critical]))
  | sentInsert c =>
    simp only [hm, Option.some.injEq, bind_eq_ok, coroSentParallelInsert] at h'
    obtain ⟨s₁, ⟨k, hk, hins⟩, hrest⟩ := h'
    simp only [pure_eq_ok, Except.ok.injEq] at hrest
    subst hrest
    have hv := insertHead_view hins
    have hown := Moves.one (.own (v := s.view) .parallel (load_eq_ok.mp hk))
    have hnote : Moves s.view s₁.view := hv ▸ hown.tail (.note (.enqueueHead .parallel c) rfl)
    have hm₁ : s₁.master = .sentInsert c := (congrArg View.master hv).trans hm
    exact hnote.tail (.masterPc (by simp [State.view, hm₁, MasterPc.away]) (by simp [MasterPc.away])
      (by simp [State.view, hm₁, MasterPc.critical]))
  | sentUnlock c =>
    simp only [hm, pure_eq_ok, Option.some.injEq, Except.ok.injEq] at h'
    subst h'
    exact .one (.masterUnlock (v := s.view) (by simp [State.view, hm, MasterPc.away])
      (by simp [State.view, hm, MasterPc.critical]) (by simp [MasterPc.away]) rfl)
  | readyImm c =>
    simp only [hm, Option.some.injEq, bind_eq_ok] at h'
    obtain ⟨s₁, hready, hrest⟩ := h'
    simp only [pure_eq_ok, Except.ok.injEq] at hrest
    subst hrest
    obtain ⟨hmoves, hm₁⟩ := coroReadyImmediatly_moves hready
    rw [hm] at hm₁
    exact hmoves.tail (.masterPc (by simp [State.view, hm₁, MasterPc.away])
      (by simp [MasterPc.away]) (by simp [State.view, hm₁, MasterPc.critical]))
  | exec loc co =>
    simp only [hm] at h'
    split at h'
    · exact absurd h' (by simp)
    · rename_i k hk
      split at h'
      · exact absurd h' (by simp)
      · rename_i pc hctx
        exact eventLoopRun_moves hk hctx h'
  | back c =>
    simp only [hm, Option.some.injEq] at h'
    exact schedRunBack_moves hm h'

/-- After its trylock has succeeded, `parallel_run` leaves the pop with the lock still held. -/
theorem checkStep_view (hp : s.parallel = .check) (h' : parallelStep s = some (.ok s')) :
    ∃ p new, ParallelPc.critical p = false ∧ (∀ o ∈ new, Obs.minor o = true) ∧
      s'.view = { s.view with parallel := p, hist := s.hist ++ new } := by
  simp only [parallelStep, hp] at h'
  split at h'
  · simp only [pure_eq_ok, Option.some.injEq, Except.ok.injEq] at h'
    subst h'
    exact ⟨.sleep, [], rfl, by simp, by simp [State.view]⟩
  · simp only [Option.some.injEq, bind_eq_ok] at h'
    obtain ⟨⟨s₁, head⟩, hpop, -, -, co, hco, hrest⟩ := h'
    simp only [pure_eq_ok, Except.ok.injEq] at hrest
    subst hrest
    rcases pop_inv hpop with ⟨rfl, rfl⟩ | ⟨c, q, rfl, rfl⟩
    · exact absurd hco (by simp [deref])
    · exact ⟨.switchTo co, [.pop .parallel c], rfl, by simp [Obs.minor], rfl⟩

/-- The framework code on the parallel thread. -/
theorem parallelStep_effect (h' : parallelStep s = some (.ok s')) : Effect s .parallel s' := by
  have hmove : ∀ p : ParallelPc, s' = { s with parallel := p } →
      s.parallel ≠ .notStarted → p.critical = s.parallel.critical → Effect s .parallel s' := by
    rintro p rfl hn hc
    exact .moves (.one (.parallelPc (v := s.view) hn hc))
  have h'' := h'
  rw [parallelStep] at h'
  cases hp : s.parallel with
  | notStarted | exec | sending | done => simp [hp] at h'
  | mainLock | trylock =>
    simp only [hp] at h'
    split at h' <;> simp only [pure_eq_ok, Option.some.injEq, Except.ok.injEq, reduceCtorEq] at h'
    · rename_i hx
      subst h'
      exact .moves (.one (.parallelLock (v := s.view) (by simp [State.view, hp]) hx
        (by simp [State.view, hp, ParallelPc.critical]) rfl))
    all_goals exact hmove _ h'.symm (by simp [hp]) (by rw [hp]; rfl)
  | mainUnlock =>
    simp only [hp, pure_eq_ok, Option.some.injEq, Except.ok.injEq] at h'
    subst h'
    exact .moves (.one (.parallelUnlock (v := s.view)
      (by simp [State.view, hp, ParallelPc.critical]) rfl))
  | loop =>
    simp only [hp] at h'
    split at h' <;> simp only [pure_eq_ok, Option.some.injEq, Except.ok.injEq] at h'
    all_goals exact hmove _ h'.symm (by simp [hp]) (by rw [hp]; rfl)
  | sleep =>
    simp only [hp, pure_eq_ok, Option.some.injEq, Except.ok.injEq] at h'
    exact hmove _ h'.symm (by simp [hp]) (by rw [hp]; rfl)
  | check =>
    obtain ⟨p, new, hc, hnew, hv⟩ := checkStep_view hp h''
    exact .check rfl hp hc hnew hv
  | switchTo co =>
    simp only [hp, Option.some.injEq, bind_eq_ok] at h'
    obtain ⟨k, -, hrest⟩ := h'
    simp only [pure_eq_ok, Except.ok.injEq] at hrest
    subst hrest
    have hpc := Moves.one (.parallelPc (v := s.view) (p := .exec co)
      (by simp [State.view, hp]) (by simp [State.view, hp, ParallelPc.critical]))
    exact .moves (hpc.tail (.note (.dispatch .parallel co) rfl))
  | toMaster co =>
    simp only [hp, Option.some.injEq, bind_eq_ok] at h'
    obtain ⟨k, hk, hrest⟩ := h'
    simp only [pure_eq_ok, Except.ok.injEq] at hrest
    subst hrest
    have hown := Moves.one (.own (v := s.view) .master (load_eq_ok.mp hk))
    exact .moves (hown.tail (.parallelPc (by simp [State.view, hp])
      (by simp [State.view, hp, ParallelPc.critical])))

/-- The end of `coro_switch_to_master`, but for the bytes it has sent. -/
theorem sendStep_moves {n : SendResult} (h' : sendStep s n = some (.ok s')) :
    Moves s.view { s'.view with sock := s.sock } := by
  rw [sendStep] at h'
  split at h'
  · rename_i co hp
    split at h'
    · simp only [Option.some.injEq, bind_eq_ok, coroSwitchToMaster] at h'
      obtain ⟨⟨s₁, rs⟩, ⟨k, hk, hr⟩, hset⟩ := h'
      have hown := Moves.one (.own (v := s.view) .parallel (load_eq_ok.mp hk))
      have hs₁ : Moves s.view { s₁.view with sock := s.sock } ∧ s₁.parallel = s.parallel := by
        cases n with
        | eintr =>
          simp only [pure_eq_ok, Except.ok.injEq, Prod.mk.injEq] at hr
          rw [← hr.1]
          exact ⟨.of_eq rfl, rfl⟩
        | fail =>
          simp only [pure_eq_ok, Except.ok.injEq, Prod.mk.injEq] at hr
          rw [← hr.1]
          exact ⟨hown, rfl⟩
        | sent m =>
          simp only [pure_eq_ok] at hr
          split at hr
          · simp only [Except.ok.injEq, Prod.mk.injEq] at hr
            rw [← hr.1]
            exact ⟨hown, rfl⟩
          · simp only [Except.ok.injEq, Prod.mk.injEq] at hr
            rw [← hr.1]
            exact ⟨.of_eq rfl, rfl⟩
      obtain ⟨hmoves, hp₁⟩ := hs₁
      rw [hp] at hp₁
      cases rs
      all_goals
        simp only [pure_eq_ok, Except.ok.injEq] at hset
        subst hset
        exact hmoves.tail (.parallelPc (by simp [State.view, hp₁])
          (by simp [State.view, hp₁, ParallelPc.critical]))
    · exact absurd h' (by simp)
  · exact absurd h' (by simp)

/-- A return of `epoll_wait`. -/
theorem eventLoopEpoll_effect {pc : EvPc} {n : Option (List EpollEvent)} (hk : s.coro co = some k)
    (hctx : k.ctx = .eventLoop pc) (h' : eventLoopEpoll s co k pc n = some (.ok s')) :
    Effect s (.epoll n) s' := by
  unfold eventLoopEpoll at h'
  split at h'
  · exact absurd h' (by simp)
  · split at h'
    · exact absurd h' (by simp)
    · rename_i em b hem _ pc' hpc
      split at h'
      · rename_i hb
        simp only [pure_eq_ok, Option.some.injEq, Except.ok.injEq] at h'
        subst h'
        exact .epoll rfl hk hctx hb.2 hpc (by simp [State.view, State.setCoro, hem])
      · exact absurd h' (by simp)
  · split at h' <;> exact absurd h' (by simp)

/-- **Every step that succeeds** is a sequence of moves or one of the steps that stand alone. -/
theorem step_effect {act : Act} (hcur : (s.sched .parallel).currentCoro = none)
    (h' : step s act = some (.ok s')) : Effect s act s' := by
  cases act with
  | main h fn mem =>
    simp only [step] at h'
    split at h'
    · exact .moves (spawnStep_moves h')
    · exact absurd h' (by simp)
  | envRun =>
    simp only [step] at h'
    split at h'
    · rename_i hm
      simp only [pure_eq_ok, Option.some.injEq, Except.ok.injEq] at h'
      subst h'
      exact .start hm rfl
    · exact absurd h' (by simp)
  | call t n =>
    simp only [step] at h'
    split at h'
    · exact absurd h' (by simp)
    · rename_i co hr
      split at h'
      · exact absurd h' (by simp)
      · split at h'
        · exact callStep_effect hcur hr h'
        · exact absurd h' (by simp)
  | master => exact .moves (masterStep_moves h')
  | parallel => exact parallelStep_effect h'
  | send r => exact .send rfl (sendStep_moves h')
  | epoll r =>
    simp only [step] at h'
    split at h'
    · split at h'
      · rename_i hk
        exact eventLoopEpoll_effect hk rfl h'
      · exact absurd h' (by simp)
    · exact absurd h' (by simp)

/-- Only the `send` writes to the socketpair. -/
theorem step_sock {act : Act} (hcur : (s.sched .parallel).currentCoro = none)
    (hact : ∀ n, act ≠ .send n) (h' : step s act = some (.ok s')) : s'.sock = s.sock := by
  cases step_effect hcur h' with
  | moves hmoves => exact hmoves.sock_eq
  | send hs => exact absurd hs (hact _)
  | register _ _ hmoves => exact hmoves.sock_eq
  | exit _ _ _ hv | start _ hv | remove _ hv | epoll _ _ _ _ _ hv | mark _ _ hv
  | check _ _ _ _ hv => exact congrArg View.sock hv

end Corosched
