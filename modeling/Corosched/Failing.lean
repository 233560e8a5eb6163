/-
# Where a program fails

Every access of the model to memory, every `ASSERT` and every context switch can fail.  `Fails`
lists the calls and the places of the framework code where one does, in terms of what the program
has done: who is running, what is in front of the queue, what an event names.  `fails_exactly`:
after every clean run, a step other than a call of `event_callback` fails exactly where the list
says, and in that way.

So what such a program must avoid to be free of failures is this list, and the only way to touch
freed memory is to register an event for a coroutine that is gone.
-/
import Corosched.Owner

namespace Corosched

open State Tailq

variable {s : State} {loc co x : Addr} {k : Coroutine} {t : SchedId} {act : Act} {n : Call}
  {f : Fault} {pc : EvPc} {em : Eventmanager}

/-! ## 1. The list -/

/-- The coroutine `co`, which is in a user function, runs on the thread `t`; `k` is its record. -/
structure Caller (s : State) (t : SchedId) (co : Addr) (k : Coroutine) : Prop where
  runs : s.running t = some co
  stored : s.coro co = some k
  user : k.ctx = .user

/-- The coroutine `co` runs on the master thread and is at `pc` in `event_loop`. -/
structure InLoop (s : State) (co : Addr) (pc : EvPc) : Prop where
  runs : s.running .master = some co
  stored : ∃ k, s.coro co = some k ∧ k.ctx = .eventLoop pc

/-- What `sched_run_once` would pop wants to go to the parallel scheduler. -/
structure FrontWantsParallel (s : State) (x : Addr) (c : Coroutine) : Prop where
  goes : (s.sched .master).stop = false
  front : (queuesOf s.hist .master).head? = some x
  stored : s.coro x = some c
  wants : c.needParallel = true

/-- The events that `register_event` does not accept from `co`. -/
inductive Unregistrable (s : State) (co : Addr) (ev : Event) : Fault → Prop
  | noManager (hem : s.eventmgr = none) : Unregistrable s co ev .assertFail
  | badFd (hfd : ev.sockfd ≤ 0) : Unregistrable s co ev .assertFail
  | noCoro (hco : ev.coro = none) : Unregistrable s co ev .assertFail
  /-- it is for another coroutine -/
  | other {x : Addr} {c : Coroutine} (hco : ev.coro = some x) (hx : s.coro x = some c)
      (hne : x ≠ co) : Unregistrable s co ev .assertFail
  /-- it is for a coroutine that has been freed, and the assertions have passed -/
  | freed {x : Addr} {em : Eventmanager} (hem : s.eventmgr = some em) (hfd : 0 < ev.sockfd)
      (hco : ev.coro = some x) (hx : s.coro x = none) : Unregistrable s co ev .dangling

/-- **The steps that fail, and how.** -/
inductive Fails (s : State) : Act → Fault → Prop
  -- the calls of a running coroutine
  | givesUp {co : Addr} {k : Coroutine} {n : Call} (hc : Caller s .parallel co k)
      (hn : n = .yield ∨ n = .exit) : Fails s (.call .parallel n) .assertFail
  | switchToParallel {t : SchedId} {co : Addr} {k : Coroutine} (hc : Caller s t co k)
      (hnp : k.needParallel = true) (hready : k.status = .ready) :
      Fails s (.call t .switchToParallel) .assertFail
  | runOnce {co x : Addr} {k c : Coroutine} (hc : Caller s .master co k)
      (hx : FrontWantsParallel s x c) : Fails s (.call .master .runOnce) .assertFail
  | registerEvent {co : Addr} {k : Coroutine} {p : EventPtr} {ev : Event} {f : Fault}
      (hc : Caller s .master co k) (hev : Unregistrable s co ev f) :
      Fails s (.call .master (.registerEvent p ev)) f
  | envStop {t : SchedId} {co : Addr} {k : Coroutine} (hc : Caller s t co k)
      (hem : s.eventmgr = none) : Fails s (.call t .envStop) .nilDeref
  -- `sched_run`, behind a `coro_sent_parallel` that has inserted the coroutine
  | readyImm {c : Addr} (hm : s.master = .readyImm c) : Fails s .master .assertFail
  -- `event_loop`
  | noManager {co : Addr} {pc : EvPc} (hb : InLoop s co pc) (hem : s.eventmgr = none) :
      Fails s .master .assertFail
  | stopped {co : Addr} {em : Eventmanager} (hb : InLoop s co .test) (hem : s.eventmgr = some em)
      (hstop : em.stop = true) : Fails s .master .abort
  | bodyOnce {co x : Addr} {c : Coroutine} {em : Eventmanager} (hb : InLoop s co .once)
      (hem : s.eventmgr = some em) (hx : FrontWantsParallel s x c) : Fails s .master .assertFail
  | epoll {co : Addr} {pc : EvPc} {em : Eventmanager} (hb : InLoop s co pc)
      (hpc : pc = .poll ∨ pc = .wait) (hem : s.eventmgr = some em) : Fails s (.epoll none) .abort

/-- The next step of the master thread is a call of `event_callback`. -/
def Delivers (s : State) : Act → Prop
  | .master => ∃ k ∈ s.runningCoro .master, k.ctx.delivers = true
  | _ => False

/-! ## 2. The functions -/

theorem fails_with_iff {α : Type} {e : Fault} :
    (Except.error e : Except Fault α) = .error f ↔ f = e := by
  rw [Except.error.injEq, eq_comm]

/-- `coro_yield` fails on the parallel thread, and only there. -/
theorem Coherent.coroYield_fails_iff (hs : Coherent s) (hr : s.running t = some co) :
    coroYield s t (some co) = .error f ↔ t = .parallel ∧ f = .assertFail := by
  cases t with
  | master =>
    obtain ⟨loc, hm⟩ := running_master hr
    obtain ⟨-, ⟨k, hk, hlive, hsched⟩, hout, hcur⟩ := hs.exec hm
    obtain ⟨q, hcode, -⟩ := coroYield_ok hs.store hm hk hlive hsched hout hcur
    simp [hcode]
  | parallel =>
    obtain ⟨⟨k, hk, -, hsched⟩, -⟩ := hs.parallelExec (running_parallel hr)
    rw [coroYield_parallel hk hsched hs.parallelCur, fails_with_iff]
    simp

/-- `coro_exit` fails on the parallel thread, and only there. -/
theorem Coherent.coroExit_fails_iff (hs : Coherent s) (hr : s.running t = some co) :
    coroExit s t (some co) = .error f ↔ t = .parallel ∧ f = .assertFail := by
  cases t with
  | master =>
    obtain ⟨loc, hm⟩ := running_master hr
    obtain ⟨-, ⟨k, hk, -, hsched⟩, hout, hcur⟩ := hs.exec hm
    obtain ⟨hcode, -⟩ := coroExit_ok hs.store hm hk hsched hout hcur
    simp [hcode]
  | parallel =>
    obtain ⟨⟨k, hk, -, hsched⟩, -⟩ := hs.parallelExec (running_parallel hr)
    rw [coroExit_parallel hk hsched hs.parallelCur, fails_with_iff]
    simp

/-- **`sched_run_once` fails** if what it pops wants to go to the parallel scheduler. -/
theorem Coherent.schedRunOnce_fails_iff (hs : Coherent s) (hm : s.master = .exec loc co) :
    schedRunOnce s = .error f ↔ f = .assertFail ∧ ∃ x c, FrontWantsParallel s x c := by
  obtain ⟨-, ⟨k, hk, hlive, hsched⟩, hout, hcur⟩ := hs.exec hm
  by_cases hidle : (s.sched .master).stop = true ∨ queuesOf s.hist .master = []
  · rw [schedRunOnce_idle hs.store hidle]
    refine iff_of_false (by simp) ?_
    rintro ⟨-, x, c, hstop, hfront, -⟩
    rcases hidle with hidle | hidle
    · simp [hstop] at hidle
    · simp [hidle] at hfront
  · rw [not_or, Bool.not_eq_true] at hidle
    obtain ⟨hstop, hne⟩ := hidle
    obtain ⟨x, l, hl⟩ := List.exists_cons_of_ne_nil hne
    obtain ⟨c, hx, -⟩ := hs.store.queued _ x (hl ▸ List.mem_cons_self)
    obtain ⟨hfail, hgo⟩ := schedRunOnce_ok hs.store hm hk hlive hsched hout hcur hstop hl hx
    cases hnp : c.needParallel with
    | true =>
      have hfront : FrontWantsParallel s x c := ⟨hstop, by rw [hl]; rfl, hx, hnp⟩
      rw [hfail hnp, fails_with_iff]
      exact ⟨fun hf => ⟨hf, x, c, hfront⟩, And.left⟩
    | false =>
      obtain ⟨q, hcode, -⟩ := hgo hnp
      rw [hcode]
      refine iff_of_false (by simp) ?_
      rintro ⟨-, y, d, -, hfront, hy, hd⟩
      rw [hl, List.head?_cons, Option.some.injEq] at hfront
      subst hfront
      obtain rfl : c = d := Option.some.inj (hx.symm.trans hy)
      simp [hnp] at hd

/-- **`coro_switch_to_parallel` by a coroutine that is not `M_READY`** succeeds, although it links
the coroutine twice. -/
theorem Coherent.coroSwitchToParallel_linksTwice (hs : Coherent s) (hm : s.master = .exec loc co)
    (hk : s.coro co = some k) (hnp : k.needParallel = true) (hready : k.status ≠ .ready) :
    ∃ s', coroSwitchToParallel s .master (some co) = .ok (s', none) := by
  obtain ⟨-, ⟨k', hk', hlive, hsched⟩, hout, hcur⟩ := hs.exec hm
  obtain rfl : k = k' := Option.some.inj (hk.symm.trans hk')
  have hstatus : k.status = .free ∨ k.status = .run := by
    cases hst : k.status <;> simp_all
  have hstore : Store s.queue (Function.update s.coro co (some { k with status := .ready }))
      s.registry (queuesOf s.hist) := hs.store.setCoro hk rfl fun h hq => absurd hq (hout h)
  obtain ⟨q₁, hfirst, hst₁⟩ := insertHead_ok (h := .master)
    (s := s.setCoro co { k with status := .ready }) hstore (Function.update_self _ _ _) rfl hsched
    hout
  have hfront : queuesOf (s.hist ++ [.enqueueHead .master co]) .master =
      co :: queuesOf s.hist .master := by
    rw [queuesOf_snoc, replay, Function.update_self]
  obtain ⟨q₂, hsecond, -⟩ := insertTail_first hst₁.queues.represents hfront
  have hderef : deref k.sched = Except.ok SchedId.master := by rw [hsched, deref_some]
  have himm : coroReadyImmediatly s (some co) = .ok { s.setCoro co { k with status := .ready } with
      queue := q₁, hist := s.hist ++ [.enqueueHead .master co] } := by
    simp only [coroReadyImmediatly, deref_some, ok_bind, load_some hk, decide_eq_true hstatus,
      ASSERT_true, hderef, hfirst]
    rfl
  have hyield : ∃ s', coroYield { s.setCoro co { k with status := .ready } with
      queue := q₁, hist := s.hist ++ [.enqueueHead .master co] } .master (some co) = .ok s' := by
    simp [coroYield, coroReady, insertTail, State.load, State.setCoro, hderef, hcur, hsecond,
      switchToSched, hm, State.note]
  obtain ⟨s', hyield⟩ := hyield
  have hwants : (!k.needParallel) = false := by rw [hnp, Bool.not_true]
  refine ⟨s', ?_⟩
  unfold coroSwitchToParallel
  simp only [Option.isSome_some, ASSERT_true, ok_bind, deref_some, load_some hk, hwants,
    Bool.false_eq_true, if_false, himm, hyield, pure_eq_ok]

/-- **`coro_switch_to_parallel` fails** by the assertion of `coro_ready_immediatly`, on a coroutine
that is `M_READY`: one that `sched_run_once` has switched to, or one on the parallel thread. -/
theorem Coherent.coroSwitchToParallel_fails_iff (hs : Coherent s) (hr : s.running t = some co)
    (hk : s.coro co = some k) :
    coroSwitchToParallel s t (some co) = .error f ↔
      f = .assertFail ∧ k.needParallel = true ∧ k.status = .ready := by
  cases hnp : k.needParallel with
  | false => simp [coroSwitchToParallel, load_some hk, hnp]
  | true =>
    by_cases hready : k.status = .ready
    · have hcode : coroSwitchToParallel s t (some co) = .error .assertFail := by
        simp [coroSwitchToParallel, load_some hk, hnp, coroReadyImmediatly_ready hk hready]
      rw [hcode, fails_with_iff]
      simp [hready]
    · cases t with
      | master =>
        obtain ⟨loc, hm⟩ := running_master hr
        obtain ⟨s', hcode⟩ := hs.coroSwitchToParallel_linksTwice hm hk hnp hready
        simp [hcode, hready]
      | parallel =>
        obtain ⟨⟨k', hk', hready', -⟩, -⟩ := hs.parallelExec (running_parallel hr)
        obtain rfl : k = k' := Option.some.inj (hk.symm.trans hk')
        exact absurd hready' hready

/-- **`coro_yield(x)` on the master thread fails** unless `x` is the running coroutine. -/
theorem Coherent.coroYield_any_fails_iff (hs : Coherent s) (ho : Owned s)
    (hm : s.master = .exec loc co) :
    coroYield s .master (some x) = .error f ↔
      s.coro x = none ∧ f = .dangling ∨
        x ≠ co ∧ (∃ c, s.coro x = some c) ∧ f = .assertFail := by
  cases hx : s.coro x with
  | none =>
    have hcode : coroYield s .master (some x) = .error .dangling := by
      simp [coroYield, State.load, hx]
    rw [hcode, fails_with_iff]
    simp
  | some c =>
    by_cases hne : x = co
    · subst hne
      rw [hs.coroYield_fails_iff (by simp [State.running, hm])]
      simp
    · obtain ⟨h, hsched⟩ := Option.ne_none_iff_exists'.mp (ho.each x c hx).sched_ne
      have hcur : some x ≠ (s.sched h).currentCoro := by
        cases h with
        | master =>
          rw [(hs.exec hm).2.2.2, ne_eq, Option.some.injEq]
          exact hne
        | parallel => simp [hs.parallelCur]
      have hcode : coroYield s .master (some x) = .error .assertFail := by
        simp [coroYield, load_some hx, hsched, hcur]
      rw [hcode, fails_with_iff]
      simp [hne]

/-- `register_event` behind its assertions is `coro_yield` of the event's coroutine. -/
theorem registerEvent_accepted {p : EventPtr} {ev : Event} (hem : s.eventmgr = some em)
    (hfd : 0 < ev.sockfd) (hco : ev.coro = some x) :
    ∃ event interest,
      registerEvent { s with event := Function.update s.event p ev } t p =
        coroYield { s with event, interest, hist := s.hist ++ [.await p x] } t (some x) := by
  refine ⟨Function.update (Function.update s.event p ev) p
    { ev with events := epollEvents ev.mask }, epollAdd s.interest ev.sockfd p, ?_⟩
  simp only [registerEvent, hem, hco, hfd, Function.update_self, Option.isSome_some, decide_true,
    ASSERT_true, ok_bind, deref_some, State.note]

/-- **`register_event` fails** on the events of the list. -/
theorem Coherent.registerEvent_fails_iff (hs : Coherent s) (ho : Owned s)
    (hm : s.master = .exec loc co) {p : EventPtr} {ev : Event} :
    registerEvent { s with event := Function.update s.event p ev } .master p = .error f ↔
      Unregistrable s co ev f := by
  by_cases hrefused : s.eventmgr = none ∨ ev.sockfd ≤ 0 ∨ ev.coro = none
  · have hcode : registerEvent { s with event := Function.update s.event p ev } .master p =
        .error .assertFail := by
      unfold registerEvent
      cases hem : s.eventmgr with
      | none => simp
      | some em =>
        by_cases hfd : 0 < ev.sockfd
        · have hco : ev.coro = none := by simpa [hem, not_le.mpr hfd] using hrefused
          simp [hfd, hco]
        · simp [hfd]
    rw [hcode, fails_with_iff]
    constructor
    · rintro rfl
      rcases hrefused with hem | hfd | hco
      · exact .noManager hem
      · exact .badFd hfd
      · exact .noCoro hco
    · intro hev
      cases hev with
      | freed hem hfd hco => simp [hem, not_le.mpr hfd, hco] at hrefused
      | _ => rfl
  · simp only [not_or, not_le] at hrefused
    obtain ⟨hem, hfd, hco⟩ := hrefused
    obtain ⟨em, hem⟩ := Option.ne_none_iff_exists'.mp hem
    obtain ⟨x, hco⟩ := Option.ne_none_iff_exists'.mp hco
    obtain ⟨event, interest, hcode⟩ := registerEvent_accepted (t := .master) (p := p) hem hfd hco
    have hawait : Coherent { s with event, interest, hist := s.hist ++ [.await p x] } :=
      hs.quiet rfl rfl rfl (queuesOf_snoc _ _) rfl rfl fun _ => rfl
    have hown : Owned { s with event, interest, hist := s.hist ++ [.await p x] } :=
      ho.same rfl fun _ => id
    rw [hcode, hawait.coroYield_any_fails_iff hown hm]
    constructor
    · rintro (⟨hx, rfl⟩ | ⟨hne, ⟨c, hx⟩, rfl⟩)
      · exact .freed hem hfd hco hx
      · exact .other hco hx hne
    · intro hev
      cases hev with
      | noManager hem' => simp [hem] at hem'
      | badFd hfd' => exact absurd hfd (not_lt.mpr hfd')
      | noCoro hco' => simp [hco] at hco'
      | other hco' hx hne =>
        obtain rfl := Option.some.inj (hco.symm.trans hco')
        exact Or.inr ⟨hne, ⟨_, hx⟩, rfl⟩
      | freed _ _ hco' hx =>
        obtain rfl := Option.some.inj (hco.symm.trans hco')
        exact Or.inl ⟨hx, rfl⟩

/-! ## 3. The steps -/

theorem step_call (hc : Caller s t co k) : step s (.call t n) = callStep s t co n := by
  simp [step, hc.runs, hc.stored, hc.user]

theorem InLoop.step_master (hb : InLoop s co pc) :
    ∃ loc k, s.master = .exec loc co ∧ s.coro co = some k ∧ k.ctx = .eventLoop pc ∧
      step s .master = eventLoopRun s co k pc := by
  obtain ⟨hr, k, hk, hctx⟩ := hb
  obtain ⟨loc, hm⟩ := running_master hr
  exact ⟨loc, k, hm, hk, hctx, by simp [step, masterStep, hm, hk, hctx]⟩

/-- **A call of a running coroutine** fails where the list says. -/
theorem Coherent.call_fails (hs : Coherent s) (ho : Owned s) (hc : Caller s t co k)
    (hstep : callStep s t co n = some (.error f)) : Fails s (.call t n) f := by
  cases n with
  | spawn h fn mem =>
    obtain ⟨s', he⟩ := spawnStep_succeeds hs hstep
    simp at he
  | yield =>
    obtain ⟨rfl, rfl⟩ := (hs.coroYield_fails_iff hc.runs).mp (Option.some.inj hstep)
    exact .givesUp hc (.inl rfl)
  | exit =>
    obtain ⟨rfl, rfl⟩ := (hs.coroExit_fails_iff hc.runs).mp (Option.some.inj hstep)
    exact .givesUp hc (.inr rfl)
  | runOnce =>
    cases t with
    | master =>
      obtain ⟨loc, hm⟩ := running_master hc.runs
      obtain ⟨rfl, x, c, hx⟩ := (hs.schedRunOnce_fails_iff hm).mp (by simpa [callStep] using hstep)
      exact .runOnce hc hx
    | parallel => simp [callStep] at hstep
  | setNeedParallel b => simp [callStep, load_some hc.stored] at hstep
  | switchToParallel =>
    simp only [callStep, Option.some.injEq] at hstep
    cases hcode : coroSwitchToParallel s t (some co) with
    | ok r => simp [hcode] at hstep
    | error e =>
      simp only [hcode, error_bind, Except.error.injEq] at hstep
      subst hstep
      obtain ⟨rfl, hnp, hready⟩ := (hs.coroSwitchToParallel_fails_iff hc.runs hc.stored).mp hcode
      exact .switchToParallel hc hnp hready
  | registerEvent p ev =>
    cases t with
    | master =>
      obtain ⟨loc, hm⟩ := running_master hc.runs
      exact .registerEvent hc
        ((hs.registerEvent_fails_iff ho hm).mp (by simpa [callStep] using hstep))
    | parallel => simp [callStep] at hstep
  | removeEvent p => cases t <;> simp [callStep] at hstep
  | envStop =>
    cases hem : s.eventmgr with
    | none =>
      obtain rfl : f = .nilDeref := by
        simpa [callStep, envStop, State.setStop, hem, deref, eq_comm] using hstep
      exact .envStop hc hem
    | some em => simp [callStep, envStop, State.setStop, hem] at hstep
  | transfer =>
    cases t with
    | master => simp [callStep] at hstep
    | parallel =>
      have hp := running_parallel hc.runs
      obtain ⟨⟨k', hk', -, hsched⟩, -⟩ := hs.parallelExec hp
      simp [callStep, load_some hk', hsched, switchToSched, hp] at hstep

/-- Where `event_loop` is makes no difference to what is in front of the queue. -/
theorem frontWantsParallel_inBody (hk : s.coro co = some k) (ctx : Body) :
    (∃ x c, FrontWantsParallel (s.setCoro co { k with ctx }) x c) ↔
      ∃ x c, FrontWantsParallel s x c := by
  constructor
  · rintro ⟨x, c, hgo, hfront, hx, hnp⟩
    rcases eq_or_ne x co with rfl | hne
    · obtain rfl : { k with ctx } = c := by simpa [State.setCoro] using hx
      exact ⟨x, k, hgo, hfront, hk, hnp⟩
    · exact ⟨x, c, hgo, hfront, (Function.update_of_ne hne _ _).symm.trans hx, hnp⟩
  · rintro ⟨x, c, hgo, hfront, hx, hnp⟩
    rcases eq_or_ne x co with rfl | hne
    · obtain rfl : k = c := Option.some.inj (hk.symm.trans hx)
      exact ⟨x, _, hgo, hfront, Function.update_self _ _ _, hnp⟩
    · exact ⟨x, c, hgo, hfront, (Function.update_of_ne hne _ _).trans hx, hnp⟩

/-- **A step of `event_loop`** that calls no `event_callback` fails where the list says. -/
theorem Coherent.eventLoopRun_fails (hs : Coherent s) (hr : s.running .master = some co)
    (hk : s.coro co = some k) (hctx : k.ctx = .eventLoop pc) (hd : k.ctx.delivers = false)
    (hstep : eventLoopRun s co k pc = some (.error f)) : Fails s .master f := by
  have hb : InLoop s co pc := ⟨hr, k, hk, hctx⟩
  obtain ⟨loc, hm⟩ := running_master hr
  unfold eventLoopRun at hstep
  cases hem : s.eventmgr with
  | none =>
    obtain rfl : f = .assertFail := by simpa [hem, eq_comm] using hstep
    exact .noManager hb hem
  | some em =>
    simp only [hem] at hstep
    cases pc with
    | poll | wait => simp [eventLoopStep] at hstep
    | test =>
      by_cases hstop : em.stop = true
      · obtain rfl : f = .abort := by simpa [eventLoopStep, hstop, eq_comm] using hstep
        exact .stopped hb hem hstop
      · by_cases htask : schedHasTask s = true
        all_goals simp [eventLoopStep, hstop, htask] at hstep
    | each i nsd =>
      have hlast : ¬ i < nsd := by simpa [hctx, Body.delivers] using hd
      simp [eventLoopStep, hlast] at hstep
    | once =>
      simp only [eventLoopStep, Option.some.injEq] at hstep
      obtain ⟨rfl, hx⟩ := ((hs.goesInBody hm hk).schedRunOnce_fails_iff hm).mp hstep
      obtain ⟨x, c, hx⟩ := (frontWantsParallel_inBody hk _).mp hx
      exact .bodyOnce hb hem hx

/-- **A step of the master thread** fails where the list says. -/
theorem Coherent.master_fails (hs : Coherent s) (hd : ¬ Delivers s .master)
    (hstep : masterStep s = some (.error f)) : Fails s .master f := by
  have hms := hs.master
  rw [MasterOk] at hms
  rw [masterStep] at hstep
  cases hm : s.master with
  | main | envUnlock | sentUnlock | done => simp [hm] at hstep
  | envLock =>
    simp only [hm] at hstep
    split at hstep <;> simp at hstep
  | loop =>
    simp only [hm, Option.some.injEq] at hstep
    obtain ⟨-, hcode⟩ | ⟨x, l, c, q, -, -, -, -, -, ⟨-, hcode, -⟩ | ⟨-, hcode, -⟩⟩ :=
      schedRun_cases hs.store
    all_goals
      rw [hcode] at hstep
      simp at hstep
  | sentTrylock c =>
    simp only [hm] at hstep hms
    obtain ⟨⟨k, hk, -, hnp⟩, -⟩ := hms
    cases hmx : s.mutex <;> simp [coroSentParallel, load_some hk, hnp, hmx] at hstep
  | sentInsert c =>
    simp only [hm] at hstep hms
    obtain ⟨⟨k, hk, hready, -⟩, hout, -⟩ := hms
    have hstore : Store s.queue
        (Function.update s.coro c (some { k with sched := some .parallel })) s.registry
        (queuesOf s.hist) := hs.store.setCoro hk rfl fun h hq => absurd hq (hout h)
    obtain ⟨q, hcode, -⟩ := insertHead_ok (h := .parallel)
      (s := s.setCoro c { k with sched := some .parallel }) hstore (Function.update_self _ _ _)
      hready rfl hout
    simp [coroSentParallelInsert, load_some hk, hcode] at hstep
  | readyImm c =>
    simp only [hm] at hstep hms
    obtain ⟨⟨k, hk, hready⟩, -⟩ := hms
    obtain rfl : f = .assertFail := by
      simpa [coroReadyImmediatly_ready hk hready, eq_comm] using hstep
    exact .readyImm hm
  | exec loc co =>
    obtain ⟨-, ⟨k, hk, -⟩, -⟩ := hs.exec hm
    have hr : s.running .master = some co := by rw [State.running, hm]
    simp only [hm, hk] at hstep
    cases hctx : k.ctx with
    | user => simp [hctx] at hstep
    | eventLoop pc =>
      simp only [hctx] at hstep
      refine hs.eventLoopRun_fails hr hk hctx ?_ hstep
      exact (Bool.not_eq_true _).mp fun hdel => hd ⟨k, runningCoro_some hr hk, hdel⟩
  | back c =>
    simp only [hm, Option.some.injEq] at hstep hms
    obtain ⟨k, hk⟩ := hms
    by_cases hexit : k.status = .exit
    · have hout : Out s.hist c := by
        intro h hq
        obtain ⟨k', hk', hr, -⟩ := hs.store.queued h c hq
        obtain rfl : k = k' := Option.some.inj (hk.symm.trans hk')
        simp [hexit] at hr
      obtain ⟨r, hcode, -⟩ := schedRunBack_exit hs.store hk hexit hout
      simp [hcode] at hstep
    · simp [schedRunBack_live hk hexit] at hstep

/-- **The framework code on the parallel thread** does not fail. -/
theorem Coherent.parallel_succeeds (hs : Coherent s) : parallelStep s ≠ some (.error f) := by
  intro hstep
  rw [parallelStep] at hstep
  cases hp : s.parallel with
  | notStarted | mainUnlock | sleep | exec | sending | done => simp [hp] at hstep
  | mainLock | loop | trylock =>
    simp only [hp] at hstep
    split at hstep <;> simp at hstep
  | check =>
    simp only [hp, empty_eq hs.store] at hstep
    cases hl : queuesOf s.hist .parallel with
    | nil => simp [hl] at hstep
    | cons x l =>
      obtain ⟨q, hpop, -⟩ := pop_cons hs.store hl
      simp [hl, hpop] at hstep
  | switchTo co | toMaster co =>
    obtain ⟨⟨k, hk, -⟩, -⟩ := hs.parallel.held (b := co) (by rw [hp]; rfl)
    simp [hp, load_some hk] at hstep

/-- **The return of the `send`** does not fail. -/
theorem Coherent.send_succeeds (hs : Coherent s) {r : SendResult} :
    sendStep s r ≠ some (.error f) := by
  intro hstep
  rw [sendStep] at hstep
  split at hstep
  · rename_i co hp
    obtain ⟨⟨k, hk, -⟩, -⟩ := hs.parallel.held (b := co) (by rw [hp]; rfl)
    split at hstep
    · cases r with
      | eintr | fail => simp [coroSwitchToMaster, load_some hk] at hstep
      | sent m =>
        by_cases hm : m = sizeofCoroutine
        all_goals simp [coroSwitchToMaster, load_some hk, hm] at hstep
    · simp at hstep
  · simp at hstep

/-- **A return of `epoll_wait`** fails with `-1`. -/
theorem epoll_fails {r : Option (List EpollEvent)} (hstep : step s (.epoll r) = some (.error f)) :
    Fails s (.epoll r) f := by
  simp only [step] at hstep
  split at hstep
  · rename_i loc co hm
    split at hstep
    · rename_i cid pc status sched np hk
      have hb : InLoop s co pc := ⟨by rw [State.running, hm], _, hk, rfl⟩
      unfold eventLoopEpoll at hstep
      split at hstep
      · simp at hstep
      · split at hstep
        · simp at hstep
        · split at hstep <;> simp at hstep
      · rename_i em hem
        split at hstep
        · rename_i hpc
          obtain rfl : f = .abort := by simpa [eq_comm] using hstep
          exact .epoll hb hpc hem
        · simp at hstep
    · simp at hstep
  · simp at hstep

/-- **A step that fails is in the list.** -/
theorem Coherent.step_fails (hs : Coherent s) (ho : Owned s) (hd : ¬ Delivers s act)
    (hstep : Corosched.step s act = some (.error f)) : Fails s act f := by
  cases act with
  | main h fn mem =>
    simp only [Corosched.step] at hstep
    split at hstep
    · obtain ⟨s', he⟩ := spawnStep_succeeds hs hstep
      simp at he
    · simp at hstep
  | envRun =>
    simp only [Corosched.step] at hstep
    split at hstep <;> simp at hstep
  | call t n =>
    cases hr : s.running t with
    | none => simp [Corosched.step, hr] at hstep
    | some co =>
      obtain ⟨k, hk⟩ : ∃ k, s.coro co = some k := by
        cases t with
        | master =>
          obtain ⟨loc, hm⟩ := running_master hr
          obtain ⟨-, ⟨k, hk, -⟩, -⟩ := hs.exec hm
          exact ⟨k, hk⟩
        | parallel =>
          obtain ⟨⟨k, hk, -⟩, -⟩ := hs.parallelExec (running_parallel hr)
          exact ⟨k, hk⟩
      by_cases huser : k.ctx = .user
      · have hc : Caller s t co k := ⟨hr, hk, huser⟩
        exact hs.call_fails ho hc (step_call hc ▸ hstep)
      · simp [Corosched.step, hr, hk, huser] at hstep
  | master => exact hs.master_fails hd hstep
  | parallel => exact absurd hstep hs.parallel_succeeds
  | send r => exact absurd hstep hs.send_succeeds
  | epoll r => exact epoll_fails hstep

/-- **What is in the list fails.** -/
theorem Fails.fails (h : Fails s act f) (hs : Coherent s) (ho : Owned s) :
    step s act = some (.error f) := by
  cases h with
  | givesUp hc hn =>
    rw [step_call hc]
    rcases hn with rfl | rfl
    · exact congrArg some ((hs.coroYield_fails_iff hc.runs).mpr ⟨rfl, rfl⟩)
    · exact congrArg some ((hs.coroExit_fails_iff hc.runs).mpr ⟨rfl, rfl⟩)
  | switchToParallel hc hnp hready =>
    rw [step_call hc]
    have hcode := (hs.coroSwitchToParallel_fails_iff hc.runs hc.stored).mpr ⟨rfl, hnp, hready⟩
    simp [callStep, hcode]
  | runOnce hc hx =>
    obtain ⟨loc, hm⟩ := running_master hc.runs
    rw [step_call hc]
    exact congrArg some ((hs.schedRunOnce_fails_iff hm).mpr ⟨rfl, _, _, hx⟩)
  | registerEvent hc hev =>
    obtain ⟨loc, hm⟩ := running_master hc.runs
    rw [step_call hc]
    exact congrArg some ((hs.registerEvent_fails_iff ho hm).mpr hev)
  | envStop hc hem =>
    rw [step_call hc]
    simp [callStep, Corosched.envStop, State.setStop, hem, deref]
  | readyImm hm =>
    have hms := hs.master
    rw [MasterOk, hm] at hms
    obtain ⟨⟨k, hk, hready⟩, -⟩ := hms
    simp [Corosched.step, masterStep, hm, coroReadyImmediatly_ready hk hready]
  | noManager hb hem =>
    obtain ⟨loc, k, hm, hk, hctx, hcode⟩ := hb.step_master
    rw [hcode]
    simp [eventLoopRun, hem]
  | stopped hb hem hstop =>
    obtain ⟨loc, k, hm, hk, hctx, hcode⟩ := hb.step_master
    rw [hcode]
    simp [eventLoopRun, hem, eventLoopStep, hstop]
  | bodyOnce hb hem hx =>
    obtain ⟨loc, k, hm, hk, hctx, hcode⟩ := hb.step_master
    have hx' := (frontWantsParallel_inBody hk (.eventLoop .wait)).mpr ⟨_, _, hx⟩
    have hfail := ((hs.goesInBody hm hk).schedRunOnce_fails_iff hm).mpr ⟨rfl, hx'⟩
    rw [hcode]
    simp [eventLoopRun, hem, eventLoopStep, hfail]
  | epoll hb hpc hem =>
    obtain ⟨hr, ⟨cid, ctx, status, sched, np⟩, hk, rfl⟩ := hb
    obtain ⟨loc, hm⟩ := running_master hr
    simp [step, hm, hk, eventLoopEpoll, hem, hpc]

end Corosched
