/-
# Entry functions that return

`coro_init` calls `abort` when an entry function returns to it.  `sched_run` and `parallel_run` end
in a context transfer and `scheduleback_run` in nothing; only `event_loop` has a way out, which it
takes when it finds its stop flag set and when `epoll_wait` fails.  `entries_stay` says that nothing
else in the program aborts, in whatever state its memory is.
-/
import Corosched.Handback
import Corosched.Lib.Avoid

namespace Corosched

open State RbZip

/-! ## 1. The tree -/

section RbTree

variable {P D : Type} {m : Mem P D} {p q root sentinel node temp : Option P} {d : Dir} {n : Nat}

@[simp] theorem deref_avoids {α : Type} {x : Option α} : Avoids .abort (deref x) := by
  cases x <;> simp [deref]

@[simp] theorem getChild_avoids : Avoids .abort (getChild m d p) := by simp [getChild]

@[simp] theorem getParent_avoids : Avoids .abort (getParent m p) := by simp [getParent]

@[simp] theorem rbtreeIsRed_avoids : Avoids .abort (rbtreeIsRed m p) := by simp [rbtreeIsRed]

variable [DecidableEq P]

@[simp] theorem putChild_avoids : Avoids .abort (putChild m d p q) := by simp [putChild]

@[simp] theorem putParent_avoids : Avoids .abort (putParent m p q) := by simp [putParent]

@[simp] theorem putRed_avoids {c : Bool} : Avoids .abort (putRed m p c) := by simp [putRed]

@[simp] theorem rehang_avoids : Avoids .abort (rehang d m root node temp) := by simp [rehang]

@[simp] theorem rotate_avoids : Avoids .abort (rotate d m root sentinel node) := by
  simp [rotate, reparent]

/-- The descent, by induction on its budget; the other loops alike. -/
theorem insertDescend_avoids {key : Int} : Avoids .abort (insertDescend m sentinel key n temp) := by
  induction n generalizing temp with
  | zero => simp [insertDescend]
  | succ n ih => simp [insertDescend, ih]

theorem insertFix_avoids : Avoids .abort (insertFix sentinel n m root node) := by
  induction n generalizing m root node with
  | zero => simp [insertFix]
  | succ n ih => simp [insertFix, insertFixBody, insertFixRecolour, insertFixTurn, ih]

theorem rbtreeNodeMin_avoids : Avoids .abort (rbtreeNodeMin m sentinel n node) := by
  induction n generalizing node with
  | zero => simp [rbtreeNodeMin]
  | succ n ih => simp [rbtreeNodeMin, ih]

theorem deleteFix_avoids : Avoids .abort (deleteFix sentinel n m root temp) := by
  induction n generalizing m root temp with
  | zero => simp [deleteFix]
  | succ n ih =>
    simp [deleteFix, deleteFixBody, deleteFixSibling, deleteFixNear, deleteFixFar, bothBlack, ih]

end RbTree

/-- **The registry** never aborts. -/
@[simp] theorem schedRegisterCoro_avoids {r : Registry} {a : Addr} :
    Avoids .abort (schedRegisterCoro r a) := by
  simp [schedRegisterCoro, rbtreeInsert, insertDescend_avoids, insertFix_avoids]

@[simp] theorem Registry.delete_avoids {r : Registry} {a : Addr} :
    Avoids .abort (r.delete a) := by
  simp [Registry.delete, rbtreeDelete, deleteChoose, deleteUnlink, deleteMove, deleteSplice,
    reparent, rbtreeNodeMin_avoids, deleteFix_avoids]

/-! ## 2. The functions of the program -/

section Functions

variable {s : State} {h t : SchedId} {a : Addr} {p : Option Addr}

@[simp] theorem load_avoids : Avoids .abort (s.load a) := by
  unfold State.load
  cases s.coro a <;> simp

@[simp] theorem ASSERT_avoids {b : Bool} : Avoids .abort (ASSERT b) := by
  cases b <;> simp

@[simp] theorem ofQueue_avoids {α : Type} {x : Except Tailq.Bad α} : Avoids .abort (ofQueue x) := by
  cases x with
  | ok a => simp [ofQueue]
  | error b => cases b <;> simp [ofQueue]

@[simp] theorem insertHead_avoids : Avoids .abort (insertHead s h a) := by simp [insertHead]

@[simp] theorem pop_avoids : Avoids .abort (pop s h) := by
  simp only [pop, Avoids.bind_iff, ofQueue_avoids, true_and]
  rintro ⟨q, head⟩ -
  cases head <;> simp

@[simp] theorem coroReady_avoids : Avoids .abort (coroReady s p) := by
  simp [coroReady, insertTail]

@[simp] theorem coroReadyImmediatly_avoids : Avoids .abort (coroReadyImmediatly s p) := by
  simp [coroReadyImmediatly]

@[simp] theorem switchToSched_avoids : Avoids .abort (switchToSched s t h) := by
  unfold switchToSched
  split
  · simp
  · cases t with
    | master => cases hm : s.master <;> simp
    | parallel => cases hp : s.parallel <;> simp

@[simp] theorem coroExit_avoids : Avoids .abort (coroExit s t p) := by simp [coroExit]

@[simp] theorem coroYield_avoids : Avoids .abort (coroYield s t p) := by simp [coroYield]

@[simp] theorem coroSwitchToParallel_avoids : Avoids .abort (coroSwitchToParallel s t p) := by
  simp [coroSwitchToParallel]

/-- The loop of `sched_run_once`, by induction on its budget. -/
@[simp] theorem schedRunOnceFrom_avoids {n : Nat} : Avoids .abort (schedRunOnceFrom n s) := by
  induction n generalizing s with
  | zero => simp [schedRunOnceFrom]
  | succ n ih =>
    simp only [schedRunOnceFrom, Avoids.ite_iff, Avoids.pure, Avoids.bind_iff, pop_avoids,
      implies_true, true_and]
    rintro - - ⟨s₁, head⟩ -
    cases head with
    | none => simp
    | some c =>
      have hswitch : ∀ x : State, Avoids .abort (switchToCoro x c) := by
        intro x
        unfold switchToCoro
        cases x.master <;> simp
      simp [ih, hswitch]

@[simp] theorem schedRunOnce_avoids : Avoids .abort (schedRunOnce s) := schedRunOnceFrom_avoids

@[simp] theorem schedRun_avoids : Avoids .abort (schedRun s) := by
  simp only [schedRun, Avoids.ite_iff, Avoids.pure, Avoids.bind_iff, pop_avoids, implies_true,
    true_and]
  rintro - ⟨s₁, head⟩ -
  cases head <;> simp

@[simp] theorem schedRunBack_avoids : Avoids .abort (schedRunBack s a) := by simp [schedRunBack]

@[simp] theorem registerEvent_avoids {q : EventPtr} : Avoids .abort (registerEvent s t q) := by
  simp [registerEvent]

@[simp] theorem eventCallback_avoids {q : Option EventPtr} {w : BitVec 32} :
    Avoids .abort (eventCallback s q w) := by
  simp [eventCallback]

@[simp] theorem coroSpawn_avoids {fn : Body} : Avoids .abort (coroSpawn s h fn p) := by
  cases p <;> simp [coroSpawn]

@[simp] theorem coroSentParallel_avoids : Avoids .abort (coroSentParallel s a) := by
  simp only [coroSentParallel, Avoids.bind_iff, load_avoids, ASSERT_avoids, true_and]
  rintro k - u -
  cases s.mutex <;> simp

@[simp] theorem coroSwitchToMaster_avoids {r : SendResult} :
    Avoids .abort (coroSwitchToMaster s a r) := by
  cases r <;> simp [coroSwitchToMaster]

end Functions

/-! ## 3. The steps -/

/-- **`event_loop` leaves its loop** in this step: it tests its stop flag and finds it set, or its
`epoll_wait` returns `-1`. -/
def LeavesLoop (s : State) (act : Act) : Prop :=
  ∃ loc co k pc em, s.master = .exec loc co ∧ s.coro co = some k ∧ k.ctx = .eventLoop pc ∧
    s.eventmgr = some em ∧
    (act = .master ∧ pc = .test ∧ em.stop = true ∨
      act = .epoll none ∧ (pc = .poll ∨ pc = .wait))

variable {s s' : State} {act : Act} {a co loc : Addr} {k : Coroutine} {pc : EvPc} {t h : SchedId}
  {r : Except Fault State}

theorem spawnStep_avoids {fn : Entry} {mem : Option Addr} (h' : spawnStep s h fn mem = some r) :
    Avoids .abort r := by
  rw [spawnStep] at h'
  split at h'
  · simp only [Option.some.injEq] at h'
    subst h'
    simp
  · exact absurd h' (by simp)

theorem callStep_avoids {n : Call} (h' : callStep s t co n = some r) : Avoids .abort r := by
  cases n with
  | spawn sched fn mem => exact spawnStep_avoids h'
  | runOnce | registerEvent | removeEvent | transfer =>
    simp only [callStep] at h'
    split at h'
    · simp only [Option.some.injEq] at h'
      subst h'
      simp
    · exact absurd h' (by simp)
  | _ =>
    simp only [callStep, Option.some.injEq] at h'
    subst h'
    simp [envStop]

/-- `event_loop` between two calls of `epoll_wait`. -/
theorem eventLoopRun_avoids (hm : s.master = .exec loc co) (hk : s.coro co = some k)
    (hctx : k.ctx = .eventLoop pc) (h' : eventLoopRun s co k pc = some r) :
    Avoids .abort r ∨ LeavesLoop s .master := by
  rw [eventLoopRun] at h'
  split at h'
  · simp only [Option.some.injEq] at h'
    subst h'
    exact Or.inl (by simp)
  · rename_i em hem
    split at h'
    · exact absurd h' (by simp)
    · rename_i pc' call hpc
      simp only [Option.some.injEq] at h'
      subst h'
      cases call with
      | nothing | callback | runOnce => exact Or.inl (by simp)
      | ret =>
        refine Or.inr ⟨loc, co, k, pc, em, hm, hk, hctx, hem, Or.inl ⟨rfl, ?_⟩⟩
        cases pc with
        | test =>
          refine ⟨rfl, ?_⟩
          cases hstop : em.stop with
          | true => rfl
          | false =>
            simp only [eventLoopStep, hstop, Bool.false_eq_true, if_false] at hpc
            split at hpc <;> simp at hpc
        | each i nsd =>
          simp only [eventLoopStep] at hpc
          split at hpc <;> simp at hpc
        | poll | once | wait => simp [eventLoopStep] at hpc

theorem masterStep_avoids (h' : masterStep s = some r) :
    Avoids .abort r ∨ LeavesLoop s .master := by
  rw [masterStep] at h'
  cases hm : s.master with
  | main | done => simp [hm] at h'
  | envLock =>
    simp only [hm] at h'
    split at h'
    · simp only [Option.some.injEq] at h'
      subst h'
      exact Or.inl (by simp)
    · exact absurd h' (by simp)
  | exec loc co =>
    simp only [hm] at h'
    split at h'
    · simp only [Option.some.injEq] at h'
      subst h'
      exact Or.inl (by simp)
    · rename_i k hk
      split at h'
      · exact absurd h' (by simp)
      · rename_i pc hctx
        exact eventLoopRun_avoids hm hk hctx h'
  | envUnlock | loop | sentTrylock | sentInsert | sentUnlock | readyImm | back =>
    simp only [hm, Option.some.injEq] at h'
    subst h'
    exact Or.inl (by simp [coroSentParallelInsert])

theorem parallelStep_avoids (h' : parallelStep s = some r) : Avoids .abort r := by
  rw [parallelStep] at h'
  cases hp : s.parallel with
  | notStarted | exec | sending | done => simp [hp] at h'
  | mainUnlock | sleep | switchTo | toMaster =>
    simp only [hp, Option.some.injEq] at h'
    subst h'
    simp
  | mainLock | loop | trylock | check =>
    simp only [hp] at h'
    split at h' <;> simp only [Option.some.injEq, reduceCtorEq] at h'
    all_goals
      subst h'
      simp

theorem sendStep_avoids {n : SendResult} (h' : sendStep s n = some r) : Avoids .abort r := by
  rw [sendStep] at h'
  split at h'
  · split at h'
    · simp only [Option.some.injEq] at h'
      subst h'
      simp only [Avoids.bind_iff, coroSwitchToMaster_avoids, true_and]
      rintro ⟨s₁, rs⟩ -
      cases rs <;> simp
    · exact absurd h' (by simp)
  · exact absurd h' (by simp)

/-- **Nothing else aborts.** -/
theorem step_avoids (h' : step s act = some r) : Avoids .abort r ∨ LeavesLoop s act := by
  cases act with
  | main sched fn mem =>
    simp only [step] at h'
    split at h'
    · exact Or.inl (spawnStep_avoids h')
    · exact absurd h' (by simp)
  | envRun =>
    simp only [step] at h'
    split at h'
    · simp only [Option.some.injEq] at h'
      subst h'
      exact Or.inl (by simp)
    · exact absurd h' (by simp)
  | call t n =>
    simp only [step] at h'
    split at h'
    · exact absurd h' (by simp)
    · split at h'
      · simp only [Option.some.injEq] at h'
        subst h'
        exact Or.inl (by simp)
      · split at h'
        · exact Or.inl (callStep_avoids h')
        · exact absurd h' (by simp)
  | master => exact masterStep_avoids h'
  | parallel => exact Or.inl (parallelStep_avoids h')
  | send n => exact Or.inl (sendStep_avoids h')
  | epoll n =>
    simp only [step] at h'
    split at h'
    · rename_i loc co hm
      split at h'
      · rename_i cid pc status sched np hk
        unfold eventLoopEpoll at h'
        split at h'
        · exact absurd h' (by simp)
        · split at h'
          · exact absurd h' (by simp)
          · split at h'
            · simp only [Option.some.injEq] at h'
              subst h'
              exact Or.inl (by simp)
            · exact absurd h' (by simp)
        · rename_i em hem
          split at h'
          · rename_i hpc
            exact Or.inr ⟨loc, co, _, pc, em, hm, hk, rfl, hem, Or.inr ⟨rfl, hpc⟩⟩
          · exact absurd h' (by simp)
      · exact absurd h' (by simp)
    · exact absurd h' (by simp)

/-- A failed `epoll_wait` is one of `event_loop`. -/
theorem leavesLoop_of_epoll (h' : step s (.epoll none) = some r) : LeavesLoop s (.epoll none) := by
  simp only [step] at h'
  split at h'
  · rename_i loc co hm
    split at h'
    · rename_i cid pc status sched np hk
      cases hem : s.eventmgr with
      | none => simp [eventLoopEpoll, hem] at h'
      | some em =>
        simp only [eventLoopEpoll, hem, Option.ite_none_right_eq_some] at h'
        exact ⟨loc, co, _, pc, em, hm, hk, rfl, hem, Or.inr ⟨rfl, h'.1⟩⟩
    · exact absurd h' (by simp)
  · exact absurd h' (by simp)

/-- After a trylock that has failed `sched_run` goes on. -/
theorem sentTrylock_busy (hm : s.master = .sentTrylock a) (hx : s.mutex ≠ none)
    (h' : masterStep s = some (.ok s')) : s'.master = .loop := by
  obtain ⟨o, ho⟩ := Option.ne_none_iff_exists'.mp hx
  simp only [masterStep, hm, coroSentParallel, ho, Option.some.injEq, bind_eq_ok, pure_eq_ok,
    Except.ok.injEq] at h'
  obtain ⟨⟨s₁, rs⟩, ⟨k, -, -, -, hs₁⟩, hs'⟩ := h'
  obtain ⟨rfl, rfl⟩ := Prod.mk.inj hs₁
  simp only [reduceCtorEq, if_false, Except.ok.injEq] at hs'
  rw [← hs']

/-- **Leaving the loop aborts.** -/
theorem LeavesLoop.aborts (h' : LeavesLoop s act) : step s act = some (.error .abort) := by
  obtain ⟨loc, co, k, pc, em, hm, hk, hctx, hem, ⟨rfl, rfl, hstop⟩ | ⟨rfl, hpc⟩⟩ := h'
  · simp [step, masterStep, hm, hk, hctx, eventLoopRun, hem, eventLoopStep, hstop]
  · obtain ⟨cid, ctx, status, sched, np⟩ := k
    simp only at hctx
    subst hctx
    simp [step, hm, hk, eventLoopEpoll, hem, hpc]

/-! ## 4. Both sides of the hand-back -/

variable {x x' : Handback} {hact : HandbackAct}

/-- **What a step owes**: no entry function returns to `coro_init`; a loop whose call fails goes on,
and a loop that finds its stop flag set gives control back.  The scheduler loops do so by their
transfer; the step in which `event_loop` finds its flag set must not be an error either. -/
structure StaysIn (x : Handback) (hact : HandbackAct) : Prop where
  returns : handbackStep x hact ≠ some (.error .abort)
  epollFailed : hact = .sys (.epoll none) → ∀ r, handbackStep x hact = some r → ∃ x', r = .ok x'
  recvFailed : hact = .recv .eintr ∨ hact = .recv .eagain →
    ∃ x', handbackStep x hact = some (.ok x')
  masterBusy : ∀ c x', hact = .sys .master → x.sys.master = .sentTrylock c → x.sys.mutex ≠ none →
    handbackStep x hact = some (.ok x') → x'.sys.master = .loop
  parallelBusy : hact = .sys .parallel → x.sys.parallel = .trylock → x.sys.mutex ≠ none →
    handbackStep x hact = some (.ok { x with sys := { x.sys with parallel := .sleep } })
  masterStopped : hact = .sys .master → x.sys.master = .loop → (x.sys.sched .master).stop = true →
    handbackStep x hact = some (.ok { x with sys := { x.sys with master := .done } })
  parallelStopped : hact = .sys .parallel → x.sys.parallel = .loop →
    (x.sys.sched .parallel).stop = true →
    handbackStep x hact = some (.ok { x with sys := { x.sys with parallel := .done } })
  eventStopped : ∀ loc co k em, hact = .sys .master → x.sys.master = .exec loc co →
    x.sys.coro co = some k → k.ctx = .eventLoop .test → x.sys.eventmgr = some em → em.stop = true →
    ∃ x', handbackStep x hact = some (.ok x')

/-- `event_loop` leaves its loop in this step. -/
def LeavesEventLoop (x : Handback) : HandbackAct → Prop
  | .sys act => LeavesLoop x.sys act
  | .recv _ => False

/-- `scheduleback_run` does not abort. -/
theorem schedulebackRun_avoids {n : RecvResult} {r : Except Fault Handback}
    (h' : schedulebackRun x n = some r) : Avoids .abort r := by
  have hready : ∀ y : Handback, Avoids .abort (schedulebackReady y) := by
    intro y
    unfold schedulebackReady
    cases bytesPtr y.c <;> simp
  cases n with
  | eintr | eagain =>
    simp only [schedulebackRun, Option.some.injEq] at h'
    subst h'
    simp [hready]
  | got n =>
    simp only [schedulebackRun] at h'
    split at h'
    · simp only [Option.some.injEq] at h'
      subst h'
      exact hready _
    · exact absurd h' (by simp)

/-- What `scheduleback_run` has received is cleared before the next call of `recv`. -/
theorem schedulebackReady_cleared (h' : schedulebackReady x = .ok x') : x'.c = ptrBytes none := by
  unfold schedulebackReady at h'
  split at h'
  · simp only [pure_eq_ok, Except.ok.injEq] at h'
    exact h' ▸ rfl
  · simp only [bind_eq_ok, pure_eq_ok, Except.ok.injEq] at h'
    obtain ⟨k, -, s, -, rfl⟩ := h'
    rfl

theorem handbackStep_cleared (hc : x.c = ptrBytes none) (h' : handbackStep x hact = some (.ok x')) :
    x'.c = ptrBytes none := by
  cases hact with
  | sys act =>
    simp only [handbackStep, Option.map_eq_some_iff, bind_eq_ok, pure_eq_ok, Except.ok.injEq] at h'
    obtain ⟨r, -, s, -, rfl⟩ := h'
    exact hc
  | recv n =>
    cases n with
    | eintr =>
      simp only [handbackStep, schedulebackRun, pure_eq_ok, Option.some.injEq,
        Except.ok.injEq] at h'
      exact h' ▸ hc
    | eagain => exact schedulebackReady_cleared (Option.some.inj h')
    | got n =>
      simp only [handbackStep, schedulebackRun] at h'
      split at h'
      · exact schedulebackReady_cleared (Option.some.inj h')
      · exact absurd h' (by simp)

/-- **One step** stays in the loops if and only if `event_loop` does not leave its own. -/
theorem staysIn_iff (hc : x.c = ptrBytes none) : StaysIn x hact ↔ ¬ LeavesEventLoop x hact := by
  constructor
  · rintro h hl
    cases hact with
    | sys act =>
      have := LeavesLoop.aborts hl
      exact h.returns (by simp [handbackStep, this])
    | recv n => exact hl
  · intro hl
    have havoids : ∀ r, handbackStep x hact = some r → Avoids .abort r := by
      intro r hr
      cases hact with
      | sys act =>
        simp only [handbackStep, Option.map_eq_some_iff] at hr
        obtain ⟨r₀, hr₀, rfl⟩ := hr
        have := (step_avoids hr₀).resolve_right hl
        simp [this]
      | recv n => exact schedulebackRun_avoids hr
    refine ⟨fun h => havoids _ h rfl, ?_, ?_, ?_, ?_, ?_, ?_, ?_⟩
    · rintro rfl r hr
      simp only [handbackStep, Option.map_eq_some_iff] at hr
      obtain ⟨r₀, hr₀, -⟩ := hr
      exact absurd (leavesLoop_of_epoll hr₀) hl
    · rintro (rfl | rfl)
      · exact ⟨x, rfl⟩
      · refine ⟨{ x with c := ptrBytes none }, ?_⟩
        have hnull : bytesPtr x.c = none := by rw [hc, bytesPtr_ptrBytes]
        simp [handbackStep, schedulebackRun, schedulebackReady, hnull]
    · rintro c x' rfl hm hx hstep
      simp only [handbackStep, Option.map_eq_some_iff, bind_eq_ok, pure_eq_ok, Except.ok.injEq]
        at hstep
      obtain ⟨r₀, hr₀, s', rfl, rfl⟩ := hstep
      exact sentTrylock_busy hm hx hr₀
    · rintro rfl hp hx
      simp [handbackStep, step, parallelStep, hp, hx, sentBy]
    · rintro rfl hm hstop
      simp [handbackStep, step, masterStep, hm, schedRun, hstop, sentBy]
    · rintro rfl hp hstop
      simp [handbackStep, step, parallelStep, hp, hstop, sentBy]
    · rintro loc co k em rfl hm hk hctx hem hstop
      exact absurd ⟨loc, co, k, _, em, hm, hk, hctx, hem, Or.inl ⟨rfl, rfl, hstop⟩⟩ hl

/-- **When the entry functions stay in their loops.**  Every step of a run does what it owes, also
one that ends it in an error, if and only if `event_loop` never leaves its loop.  There is one call
of `env_run`: after a second one `sched_run` would be resumed behind its loop. -/
theorem entries_stay (em : Option Eventmanager) (as : List HandbackAct) :
    Machine.Meets handbackStep StaysIn (handbackStart (.boot em)) as ↔
      Machine.Meets handbackStep (fun x hact => ¬ LeavesEventLoop x hact)
        (handbackStart (.boot em)) as := by
  have hcleared : ∀ bs x, Machine.Run handbackStep Machine.Any (handbackStart (.boot em)) bs x →
      x.c = ptrBytes none := fun bs x hrun =>
    hrun.inv (fun _ _ _ hc _ hstep => handbackStep_cleared hc hstep) rfl
  constructor
  · intro h bs hact x hp hrun
    exact (staysIn_iff (hcleared bs x hrun)).mp (h bs hact x hp hrun)
  · intro h bs hact x hp hrun
    exact (staysIn_iff (hcleared bs x hrun)).mpr (h bs hact x hp hrun)

/-- `epoll_wait` is interrupted and returns `-1`; and a coroutine on the parallel thread calls
`env_stop` while `event_loop` is running.  Both times `event_loop` returns and the program
aborts. -/
theorem event_loop_returns :
    (∃ x, Machine.exec handbackStep Machine.Any
        (handbackStart (.boot (some ⟨false, fun _ => ⟨0, none⟩⟩)))
        [.sys (.main .master .eventLoop (some ⟨16, by decide⟩)), .sys .envRun, .sys .master,
          .sys .master, .sys .master, .sys .master] = some (.ok x) ∧
      handbackStep x (.sys (.epoll none)) = some (.error .abort) ∧
      ¬ StaysIn x (.sys (.epoll none))) ∧
    ∃ x, Machine.exec handbackStep Machine.Any
        (handbackStart (.boot (some ⟨false, fun _ => ⟨0, none⟩⟩)))
        [.sys (.main .master .eventLoop (some ⟨16, by decide⟩)),
          .sys (.main .parallel .user (some ⟨32, by decide⟩)), .sys .envRun, .sys .master,
          .sys .master, .sys .master, .sys .parallel, .sys .parallel, .sys .parallel,
          .sys .parallel, .sys .parallel, .sys .parallel, .sys (.call .parallel .envStop)] =
          some (.ok x) ∧
      handbackStep x (.sys .master) = some (.error .abort) ∧ ¬ StaysIn x (.sys .master) :=
  ⟨⟨_, rfl, rfl, fun h => h.returns rfl⟩, _, rfl, rfl, fun h => h.returns rfl⟩

end Corosched
