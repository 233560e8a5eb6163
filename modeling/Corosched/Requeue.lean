/-
# Who queues the caller

Two functions of the master scheduler give up control and must leave their caller queued once.
`coro_switch_to_parallel` inserts it at the head and then yields, which inserts it again;
`sched_run_once` inserts its caller, and then hands a coroutine it has popped to
`coro_switch_to_parallel`, which was written for the running one.
-/
import Corosched.Steps

namespace Corosched

open State Tailq

variable {s s' : State} {L : Lists} {loc co e x c : Addr} {k ke : Coroutine} {l : List Addr}
  {h t : SchedId}

/-! ## 1. `coro_switch_to_parallel` -/

/-- **What `coro_switch_to_parallel(co)` is for**: with `need_parallel` set the scheduler goes on,
with `co` ready and once in the queue, in front; otherwise `M_ERR` is returned and nothing
changes. -/
def QueuesCaller (s : State) (L : Lists) (co : Addr) (k : Coroutine) : Prop :=
  if k.needParallel = true then
    ∃ s' loc k', coroSwitchToParallel s .master (some co) = .ok (s', none) ∧
      s'.master = .back loc ∧ Queues s'.queue (Function.update L .master (co :: L .master)) ∧
      s'.coro co = some k' ∧ k'.status = .ready
  else coroSwitchToParallel s .master (some co) = .ok (s, some .err)

theorem ofQueue_eq_ok {α : Type} {y : Except Bad α} {a : α} : ofQueue y = .ok a ↔ y = .ok a := by
  cases y with
  | ok b => simp
  | error b => cases b <;> simp [ofQueue]

/-- The switch leaves the queues as they are. -/
theorem switchToSched_queue (h' : switchToSched s t h = .ok s') : s'.queue = s.queue := by
  obtain ⟨-, ⟨-, loc, co, -, rfl⟩ | ⟨-, co, -, rfl⟩⟩ := switchToSched_inv h'
  · rfl
  · rfl

/-- `coro_ready_immediatly` is one insertion at the head. -/
theorem coroReadyImmediatly_inv (hk : s.coro co = some k) (hsched : k.sched = some h)
    (h' : coroReadyImmediatly s (some co) = .ok s') :
    s.queue.insertHead h co = .ok s'.queue ∧ s'.coro co = some { k with status := .ready } := by
  simp only [coroReadyImmediatly, deref_some, ok_bind, load_some hk, hsched, insertHead,
    bind_eq_ok, ofQueue_eq_ok, pure_eq_ok, Except.ok.injEq] at h'
  obtain ⟨-, -, q, hq, rfl⟩ := h'
  exact ⟨hq, by simp [State.note, State.setCoro, hsched]⟩

/-- `coro_yield` is one insertion at the tail. -/
theorem coroYield_inv (hk : s.coro co = some k) (hsched : k.sched = some h)
    (h' : coroYield s t (some co) = .ok s') : s.queue.insertTail h co = .ok s'.queue := by
  simp only [coroYield, coroReady, deref_some, ok_bind, load_some hk, hsched, insertTail,
    Option.isSome_some, ASSERT_true, bind_eq_ok, ofQueue_eq_ok, pure_eq_ok, Except.ok.injEq] at h'
  obtain ⟨-, -, s₁, ⟨-, -, q, hq, rfl⟩, -, -, hswitch⟩ := h'
  rw [switchToSched_queue hswitch]
  exact hq

/-- **The caller is inserted twice**: the second insertion cuts off what was queued, or links the
caller to itself. -/
theorem coroSwitchToParallel_twice (hq : Queues s.queue L) (hk : s.coro co = some k)
    (hsched : k.sched = some .master) (hout : ∀ h, co ∉ L h) (hnp : k.needParallel = true)
    {rs : Option Rstatus} (h' : coroSwitchToParallel s .master (some co) = .ok (s', rs)) :
    s'.queue.val (.next co) ≠ (L .master).head? := by
  simp only [coroSwitchToParallel, Option.isSome_some, ASSERT_true, ok_bind, deref_some,
    load_some hk, hnp, Bool.not_true, Bool.false_eq_true, if_false, bind_eq_ok, pure_eq_ok,
    Except.ok.injEq, Prod.mk.injEq] at h'
  obtain ⟨s₁, himm, s₂, hyield, rfl, -⟩ := h'
  obtain ⟨hhead, hk₁⟩ := coroReadyImmediatly_inv hk hsched himm
  have htail := coroYield_inv hk₁ hsched hyield
  obtain ⟨e, he⟩ : ∃ e, s.queue.entry co = some e := by
    cases he : s.queue.entry co with
    | none =>
      simp [Heap.insertHead, Heap.setNext, Heap.get, he, throw, throwThe, MonadExceptOf.throw,
        bind, Except.bind] at hhead
    | some e => exact ⟨e, rfl⟩
  obtain ⟨q₁, hcode, hq₁, -⟩ := insertHead_spec hq .master he hout
  obtain rfl := Except.ok.inj (hcode.symm.trans hhead)
  obtain ⟨q₂, hcode₂, hne⟩ :=
    insertTail_first hq₁.represents (h := .master) (Function.update_self _ _ _)
  obtain rfl := Except.ok.inj (hcode₂.symm.trans htail)
  exact hne

/-- **When the caller is queued once.**  For any well-formed queues without `co`,
`coro_switch_to_parallel(co)` does what it is for if and only if `need_parallel` is not set. -/
theorem caller_queued_once (hq : Queues s.queue L) (hk : s.coro co = some k)
    (hsched : k.sched = some .master) (hout : ∀ h, co ∉ L h) :
    QueuesCaller s L co k ↔ k.needParallel = false := by
  cases hnp : k.needParallel with
  | true =>
    simp only [QueuesCaller, hnp, if_true, Bool.true_eq_false, iff_false]
    rintro ⟨s', loc, k', hcode, -, hq', -, -⟩
    refine coroSwitchToParallel_twice hq hk hsched hout hnp hcode ?_
    exact hq'.represents.next (Function.update_self _ _ _)
  | false =>
    simp [QueuesCaller, hnp, coroSwitchToParallel, load_some hk]

/-- A coroutine that has not set `need_parallel` calls it, with another one queued. -/
theorem caller_queued_once_unmarked :
    ∃ s k, Machine.exec Corosched.step Clean (State.boot none)
        [.main .master .user (some ⟨16, by decide⟩), .main .master .user (some ⟨32, by decide⟩),
          .envRun, .master, .master, .master] = some (.ok s) ∧
      s.coro ⟨16, by decide⟩ = some k ∧ k.status = .run ∧
      queuesOf s.hist .master = [⟨32, by decide⟩] ∧
      QueuesCaller s (queuesOf s.hist) ⟨16, by decide⟩ k := by
  have hrun : ∃ s k, Machine.exec Corosched.step Clean (State.boot none)
        [.main .master .user (some ⟨16, by decide⟩), .main .master .user (some ⟨32, by decide⟩),
          .envRun, .master, .master, .master] = some (.ok s) ∧
      s.coro ⟨16, by decide⟩ = some k ∧ k.status = .run ∧ k.sched = some .master ∧
      k.needParallel = false ∧ queuesOf s.hist .master = [⟨32, by decide⟩] ∧
      queuesOf s.hist .parallel = [] := ⟨_, _, rfl, rfl, rfl, rfl, rfl, rfl, rfl⟩
  obtain ⟨s, k, hexec, hk, hrun, hsched, hnp, hm, hp⟩ := hrun
  have hcoh := (Coherent.boot none).run (.of_exec hexec)
  refine ⟨s, k, hexec, hk, hrun, hm, (caller_queued_once hcoh.store.queues hk hsched ?_).mpr hnp⟩
  intro h
  cases h <;> simp [hm, hp]

/-- `16` sets `need_parallel` and calls it while `32` is queued: afterwards the queue starts with
`16` and ends there, and `32` is lost. -/
theorem caller_queued_twice :
    ∃ s k s', Machine.exec Corosched.step Clean (State.boot none)
        [.main .master .user (some ⟨16, by decide⟩), .main .master .user (some ⟨32, by decide⟩),
          .envRun, .master, .master, .master, .call .master (.setNeedParallel true)] =
            some (.ok s) ∧
      s.coro ⟨16, by decide⟩ = some k ∧ k.status = .run ∧
      (s.sched .master).currentCoro = some ⟨16, by decide⟩ ∧ Queues s.queue (queuesOf s.hist) ∧
      queuesOf s.hist .master = [⟨32, by decide⟩] ∧
      coroSwitchToParallel s .master (some ⟨16, by decide⟩) = .ok (s', none) ∧
      s'.queue.tqh_first .master = some ⟨16, by decide⟩ ∧
      s'.queue.val (.next ⟨16, by decide⟩) = none ∧
      ¬ QueuesCaller s (queuesOf s.hist) ⟨16, by decide⟩ k := by
  have hrun : ∃ s k s', Machine.exec Corosched.step Clean (State.boot none)
        [.main .master .user (some ⟨16, by decide⟩), .main .master .user (some ⟨32, by decide⟩),
          .envRun, .master, .master, .master, .call .master (.setNeedParallel true)] =
            some (.ok s) ∧
      s.coro ⟨16, by decide⟩ = some k ∧ k.status = .run ∧ k.sched = some .master ∧
      k.needParallel = true ∧ (s.sched .master).currentCoro = some ⟨16, by decide⟩ ∧
      queuesOf s.hist .master = [⟨32, by decide⟩] ∧ queuesOf s.hist .parallel = [] ∧
      coroSwitchToParallel s .master (some ⟨16, by decide⟩) = .ok (s', none) ∧
      s'.queue.tqh_first .master = some ⟨16, by decide⟩ ∧
      s'.queue.val (.next ⟨16, by decide⟩) = none :=
    ⟨_, _, _, rfl, rfl, rfl, rfl, rfl, rfl, rfl, rfl, rfl, rfl, rfl⟩
  obtain ⟨s, k, s', hexec, hk, hrun, hsched, hnp, hcur, hm, hp, hcode, hfirst, hnext⟩ := hrun
  have hq := ((Coherent.boot none).run (.of_exec hexec)).store.queues
  refine ⟨s, k, s', hexec, hk, hrun, hcur, hq, hm, hcode, hfirst, hnext, ?_⟩
  rw [QueuesCaller, if_pos hnp]
  rintro ⟨s'', loc, k', hcode', -, hq', -, -⟩
  refine coroSwitchToParallel_twice hq hk hsched ?_ hnp hcode'
    (hq'.represents.next (Function.update_self _ _ _))
  intro h
  cases h <;> simp [hm, hp]

/-! ## 2. `sched_run_once` -/

/-- Whether the coroutine at `x` wants to run on the parallel scheduler. -/
def wantsParallel (s : State) (x : Addr) : Bool := (s.coro x).any Coroutine.needParallel

/-- **What `sched_run_once` is for**, called by `e`: the coroutines in front that want to run on
the parallel scheduler are handed over to it; then the first of the others runs, with the caller
at the end of the queue, or the caller goes on if there is none. -/
def DispatchesFirst (s : State) (L : Lists) (e : Addr) : Prop :=
  ∃ s' L', schedRunOnce s = .ok s' ∧ Queues s'.queue L' ∧
    (∀ x ∈ (L .master).takeWhile (wantsParallel s), x ∈ L' .parallel) ∧
    match (L .master).dropWhile (wantsParallel s) with
    | c :: rest => s'.running .master = some c ∧ (s'.sched .master).currentCoro = some c ∧
        L' .master = rest ++ [e]
    | [] => s'.running .master = some e ∧ (s'.sched .master).currentCoro = some e ∧
        L' .master = [] ∧ e ∉ L' .parallel

/-- A pop takes the first of the queue. -/
theorem pop_first (hq : Queues s.queue L) (hl : L .master = x :: l) :
    ∃ q', pop s .master = .ok ({ s with queue := q', hist := s.hist ++ [.pop .master x] }, some x) ∧
      Queues q' (Function.update L .master l) ∧
      ∀ r, q'.entry r = none ↔ s.queue.entry r = none := by
  obtain ⟨q', hcode, hq', hmap⟩ := popFirst_cons hq hl
  exact ⟨q', by simp [pop, hcode, State.note], hq', hmap⟩

/-- `coro_ready` of a live coroutine appends it to its queue. -/
theorem coroReady_tail (hq : Queues s.queue L) (hk : s.coro co = some k) (hlive : k.status ≠ .exit)
    (hsched : k.sched = some h) (hmap : s.queue.entry co ≠ none) (hout : ∀ h, co ∉ L h) :
    ∃ q', coroReady s (some co) = .ok { s with
        queue := q'
        coro := Function.update s.coro co (some { k with status := .ready })
        hist := s.hist ++ [.enqueue h co] } ∧
      Queues q' (Function.update L h (L h ++ [co])) := by
  obtain ⟨e, he⟩ := Option.ne_none_iff_exists'.mp hmap
  obtain ⟨q', hcode, hq', -⟩ := insertTail_spec hq h he hout
  refine ⟨q', ?_, hq'⟩
  simp [coroReady, load_some hk, hlive, hsched, insertTail, hcode, State.note, State.setCoro]

/-- The caller is queued and the popped coroutine runs, or fails if it wants to leave. -/
theorem schedRunOnce_first (hq : Queues s.queue L) (hm : s.master = .exec loc e)
    (he : s.coro e = some ke) (hlive : ke.status ≠ .exit) (hsched : ke.sched = some .master)
    (hmap : s.queue.entry e ≠ none) (hout : ∀ h, e ∉ L h)
    (hcur : (s.sched .master).currentCoro = some e) (hstop : (s.sched .master).stop = false)
    (hl : L .master = x :: l) (hx : s.coro x = some k) (hready : k.status = .ready) :
    (k.needParallel = true → schedRunOnce s = .error .assertFail) ∧
      (k.needParallel = false → ∃ q', schedRunOnce s = .ok { s with
          queue := q'
          coro := Function.update s.coro e (some { ke with status := .ready })
          sched := Function.update s.sched .master { s.sched .master with currentCoro := some x }
          master := .exec loc x
          hist := s.hist ++ [.pop .master x, .enqueue .master e, .dispatch .master x] } ∧
        Queues q' (Function.update L .master (l ++ [e]))) := by
  obtain ⟨q₁, hpop, hq₁, hmap₁⟩ := pop_first hq hl
  have hxe : x ≠ e := by
    rintro rfl
    exact hout .master (hl ▸ List.mem_cons_self)
  have hout₁ : ∀ h, e ∉ Function.update L .master l h := by
    intro h hmem
    cases h with
    | master => exact hout .master (hl ▸ List.mem_cons_of_mem x (by simpa using hmem))
    | parallel => exact hout .parallel (by simpa using hmem)
  obtain ⟨q₂, hrdy, hq₂⟩ := coroReady_tail
    (s := { s with queue := q₁, hist := s.hist ++ [.pop .master x] }) hq₁ he hlive hsched
    (fun hn => hmap ((hmap₁ e).mp hn)) hout₁
  have htask : schedHasTask s = true := by
    simp [schedHasTask, empty, isEmpty_spec hq.represents, hl]
  obtain ⟨hfail, hgo⟩ := schedRunOnce_popped hstop htask hcur hx hready hxe hpop hrdy
  exact ⟨hfail, fun hnp => ⟨q₂, hgo hnp hm, by simpa using hq₂⟩⟩

/-- **When `sched_run_once` dispatches the first ordinary coroutine.**  For any well-formed queues
of ready coroutines, `sched_run_once` does what it is for if and only if the queue is empty or its
first coroutine does not want to run on the parallel scheduler. -/
theorem first_dispatched (hq : Queues s.queue L)
    (hready : ∀ x ∈ L .master, ∃ k, s.coro x = some k ∧ k.status = .ready)
    (hm : s.master = .exec loc e) (he : s.coro e = some ke) (hlive : ke.status ≠ .exit)
    (hsched : ke.sched = some .master) (hmap : s.queue.entry e ≠ none) (hout : ∀ h, e ∉ L h)
    (hcur : (s.sched .master).currentCoro = some e) (hstop : (s.sched .master).stop = false) :
    DispatchesFirst s L e ↔ ∀ c ∈ (L .master).head?, wantsParallel s c = false := by
  cases hl : L .master with
  | nil =>
    have htask : schedHasTask s = false := by
      simp [schedHasTask, empty, isEmpty_spec hq.represents, hl]
    have hcode : schedRunOnce s = .ok s := by
      rw [schedRunOnce, loopBudget, schedRunOnceFrom]
      simp [hstop, htask]
    simp only [List.head?_nil, Option.mem_def, reduceCtorEq, false_implies, implies_true, iff_true]
    refine ⟨s, L, hcode, hq, by simp [hl], ?_⟩
    rw [hl]
    exact ⟨by simp [State.running, hm], hcur, rfl, hout .parallel⟩
  | cons x l =>
    obtain ⟨k, hx, hkr⟩ := hready x (hl ▸ List.mem_cons_self)
    obtain ⟨hfail, hgo⟩ :=
      schedRunOnce_first hq hm he hlive hsched hmap hout hcur hstop hl hx hkr
    have hwants : wantsParallel s x = k.needParallel := by simp [wantsParallel, hx]
    simp only [List.head?_cons, Option.mem_def, Option.some.injEq, forall_eq', hwants]
    cases hnp : k.needParallel with
    | true =>
      simp only [Bool.true_eq_false, iff_false]
      rintro ⟨s', L', hcode, -⟩
      rw [hfail hnp] at hcode
      exact absurd hcode (by simp)
    | false =>
      simp only [iff_true]
      obtain ⟨q', hcode, hq'⟩ := hgo hnp
      refine ⟨_, _, hcode, hq', ?_, ?_⟩
      · rw [hl, List.takeWhile_cons_of_neg (by simp [hwants, hnp])]
        simp
      · rw [hl, List.dropWhile_cons_of_neg (by simp [hwants, hnp])]
        exact ⟨by simp [State.running], by simp, by simp⟩

/-- `16` calls it while `32` is queued. -/
theorem first_dispatched_ordinary :
    ∃ s, Machine.exec Corosched.step Clean (State.boot none)
        [.main .master .user (some ⟨16, by decide⟩), .main .master .user (some ⟨32, by decide⟩),
          .envRun, .master, .master, .master] = some (.ok s) ∧
      s.running .master = some ⟨16, by decide⟩ ∧ queuesOf s.hist .master = [⟨32, by decide⟩] ∧
      DispatchesFirst s (queuesOf s.hist) ⟨16, by decide⟩ := by
  have hrun : ∃ s k, Machine.exec Corosched.step Clean (State.boot none)
        [.main .master .user (some ⟨16, by decide⟩), .main .master .user (some ⟨32, by decide⟩),
          .envRun, .master, .master, .master] = some (.ok s) ∧
      s.master = .exec ⟨16, by decide⟩ ⟨16, by decide⟩ ∧ s.coro ⟨16, by decide⟩ = some k ∧
      k.status ≠ .exit ∧ k.sched = some .master ∧ s.queue.entry ⟨16, by decide⟩ ≠ none ∧
      (s.sched .master).currentCoro = some ⟨16, by decide⟩ ∧ (s.sched .master).stop = false ∧
      queuesOf s.hist .master = [⟨32, by decide⟩] ∧ queuesOf s.hist .parallel = [] ∧
      wantsParallel s ⟨32, by decide⟩ = false :=
    ⟨_, _, rfl, rfl, rfl, by decide, rfl, by decide, rfl, rfl, rfl, rfl, rfl⟩
  obtain ⟨s, k, hexec, hmaster, hk, hlive, hsched, hmap, hcur, hstop, hm, hp, hw⟩ := hrun
  have hcoh := (Coherent.boot none).run (.of_exec hexec)
  refine ⟨s, hexec, by simp [State.running, hmaster], hm,
    (first_dispatched hcoh.store.queues (fun x hx => ?_) hmaster hk hlive hsched hmap ?_ hcur
      hstop).mpr (by simpa [hm] using hw)⟩
  · obtain ⟨k', hk', hr, -⟩ := hcoh.store.queued .master x hx
    exact ⟨k', hk', hr⟩
  · intro h
    cases h <;> simp [hm, hp]

/-- `32` sets `need_parallel` and calls it, so `16` runs with `32` queued; now `16` calls it: an
assertion fails. -/
theorem first_not_dispatched :
    ∃ s, Machine.exec Corosched.step Clean (State.boot none)
        [.main .master .user (some ⟨16, by decide⟩), .main .master .user (some ⟨32, by decide⟩),
          .envRun, .master, .master, .master, .call .master .yield, .master, .master,
          .call .master (.setNeedParallel true), .call .master .runOnce] = some (.ok s) ∧
      s.running .master = some ⟨16, by decide⟩ ∧
      (s.sched .master).currentCoro = some ⟨16, by decide⟩ ∧ Queues s.queue (queuesOf s.hist) ∧
      queuesOf s.hist .master = [⟨32, by decide⟩] ∧ schedRunOnce s = .error .assertFail ∧
      ¬ DispatchesFirst s (queuesOf s.hist) ⟨16, by decide⟩ := by
  have hrun : ∃ s, Machine.exec Corosched.step Clean (State.boot none)
        [.main .master .user (some ⟨16, by decide⟩), .main .master .user (some ⟨32, by decide⟩),
          .envRun, .master, .master, .master, .call .master .yield, .master, .master,
          .call .master (.setNeedParallel true), .call .master .runOnce] = some (.ok s) ∧
      s.running .master = some ⟨16, by decide⟩ ∧
      (s.sched .master).currentCoro = some ⟨16, by decide⟩ ∧
      queuesOf s.hist .master = [⟨32, by decide⟩] ∧ schedRunOnce s = .error .assertFail :=
    ⟨_, rfl, rfl, rfl, rfl, rfl⟩
  obtain ⟨s, hexec, hr, hcur, hm, hfail⟩ := hrun
  have hq := ((Coherent.boot none).run (.of_exec hexec)).store.queues
  refine ⟨s, hexec, hr, hcur, hq, hm, hfail, ?_⟩
  rintro ⟨s', L', hcode, -⟩
  rw [hfail] at hcode
  exact absurd hcode (by simp)

end Corosched
