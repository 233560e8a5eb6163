/-
# What `coro_switch_to_master` reports

The function changes the owner of the coroutine, sends, and undoes the change unless the message
went out whole.  It compares the count `send` returns with the size of the coroutine instead of the
size of the pointer it sends, so it always reports a failure; and its caller, which has popped the
coroutine, drops it on a failure.
-/
import Corosched.Steps

namespace Corosched

open State Tailq

variable {s s' : State} {c : Addr} {k : Coroutine} {r : SendResult} {rs : List SendResult}
  {st : Rstatus}

/-- **What `coro_switch_to_master(c)` reports**: `M_OK` where one message that names `c` went into
the socket and `c` belongs to the master scheduler; otherwise `M_ERR`, and `c` still belongs to the
parallel scheduler, is in its queue, and was not announced. -/
def Reports (s s' : State) (c : Addr) : Rstatus → Prop
  | .ok => s'.sock = s.sock ++ ptrBytes (some c) ∧
      (s'.coro c).bind Coroutine.sched = some .master
  | .err => s'.sock ≠ s.sock ++ ptrBytes (some c) ∧
      (s'.coro c).bind Coroutine.sched = some .parallel ∧ Linked s'.queue .parallel c

/-- **One `send`** ends in an error, with at most the accepted bytes of `*c` in the socket, or in
another round. -/
theorem coroSwitchToMaster_inv (hr : r.Ok = true) {x : Option Rstatus}
    (h : coroSwitchToMaster s c r = .ok (s', x)) :
    s'.queue = s.queue ∧ s'.parallel = s.parallel ∧
      (x = none ∧ r = .eintr ∧ s' = s ∨
        x = some .err ∧ (s'.coro c).bind Coroutine.sched = some .parallel ∧
          ∃ n ≤ sizeofPtr, s'.sock = s.sock ++ (ptrBytes (s.queue.val (.next c))).take n) := by
  simp only [coroSwitchToMaster, bind_eq_ok] at h
  obtain ⟨k, -, h⟩ := h
  cases r with
  | eintr =>
    simp only [pure_eq_ok, Except.ok.injEq, Prod.mk.injEq] at h
    obtain ⟨rfl, rfl⟩ := h
    exact ⟨rfl, rfl, Or.inl ⟨rfl, rfl, rfl⟩⟩
  | fail =>
    simp only [pure_eq_ok, Except.ok.injEq, Prod.mk.injEq] at h
    obtain ⟨rfl, rfl⟩ := h
    exact ⟨rfl, rfl, Or.inr ⟨rfl, by simp [State.setCoro], 0, by decide, by simp [State.setCoro]⟩⟩
  | sent n =>
    -- `send` was given a pointer's worth of bytes, so its count is never that of the comparison
    have hn : n ≤ sizeofPtr := by
      simp only [SendResult.Ok, decide_eq_true_eq] at hr
      exact hr.2
    have hne : n ≠ sizeofCoroutine := by
      simp only [sizeofPtr, sizeofCoroutine] at hn ⊢
      omega
    simp only [hne, ne_eq, not_false_eq_true, if_true, pure_eq_ok, Except.ok.injEq,
      Prod.mk.injEq] at h
    obtain ⟨rfl, rfl⟩ := h
    exact ⟨rfl, rfl, Or.inr ⟨rfl, by simp [State.setCoro], n, hn, rfl⟩⟩

/-- **The call**, when it returns, reports an error and has not touched the queues. -/
theorem coroSwitchToMasterLoop_inv (hrs : ∀ r ∈ rs, r.Ok = true)
    (h : coroSwitchToMasterLoop s c rs = .ok (s', some st)) :
    st = .err ∧ s'.queue = s.queue ∧ (s'.coro c).bind Coroutine.sched = some .parallel := by
  induction rs generalizing s with
  | nil => simp [coroSwitchToMasterLoop] at h
  | cons r rs ih =>
    simp only [coroSwitchToMasterLoop, bind_eq_ok] at h
    obtain ⟨k, -, ⟨s₁, x⟩, hsend, h⟩ := h
    obtain ⟨hq, -, ⟨rfl, -, rfl⟩ | ⟨rfl, hsched, -⟩⟩ :=
      coroSwitchToMaster_inv (hrs r List.mem_cons_self) hsend
    · exact ih (s := s.setCoro c { k with sched := some .master })
        (fun r' hr' => hrs r' (List.mem_cons_of_mem r hr')) h
    · simp only [pure_eq_ok, Except.ok.injEq, Prod.mk.injEq, Option.some.injEq] at h
      obtain ⟨rfl, rfl⟩ := h
      exact ⟨rfl, hq, hsched⟩

/-- **The report is never right.**  Whatever the results of its sends, whenever
`coro_switch_to_master(c)` returns, for a `c` that has been popped, it does not report what it
did. -/
theorem report_never_right (hout : ∀ h, ¬ Linked s.queue h c) (hrs : ∀ r ∈ rs, r.Ok = true)
    (h : coroSwitchToMasterLoop s c rs = .ok (s', some st)) : ¬ Reports s s' c st := by
  obtain ⟨rfl, hq, -⟩ := coroSwitchToMasterLoop_inv hrs h
  rintro ⟨-, -, hlinked⟩
  rw [hq] at hlinked
  exact hout .parallel hlinked

/-- Where the parallel thread stands does not matter to a `send`. -/
theorem coroSwitchToMaster_parallel (p : ParallelPc) {x : Option Rstatus}
    (h : coroSwitchToMaster s c r = .ok (s', x)) :
    coroSwitchToMaster { s with parallel := p } c r = .ok ({ s' with parallel := p }, x) := by
  simp only [coroSwitchToMaster, bind_eq_ok] at h ⊢
  obtain ⟨k, hk, h⟩ := h
  refine ⟨k, hk, ?_⟩
  cases r with
  | eintr | fail =>
    simp only [pure_eq_ok, Except.ok.injEq, Prod.mk.injEq] at h ⊢
    obtain ⟨rfl, rfl⟩ := h
    exact ⟨rfl, rfl⟩
  | sent n =>
    rcases eq_or_ne n sizeofCoroutine with hn | hn
    all_goals
      simp only [hn, ne_eq, not_true, not_false_eq_true, if_true, if_false, pure_eq_ok,
        Except.ok.injEq, Prod.mk.injEq] at h ⊢
      obtain ⟨rfl, rfl⟩ := h
      exact ⟨rfl, rfl⟩

/-- **The loop in the program**: `parallel_run` calls `coro_switch_to_master`, its sends return
`rs`, and whatever is reported `parallel_run` is at the test of its loop again. -/
theorem coroSwitchToMasterLoop_run (hrs : ∀ r ∈ rs, r.Ok = true) (hp : s.parallel = .toMaster c)
    (h : coroSwitchToMasterLoop s c rs = .ok (s', some st)) :
    ∃ as, Machine.Run step Machine.Any s as { s' with parallel := .loop } := by
  induction rs generalizing s with
  | nil => simp [coroSwitchToMasterLoop] at h
  | cons r rs ih =>
    have hr := hrs r List.mem_cons_self
    simp only [coroSwitchToMasterLoop, bind_eq_ok] at h
    obtain ⟨k, hk, ⟨s₁, x⟩, hsend, h⟩ := h
    have hpar : step s .parallel = some (.ok
        { s.setCoro c { k with sched := some .master } with parallel := .sending c }) := by
      simp [step, parallelStep, hp, hk]
    have hcode := coroSwitchToMaster_parallel (.sending c) hsend
    obtain ⟨-, hp₁, hx⟩ := coroSwitchToMaster_inv hr hsend
    have hp₁ : s₁.parallel = .toMaster c := hp₁.trans hp
    rcases hx with ⟨rfl, -, -⟩ | ⟨rfl, -, -⟩
    · -- another round
      have hstep : step { s.setCoro c { k with sched := some .master } with parallel := .sending c }
          (.send r) = some (.ok s₁) := by
        simp only [step, sendStep, hr, if_true, hcode, ok_bind, pure_eq_ok]
        rw [← hp₁]
      obtain ⟨as, hrun⟩ := ih (fun r' hr' => hrs r' (List.mem_cons_of_mem r hr')) hp₁ h
      exact ⟨_, ((Machine.Run.single trivial hpar).snoc trivial hstep).append hrun⟩
    · simp only [pure_eq_ok, Except.ok.injEq, Prod.mk.injEq, Option.some.injEq] at h
      obtain ⟨rfl, rfl⟩ := h
      have hstep : step { s.setCoro c { k with sched := some .master } with parallel := .sending c }
          (.send r) = some (.ok { s₁ with parallel := .loop }) := by
        simp only [step, sendStep, hr, if_true, hcode, ok_bind, pure_eq_ok]
      exact ⟨_, (Machine.Run.single trivial hpar).snoc trivial hstep⟩

/-- The send is interrupted once and then accepts the whole pointer's worth of bytes. -/
theorem report_never_right_retried :
    ∃ s s', Machine.exec step Clean (State.boot none)
        [.main .parallel .user (some ⟨16, by decide⟩), .envRun, .master, .master, .parallel,
          .parallel, .parallel, .parallel, .parallel, .parallel, .call .parallel .transfer] =
          some (.ok s) ∧ s.parallel = .toMaster ⟨16, by decide⟩ ∧
      coroSwitchToMasterLoop s ⟨16, by decide⟩ [.eintr, .sent 8] = .ok (s', some .err) ∧
      ¬ Reports s s' ⟨16, by decide⟩ .err := by
  have hrun : ∃ s s', Machine.exec step Clean (State.boot none)
        [.main .parallel .user (some ⟨16, by decide⟩), .envRun, .master, .master, .parallel,
          .parallel, .parallel, .parallel, .parallel, .parallel, .call .parallel .transfer] =
          some (.ok s) ∧ s.parallel = .toMaster ⟨16, by decide⟩ ∧
      coroSwitchToMasterLoop s ⟨16, by decide⟩ [.eintr, .sent 8] = .ok (s', some .err) :=
    ⟨_, _, rfl, rfl, rfl⟩
  obtain ⟨s, s', hexec, hp, hcode⟩ := hrun
  have hcoh := (Coherent.boot none).run (.of_exec hexec)
  obtain ⟨-, hout⟩ := hcoh.parallel.held (b := ⟨16, by decide⟩) (by rw [hp]; rfl)
  refine ⟨s, s', hexec, hp, hcode, report_never_right (fun h hl => ?_) (by decide) hcode⟩
  exact hout h (hcoh.store.queues.represents.linked_iff.mp hl)

/-- `parallel_run` has run `16` and calls `coro_switch_to_master`; the send accepts all eight bytes,
and an error is reported. -/
theorem report_mistaken :
    ∃ s s', Machine.exec step Clean (State.boot none)
        [.main .parallel .user (some ⟨16, by decide⟩), .envRun, .master, .master, .parallel,
          .parallel, .parallel, .parallel, .parallel, .parallel, .call .parallel .transfer] =
          some (.ok s) ∧ s.parallel = .toMaster ⟨16, by decide⟩ ∧
      (s.coro ⟨16, by decide⟩).bind Coroutine.sched = some .parallel ∧
      coroSwitchToMasterLoop s ⟨16, by decide⟩ [.sent 8] = .ok (s', some .err) ∧
      s'.sock.length = s.sock.length + sizeofPtr ∧
      s'.queue.tqh_first .parallel = none ∧ ¬ Reports s s' ⟨16, by decide⟩ .err := by
  have hrun : ∃ s s', Machine.exec step Clean (State.boot none)
        [.main .parallel .user (some ⟨16, by decide⟩), .envRun, .master, .master, .parallel,
          .parallel, .parallel, .parallel, .parallel, .parallel, .call .parallel .transfer] =
          some (.ok s) ∧ s.parallel = .toMaster ⟨16, by decide⟩ ∧
      (s.coro ⟨16, by decide⟩).bind Coroutine.sched = some .parallel ∧
      coroSwitchToMasterLoop s ⟨16, by decide⟩ [.sent 8] = .ok (s', some .err) ∧
      s'.sock.length = s.sock.length + sizeofPtr ∧ s'.queue.tqh_first .parallel = none :=
    ⟨_, _, rfl, rfl, rfl, rfl, rfl, rfl⟩
  obtain ⟨s, s', hexec, hp, hsched, hcode, hsock, hfirst⟩ := hrun
  refine ⟨s, s', hexec, hp, hsched, hcode, hsock, hfirst, ?_⟩
  have hno : ∀ x, ¬ Linked s'.queue .parallel x := by
    intro x hl
    induction hl with
    | first hx => simp [hfirst] at hx
    | next _ _ ih => exact ih
  rintro ⟨-, -, hlinked⟩
  exact hno _ hlinked

end Corosched
