/-
# How long a coroutine waits

For the programs of the master scheduler alone, once `env_run` has come to `sched_run`.  A
coroutine with `i` others before it in the queue is the one dispatched after `i` more dispatches,
whatever is spawned meanwhile; and `sched_run` dispatches at every second of its steps at the
latest, so no coroutine waits for ever as long as the master thread goes on.  Coroutines that only
yield, as in the benchmark, take turns.
-/
import Corosched.Master

namespace Corosched

open State Tailq

/-! ## 1. The pace of `sched_run` -/

/-- `sched_run` is in its loop, or has dispatched a coroutine. -/
def MasterPc.started : MasterPc → Bool
  | .loop | .exec _ _ | .back _ => true
  | _ => false

/-- The steps of `sched_run` since it has last switched. -/
def MasterPc.slack : MasterPc → Nat
  | .loop => 1
  | _ => 0

/-- A step of the framework code on the master thread. -/
def Act.isMaster : Act → Bool
  | .master => true
  | _ => false

variable {s s' : State} {act : Act} {as bs : List Act} {em : Option Eventmanager} {c : Addr}

theorem enqueues_append (hist new : List Obs) :
    enqueues (hist ++ new) = enqueues hist ++ enqueues new := by
  rw [enqueues, queueUses_append, Fifo.enqs_append]
  rfl

theorem dispatches_append (hist new : List Obs) :
    dispatches (hist ++ new) = dispatches hist ++ dispatches new := by
  rw [dispatches, queueUses_append, Fifo.deqs_append]
  rfl

/-- What one step has to do with the next dispatch. -/
structure Paced (s s' : State) (m : Nat) : Prop where
  started : s'.master.started = true
  stop : (s'.sched .master).stop = (s.sched .master).stop
  pace : m + s.master.slack + 2 * (dispatches s.hist).length ≤
    2 * (dispatches s'.hist).length + s'.master.slack

/-- A step that adds `new` to the history. -/
theorem Paced.move {m : Nat} {new : List Obs} (hstart : s'.master.started = true)
    (hstop : (s'.sched .master).stop = (s.sched .master).stop) (hh : s'.hist = s.hist ++ new)
    (hpace : m + s.master.slack ≤ 2 * (dispatches new).length + s'.master.slack) :
    Paced s s' m := by
  refine ⟨hstart, hstop, ?_⟩
  rw [hh, dispatches_append, List.length_append]
  omega

/-- A step after which the master thread stands where it stood. -/
theorem Paced.stay {new : List Obs} (hstart : s.master.started = true) (hm : s'.master = s.master)
    (hstop : s'.sched = s.sched) (hh : s'.hist = s.hist ++ new) : Paced s s' 0 :=
  .move (hm ▸ hstart) (by rw [hstop]) hh (by rw [hm]; omega)

/-- **One step.**  As long as somebody is queued, `sched_run` stays in its loop; it takes at most
one step after a coroutine has given up control, and with the next it dispatches. -/
theorem paced_step (hs : Alone s) (hstart : s.master.started = true)
    (hstop : (s.sched .master).stop = false) (hne : queuesOf s.hist .master ≠ [])
    (hact : Plain act) (hstep : step s act = some (.ok s')) :
    Paced s s' (if act.isMaster then 1 else 0) := by
  have hidle := hs.idle.2
  have huser := hs.user
  have hnil : s.hist = s.hist ++ [] := (List.append_nil _).symm
  have away : ∀ {m : MasterPc}, s.master = m → m.started = false → False := by
    rintro m rfl h
    exact absurd (hstart.symm.trans h) (by simp)
  cases hs.coherent.cleanStep (hs.clean hact) hstep with
  | spawn hspawn h =>
    have hm : act.isMaster = false := by
      rcases hspawn with ⟨rfl, -⟩ | ⟨t, co, rfl, -⟩ <;> rfl
    rw [hm]
    cases h with
    | noMemory => exact .stay hstart rfl rfl hnil
    | allocated => exact .stay hstart rfl rfl rfl
  | yield h =>
    cases h with
    | intro hm => exact .move rfl rfl rfl (by rw [hm]; exact Nat.le_of_ble_eq_true rfl)
  | exit hm => exact .move rfl rfl rfl (by rw [hm]; exact Nat.le_of_ble_eq_true rfl)
  | runOnce hm h =>
    cases h with
    | idle => exact .stay hstart rfl rfl hnil
    | dispatch => exact .move rfl rfl rfl (by rw [hm]; exact Nat.le_of_ble_eq_true rfl)
  -- `sched_run`
  | finish _ h =>
    rcases h with h | h
    · exact absurd (hstop.symm.trans h) (by simp)
    · exact absurd h hne
  | take _ _ _ hx _ hnp => exact absurd ((huser _ _ hx).2.2.symm.trans hnp) (by simp)
  | dispatch hm =>
    exact .move rfl (by simp) rfl (by rw [hm]; exact Nat.le_of_ble_eq_true rfl)
  | keep hm => exact .move rfl (by simp) hnil (by rw [hm]; exact Nat.le_of_ble_eq_true rfl)
  | reclaim hm => exact .move rfl (by simp) rfl (by rw [hm]; exact Nat.le_of_ble_eq_true rfl)
  | envRun hm | lock hm | unlock hm | locked hm | refused hm | insert hm | unlocked hm =>
    exact (away hm rfl).elim
  -- no such program runs `event_loop` or makes these calls
  | body _ hk hctx | bodyOnce _ hk hctx | epoll _ hk hctx =>
    exact absurd (hctx.symm.trans (huser _ _ hk).1) (by simp)
  | setNeedParallel | stays | registerEvent | removeEvent | envStop | transfer => exact hact.elim
  -- the parallel thread
  | move => exact .stay hstart rfl rfl hnil
  | pop _ hl => exact absurd (hs.idle.1.symm.trans hl) (by simp)
  | switchTo hp | toMaster hp | again hp | sent hp =>
    rw [hp] at hidle
    exact absurd hidle (by simp [ParallelPc.holds])

/-! ## 2. Every run -/

/-- No such program stops `sched_run`. -/
theorem plain_stop (hs : Alone s) (hact : Plain act) (hstep : step s act = some (.ok s')) :
    (s'.sched .master).stop = (s.sched .master).stop := by
  cases hs.coherent.cleanStep (hs.clean hact) hstep with
  | spawn _ h => cases h <;> rfl
  | yield h => cases h; rfl
  | runOnce _ h =>
    cases h with
    | idle => rfl
    | dispatch => simp
  | dispatch | keep | reclaim => simp
  | bodyOnce _ hk hctx => exact absurd (hctx.symm.trans (hs.user _ _ hk).1) (by simp)
  | setNeedParallel | stays | registerEvent | removeEvent | envStop | transfer => exact hact.elim
  | _ => rfl

/-- What holds at the end of a run that goes on from `s`, with `n` steps of `sched_run`: the
coroutine that was number `i` has been dispatched, or `sched_run` has kept its pace. -/
structure Waits (s s' : State) (i n : Nat) : Prop where
  alone : Alone s'
  hist : s.hist <+: s'.hist
  stop : (s'.sched .master).stop = false
  turn : (dispatches s.hist).length + i < (dispatches s'.hist).length ∨
    s'.master.started = true ∧
      n + 2 * (dispatches s.hist).length ≤ 2 * (dispatches s'.hist).length + s'.master.slack

/-- Whoever is queued behind `i` others is dispatched after `i` more dispatches. -/
theorem dispatched_in_turn {i : Nat} (hs : Alone s) (hs' : Alone s') (hh : s.hist <+: s'.hist)
    (hi : (queuesOf s.hist .master)[i]? = some c) :
    ∃ ds, dispatches s'.hist = dispatches s.hist ++ ds ∧ (i < ds.length → ds[i]? = some c) ∧
      (ds.length ≤ i → queuesOf s'.hist .master ≠ []) := by
  obtain ⟨new, hnew⟩ := hh
  have huses : queueUses s'.hist = queueUses s.hist ++ queueUses new := by
    rw [← hnew, queueUses_append]
  have hserved := hs'.served
  rw [huses] at hserved
  refine ⟨dispatches new, by rw [← hnew, dispatches_append], hs.served.turn hserved hi,
    fun hle hnil => ?_⟩
  -- the queue would have lost more than was dispatched
  have horder := hserved.order
  rw [Fifo.enqs_append, Fifo.deqs_append, hs.served.order, hnil, List.append_nil,
    List.append_assoc] at horder
  have hlen := congrArg List.length (List.append_cancel_left horder)
  obtain ⟨hlt, -⟩ := List.getElem?_eq_some_iff.mp hi
  rw [List.length_append] at hlen
  have : (dispatches new).length = (Fifo.deqs (queueUses new)).length := rfl
  omega

/-- **Every step.** -/
theorem Waits.step {i n : Nat} (hs : Alone s) (hi : (queuesOf s.hist .master)[i]? = some c)
    (hw : Waits s s' i n) (hact : Plain act) {s'' : State}
    (hstep : Corosched.step s' act = some (.ok s'')) :
    Waits s s'' i (n + if act.isMaster then 1 else 0) := by
  obtain ⟨s₁, he, halone, hh⟩ := hw.alone.step hact hstep
  obtain rfl := Except.ok.inj he
  obtain ⟨new, hnew⟩ := hh
  have hmore : (dispatches s'.hist).length ≤ (dispatches s''.hist).length := by
    rw [← hnew, dispatches_append, List.length_append]
    exact Nat.le_add_right _ _
  refine ⟨halone, hw.hist.trans ⟨new, hnew⟩, (plain_stop hw.alone hact hstep).trans hw.stop, ?_⟩
  by_cases hturn : (dispatches s.hist).length + i < (dispatches s'.hist).length
  · exact .inl (by omega)
  · obtain ⟨hstart, hpace⟩ := hw.turn.resolve_left hturn
    obtain ⟨ds, hds, -, hqueued⟩ := dispatched_in_turn hs hw.alone hw.hist hi
    have hne : queuesOf s'.hist .master ≠ [] := by
      refine hqueued ?_
      rw [hds, List.length_append] at hturn
      omega
    obtain ⟨hstart', -, hpace'⟩ := paced_step hw.alone hstart hw.stop hne hact hstep
    exact .inr ⟨hstart', by omega⟩

/-- **No coroutine waits for ever.**  `sched_run` has been started, and `c` is queued with `i`
others before it.  However the run goes on, and whatever is spawned and yields meanwhile: of the
coroutines dispatched from here on `c` is the one after the next `i`, and by the time `sched_run`
has taken `2 * i + 2` steps it has been dispatched. -/
theorem waits_bounded {L : SchedId → List Addr} {i : Nat}
    (h : Machine.Run Corosched.step (fun _ => Plain) (State.boot em) as s)
    (hstart : s.master.started = true) (hq : Queues s.queue L) (hi : (L .master)[i]? = some c)
    (h' : Machine.Run Corosched.step (fun _ => Plain) s bs s') :
    ∃ ds, dispatches s'.hist = dispatches s.hist ++ ds ∧ (i < ds.length → ds[i]? = some c) ∧
      (2 * i + 2 ≤ bs.countP Act.isMaster → i < ds.length) := by
  have hs := ((Alone.boot em).run h).1
  have hstop : (s.sched .master).stop = false := by
    have hinv : Alone s ∧ (s.sched .master).stop = false := by
      refine h.inv (I := fun s => Alone s ∧ (s.sched .master).stop = false)
        (fun s act s' hi hact hstep => ?_) ⟨.boot em, rfl⟩
      obtain ⟨s₁, he, halone, -⟩ := hi.1.step hact hstep
      obtain rfl := Except.ok.inj he
      exact ⟨halone, (plain_stop hi.1 hact hstep).trans hi.2⟩
    exact hinv.2
  rw [hq.unique hs.coherent.store.queues] at hi
  have hwaits : Waits s s' i (bs.countP Act.isMaster) := by
    induction h' with
    | nil => exact ⟨hs, List.prefix_refl _, hstop, .inr ⟨hstart, by simp⟩⟩
    | snoc _ hact hstep ih =>
      rw [List.countP_append, List.countP_singleton]
      exact ih.step hs hi hact hstep
  obtain ⟨ds, hds, hget, -⟩ := dispatched_in_turn hs hwaits.alone hwaits.hist hi
  refine ⟨ds, hds, hget, fun hn => ?_⟩
  have hturn := hwaits.turn
  rw [hds, List.length_append] at hturn
  rcases hturn with hturn | ⟨-, hpace⟩
  · omega
  · have : s'.master.slack ≤ 1 := by cases s'.master <;> simp [MasterPc.slack]
    omega

/-- Of three coroutines the second is dispatched second, while the first yields. -/
theorem waits_bounded_second :
    ∃ s s' : State, Machine.exec Corosched.step (fun _ => Plain) (State.boot none)
        [.main .master .user (some ⟨16, by decide⟩), .main .master .user (some ⟨32, by decide⟩),
          .main .master .user (some ⟨48, by decide⟩), .envRun, .master, .master] = some (.ok s) ∧
      Machine.exec Corosched.step (fun _ => Plain) s
        [.master, .call .master .yield, .master, .master, .call .master .exit, .master] =
          some (.ok s') ∧
      ∃ ds, dispatches s'.hist = dispatches s.hist ++ ds ∧ 1 < ds.length ∧
        ds[1]? = some ⟨32, by decide⟩ := by
  have hrun : ∃ s s' : State, Machine.exec Corosched.step (fun _ => Plain) (State.boot none)
        [.main .master .user (some ⟨16, by decide⟩), .main .master .user (some ⟨32, by decide⟩),
          .main .master .user (some ⟨48, by decide⟩), .envRun, .master, .master] = some (.ok s) ∧
      Machine.exec Corosched.step (fun _ => Plain) s
        [.master, .call .master .yield, .master, .master, .call .master .exit, .master] =
          some (.ok s') ∧
      s.master = .loop ∧ (queuesOf s.hist .master)[1]? = some ⟨32, by decide⟩ :=
    ⟨_, _, rfl, rfl, rfl, rfl⟩
  obtain ⟨s, s', hexec, hexec', hm, hi⟩ := hrun
  have hq := ((Alone.boot none).run (.of_exec hexec)).1.coherent.store.queues
  obtain ⟨ds, hds, hget, hlt⟩ := waits_bounded (.of_exec hexec) (by rw [hm]; rfl) hq hi
    (.of_exec hexec')
  have hlong := hlt (by decide)
  exact ⟨s, s', hexec, hexec', ds, hds, hlong, hget hlong⟩

/-! ## 3. Coroutines that only yield -/

/-- Everything but the calls of `main` and of the coroutines, except `coro_yield`. -/
def Act.onlyYields : Act → Bool
  | .main _ _ _ => false
  | .call _ .yield => true
  | .call _ _ => false
  | _ => true

theorem Act.onlyYields.plain (h : act.onlyYields = true) : Plain act := by
  cases act with
  | main => simp [Act.onlyYields] at h
  | call t k =>
    cases k with
    | yield => trivial
    | _ => simp [Act.onlyYields] at h
  | _ => trivial

/-- The coroutine that runs. -/
def MasterPc.inHand : MasterPc → List Addr
  | .exec _ co => [co]
  | _ => []

/-- **One step.**  Who is dispatched runs, and who gives up control is queued. -/
theorem onlyYields_step (hs : Alone s) (hact : act.onlyYields = true)
    (hstep : step s act = some (.ok s')) :
    ∃ new, s'.hist = s.hist ++ new ∧
      enqueues new ++ s'.master.inHand = s.master.inHand ++ dispatches new := by
  have huser := hs.user
  have hnil : s.hist = s.hist ++ [] := (List.append_nil _).symm
  cases hs.coherent.cleanStep (hs.clean (Act.onlyYields.plain hact)) hstep with
  | spawn hspawn =>
    rcases hspawn with ⟨rfl, -⟩ | ⟨t, co, rfl, -⟩ <;> simp [Act.onlyYields] at hact
  | yield h =>
    cases h with
    | intro hm => exact ⟨_, rfl, by rw [hm]; rfl⟩
  | dispatch hm => exact ⟨_, rfl, by rw [hm]; rfl⟩
  | keep hm | finish hm | lock hm | unlock hm | locked hm | refused hm | unlocked hm =>
    exact ⟨_, hnil, by rw [hm]; rfl⟩
  | reclaim hm | insert hm => exact ⟨_, rfl, by rw [hm]; rfl⟩
  | take _ _ _ hx _ hnp => exact absurd ((huser _ _ hx).2.2.symm.trans hnp) (by simp)
  -- the parallel thread
  | move => exact ⟨_, hnil, (List.append_nil _).symm⟩
  | pop _ hl => exact absurd (hs.idle.1.symm.trans hl) (by simp)
  | switchTo hp | toMaster hp | again hp | sent hp =>
    have hidle := hs.idle.2
    rw [hp] at hidle
    exact absurd hidle (by simp [ParallelPc.holds])
  -- no such program runs `event_loop` or makes the other calls
  | body _ hk hctx | bodyOnce _ hk hctx | epoll _ hk hctx =>
    exact absurd (hctx.symm.trans (huser _ _ hk).1) (by simp)
  | envRun hm => exact ⟨_, hnil, by rw [hm]; rfl⟩
  | exit | runOnce | setNeedParallel | stays | registerEvent | removeEvent | envStop | transfer =>
    simp [Act.onlyYields] at hact

/-- **Every run.** -/
theorem onlyYields_run (hs : Alone s)
    (h : Machine.Run Corosched.step (fun _ act => act.onlyYields = true) s bs s') :
    Alone s' ∧ ∃ new, s'.hist = s.hist ++ new ∧
      enqueues new ++ s'.master.inHand = s.master.inHand ++ dispatches new := by
  induction h with
  | nil => exact ⟨hs, [], (List.append_nil _).symm, (List.append_nil _).symm⟩
  | snoc _ hact hstep ih =>
    obtain ⟨hs', new, hnew, hround⟩ := ih
    obtain ⟨s₁, he, hs'', -⟩ := hs'.step (Act.onlyYields.plain hact) hstep
    obtain rfl := Except.ok.inj he
    obtain ⟨new', hnew', hround'⟩ := onlyYields_step hs' hact hstep
    refine ⟨hs'', new ++ new', by rw [hnew', hnew, List.append_assoc], ?_⟩
    rw [enqueues_append, dispatches_append, List.append_assoc, hround', ← List.append_assoc,
      hround, List.append_assoc]

end Corosched
