/-
# Waiting for events

`register_event` is meant to block its caller until `event_callback` is invoked for the event.  It
ends in `coro_yield`, which queues the caller again: a coroutine that has registered an event is
queued at once, before anything is reported.  So the protocol holds exactly in the runs in which
no coroutine registers an event.
-/
import Corosched.Moves
import Corosched.Steps

namespace Corosched

open State Tailq

/-! ## 1. The protocol -/

/-- `c` has called `register_event` for `p`, and `event_callback` has not been invoked for `p`
since. -/
def Awaits (hist : List Obs) (p : EventPtr) (c : Addr) : Prop :=
  ∃ old new, hist = old ++ .await p c :: new ∧ .report p ∉ new

/-- The entry for which the next step of `event_loop` invokes `event_callback`. -/
def State.delivering (s : State) : Option EpollEvent :=
  match s.eventmgr, s.runningCoro .master with
  | some em, some ⟨_, .eventLoop (.each i nsd), _, _, _⟩ =>
    if i < nsd then some (em.events i) else none
  | _, _ => none

/-- **Wait and wake-up**: who waits is not queued and does not run, and who is woken up is neither
queued, nor running, nor exited. -/
structure WakesUp (s : State) : Prop where
  waits : ∀ p c, Awaits s.hist p c →
    (∀ h, ¬ Linked s.queue h c) ∧ ∀ t, s.running t ≠ some c
  wakes : ∀ e p c, s.delivering = some e → e.ptr = some p → (s.event p).coro = some c →
    (∀ h, ¬ Linked s.queue h c) ∧ (∀ t, s.running t ≠ some c) ∧
      ∃ k, s.coro c = some k ∧ k.status ≠ .exit

/-- No coroutine sets its `need_parallel`. -/
def Unmarked : Act → Prop
  | .call _ (.setNeedParallel b) => b = false
  | _ => True

instance : DecidablePred Unmarked := fun act => by
  unfold Unmarked
  split <;> infer_instance

/-- No coroutine registers an event. -/
def Unregistered : Act → Prop
  | .call _ (.registerEvent _ _) => False
  | _ => True

instance : DecidablePred Unregistered := fun act => by
  unfold Unregistered
  split <;> infer_instance

variable {s s' : State} {v v' : View} {act : Act} {p : EventPtr} {c co loc : Addr} {k : Coroutine}
  {t : SchedId}

/-! ## 2. Runs that register nothing -/

/-- Nothing is registered, so `event_loop` has no entry to work through. -/
structure Quiet (v : View) : Prop where
  unmarked : ∀ a k, v.coro a = some k → k.needParallel = false
  interest : v.interest = []
  none_awaits : ∀ p c, .await p c ∉ v.hist
  no_entry : ∀ a k i nsd, v.coro a = some k → k.ctx = .eventLoop (.each i nsd) → nsd ≤ i
  current : v.parallelCurrent = none

/-- A coroutine is overwritten by one that is still unmarked and has no entry to work through. -/
theorem Quiet.update (hv : Quiet v) {l : Coroutine} (hnp : l.needParallel = false)
    (hctx : ∀ i nsd, l.ctx = .eventLoop (.each i nsd) → nsd ≤ i) :
    Quiet { v with coro := Function.update v.coro c (some l) } := by
  refine ⟨fun a m hm => ?_, hv.interest, hv.none_awaits, fun a m i nsd hm hx => ?_, hv.current⟩
  all_goals
    rcases eq_or_ne a c with rfl | ha
    · simp only [Function.update_self, Option.some.injEq] at hm
      subst hm
      first
        | exact hnp
        | exact hctx i nsd hx
    · simp only [Function.update_of_ne ha] at hm
      first
        | exact hv.unmarked a m hm
        | exact hv.no_entry a m i nsd hm hx

/-- More history in which nothing is registered. -/
theorem Quiet.note (hv : Quiet v) {l : List Obs} (hnew : ∀ p c, .await p c ∉ l) :
    Quiet { v with hist := v.hist ++ l } := by
  refine ⟨hv.unmarked, hv.interest, fun p c hm => ?_, hv.no_entry, hv.current⟩
  rcases List.mem_append.mp hm with hm | hm
  · exact hv.none_awaits p c hm
  · exact hnew p c hm

/-- **Every move keeps it.** -/
theorem Quiet.move (hv : Quiet v) (h : Move v v') : Quiet v' := by
  cases h with
  | note o ho =>
    refine hv.note fun p c hm => ?_
    obtain rfl := List.mem_singleton.mp hm
    simp [Obs.minor] at ho
  | own h hk | ready hk _ =>
    have hnp := hv.unmarked _ _ hk
    exact hv.update hnp fun i nsd hx => hv.no_entry _ _ i nsd hk hx
  | @body a k stop hasTask events pc pc' call hk hctx hpc =>
    have hnp := hv.unmarked _ _ hk
    refine hv.update hnp fun i nsd hx => ?_
    cases pc with
    | each j n =>
      have hle := hv.no_entry _ _ j n hk hctx
      rw [eventLoopStep, if_neg (by omega)] at hpc
      cases hpc
      cases hx
    | _ =>
      rw [Body.eventLoop.injEq] at hx
      subst hx
      simp only [eventLoopStep] at hpc
      grind
  | @spawn a r fn h ha hr =>
    have hnew := (hv.update (c := a) (l := ⟨a.cid, fn.start, .ready, some h, false⟩) rfl (by
      cases fn <;> simp [Entry.start])).note (l := [.alloc a, .enqueue h a]) (by simp)
    exact ⟨hnew.unmarked, hnew.interest, hnew.none_awaits, hnew.no_entry, hnew.current⟩
  | @dispatch c k hm hk =>
    have hnp := hv.unmarked _ _ hk
    have hnew := (hv.update (c := c) (l := { k with status := .run }) hnp
      fun i nsd hx => hv.no_entry _ _ i nsd hk hx).note
      (l := [.pop .master c, .dispatch .master c]) (by simp)
    exact ⟨hnew.unmarked, hnew.interest, hnew.none_awaits, hnew.no_entry, hnew.current⟩
  | redispatch x hm =>
    have hnew := hv.note (l := [.dispatch .master x]) (by simp)
    exact ⟨hnew.unmarked, hnew.interest, hnew.none_awaits, hnew.no_entry, hnew.current⟩
  | @reclaim c k r hm hk hexit hr =>
    have hnew := hv.note (l := [.unregister c, .dealloc c]) (by simp)
    have hsub : ∀ a m, Function.update v.coro c none a = some m → v.coro a = some m := by
      intro a m h
      rcases eq_or_ne a c with rfl | ha
      · simp at h
      · rwa [Function.update_of_ne ha] at h
    exact ⟨fun a m h => hv.unmarked a m (hsub a m h), hv.interest, hnew.none_awaits,
      fun a m i nsd h => hv.no_entry a m i nsd (hsub a m h), hv.current⟩
  | _ => exact ⟨hv.unmarked, hv.interest, hv.none_awaits, hv.no_entry, hv.current⟩

/-- **Every step that registers nothing and marks nobody keeps it.** -/
theorem Quiet.step (hv : Quiet s.view) (hu : Unmarked act) (hr : Unregistered act)
    (h : step s act = some (.ok s')) : Quiet s'.view := by
  cases step_effect hv.current h with
  | moves hmoves => exact hmoves.inv (fun _ _ hi hmove => hi.move hmove) hv
  | send _ hmoves =>
    obtain ⟨hunm, hint, hnone, hentry, hcur⟩ :=
      hmoves.inv (fun _ _ hi hmove => hi.move hmove) hv
    exact ⟨hunm, hint, hnone, hentry, hcur⟩
  | register hact _ _ =>
    subst hact
    exact absurd hr (by simp [Unregistered])
  | remove _ hv' =>
    have hint : s.interest = [] := hv.interest
    rw [hv']
    exact ⟨hv.unmarked, by simp [hint, epollDel], hv.none_awaits, hv.no_entry, hv.current⟩
  | @epoll a k b pc pc' _ hk hctx hb hpc hv' =>
    have hint : s.interest = [] := hv.interest
    have hnil : b = [] := by
      refine List.eq_nil_iff_forall_not_mem.mpr fun e he => ?_
      obtain ⟨x, hx, -⟩ := hb e he
      rw [hint] at hx
      exact absurd hx (by simp)
    subst hnil
    have hnp := hv.unmarked _ _ hk
    have hnew := hv.update (c := a) (l := { k with ctx := .eventLoop pc' }) hnp fun i nsd hx => by
      cases pc <;> simp only [eventLoopWait, Option.some.injEq, reduceCtorEq] at hpc
      all_goals
        subst hpc
        cases hx
      exact Nat.le_refl _
    rw [hv']
    exact ⟨hnew.unmarked, hnew.interest, hnew.none_awaits, hnew.no_entry, hnew.current⟩
  | mark hact hk hv' =>
    subst hact
    rw [hv']
    exact hv.update (v := s.view) hu fun i nsd hx => hv.no_entry _ _ i nsd hk hx
  | @exit loc co k _ _ hk hv' =>
    have hnp := hv.unmarked _ _ hk
    have hnew := (hv.update (c := co) (l := { k with status := .exit }) hnp
      fun i nsd hx => hv.no_entry _ _ i nsd hk hx).note (l := [.exit co]) (by simp)
    rw [hv']
    exact ⟨hnew.unmarked, hnew.interest, hnew.none_awaits, hnew.no_entry, hnew.current⟩
  | start _ hv' =>
    rw [hv']
    exact ⟨hv.unmarked, hv.interest, hv.none_awaits, hv.no_entry, hv.current⟩
  | check _ _ _ hnew hv' =>
    have hnote := hv.note (v := s.view) fun p c hm => by simpa [Obs.minor] using hnew _ hm
    rw [hv']
    exact ⟨hnote.unmarked, hnote.interest, hnote.none_awaits, hnote.no_entry, hnote.current⟩

theorem Quiet.boot (em : Option Eventmanager) : Quiet (State.boot em).view :=
  ⟨by simp [State.view, State.boot], rfl, by simp [State.view, State.boot],
    by simp [State.view, State.boot], rfl⟩

/-- Who waits has registered an event. -/
theorem Awaits.mem {hist : List Obs} (h : Awaits hist p c) : .await p c ∈ hist := by
  obtain ⟨old, new, rfl, -⟩ := h
  simp

/-- Where nothing is registered, nobody waits and nobody is woken up. -/
theorem Quiet.wakesUp (hv : Quiet s.view) : WakesUp s := by
  refine ⟨fun p c hw => absurd hw.mem (hv.none_awaits p c), fun e p c hd => ?_⟩
  rw [State.delivering] at hd
  split at hd
  · rename_i em cid i nsd status sched np hem hrun
    obtain ⟨co, -, hk⟩ := Option.bind_eq_some_iff.mp hrun
    have hle := hv.no_entry co _ i nsd hk rfl
    rw [if_neg (by omega)] at hd
    exact absurd hd (by simp)
  · exact absurd hd (by simp)

/-! ## 3. The first registration -/

/-- Where nobody is marked and nothing is registered, no step links a coroutine twice. -/
theorem Quiet.clean (hv : Quiet s.view) : Clean s act := by
  have hrun : ∀ t k, k ∈ s.runningCoro t → ∃ co, s.view.coro co = some k := by
    intro t k hk
    obtain ⟨co, -, hco⟩ := Option.bind_eq_some_iff.mp hk
    exact ⟨co, hco⟩
  unfold Clean
  split
  · intro k hk
    obtain ⟨co, hco⟩ := hrun _ k hk
    exact hv.unmarked co k hco
  · intro k hk
    obtain ⟨co, hco⟩ := hrun _ k hk
    unfold Body.delivers
    split
    · rename_i i nsd hctx
      have hle := hv.no_entry co k i nsd hco hctx
      simpa using hle
    · rfl
  · trivial

/-- **`register_event` queues its caller**, which then waits in the queue. -/
theorem Coherent.register_linked (hs : Coherent s) (hm : s.master = .exec loc co)
    {ev : EventPtr → Event}
    (h : Corosched.registerEvent { s with event := ev } .master p = .ok s') :
    Awaits s'.hist p co ∧ Linked s'.queue .master co := by
  simp only [Corosched.registerEvent, bind_eq_ok] at h
  obtain ⟨-, -, -, -, -, -, x, -, hy⟩ := h
  obtain ⟨-, ⟨k, hk, hlive, hsched⟩, hout, hcur⟩ := hs.exec hm
  generalize hs₁ : State.note _ _ = s₁ at hy
  have hhist : s₁.hist = s.hist ++ [.await p x] := by rw [← hs₁]; rfl
  have hqueue : queuesOf s₁.hist = queuesOf s.hist := by rw [hhist, queuesOf_snoc]; rfl
  have hcoh : Coherent s₁ := by
    rw [← hs₁]
    exact hs.quiet rfl rfl rfl (queuesOf_snoc _ _) rfl rfl (fun _ => rfl)
  have hm₁ : s₁.master = .exec loc co := by rw [← hs₁]; exact hm
  have hk₁ : s₁.coro co = some k := by rw [← hs₁]; exact hk
  have hcur₁ : (s₁.sched .master).currentCoro = some co := by rw [← hs₁]; exact hcur
  obtain rfl := coroYield_cur hcoh hm₁ hy
  have hout₁ : Out s₁.hist x := by rwa [Out, hqueue]
  obtain ⟨q', hcode, hstore⟩ := coroYield_ok hcoh.store hm₁ hk₁ hlive hsched hout₁ hcur₁
  obtain rfl := Except.ok.inj (hcode.symm.trans hy)
  refine ⟨⟨s.hist, [.enqueue .master x], by simp [hhist], by simp⟩, ?_⟩
  refine hstore.queues.represents.linked_iff.mpr ?_
  rw [queuesOf_snoc]
  simp [replay]

/-- The first registration breaks the protocol. -/
theorem Coherent.register_breaks (hs : Coherent s) (hr : ¬ Unregistered act)
    (h : Corosched.step s act = some (.ok s')) : ¬ WakesUp s' := by
  intro hw
  unfold Unregistered at hr
  split at hr
  · rename_i t q ev
    simp only [Corosched.step] at h
    split at h
    · exact absurd h (by simp)
    · rename_i co hrun
      split at h
      · exact absurd h (by simp)
      · split at h
        · simp only [callStep] at h
          split at h
          · rename_i ht
            subst ht
            obtain ⟨loc, hm⟩ := running_master hrun
            obtain ⟨hawaits, hlinked⟩ := hs.register_linked hm (Option.some.inj h)
            exact (hw.waits _ _ hawaits).1 _ hlinked
          · exact absurd h (by simp)
        · exact absurd h (by simp)
  · exact hr trivial

/-- **When the event protocol holds.**  With no coroutine using `need_parallel`, the protocol holds
in all states of a run if and only if no coroutine ever registers an event. -/
theorem events_awaited {em : Option Eventmanager} {as : List Act}
    (h : Machine.Run Corosched.step (fun _ act => Unmarked act) (State.boot em) as s) :
    Machine.Throughout Corosched.step WakesUp (State.boot em) as ↔
      Machine.Meets Corosched.step (fun _ act => Unregistered act) (State.boot em) as := by
  constructor
  · intro hw
    -- up to the first registration the memory is in order
    have hinv : Machine.Throughout Corosched.step (fun s => Coherent s ∧ Quiet s.view)
        (State.boot em) as := by
      refine hw.inv h.meets (fun s act s' hi hu hstep hw' => ?_)
        ⟨Coherent.boot em, Quiet.boot em⟩
      have hr : Unregistered act := by
        by_contra hr
        exact hi.1.register_breaks hr hstep hw'
      exact ⟨hi.1.step hi.2.clean hstep, hi.2.step hu hr hstep⟩
    rintro bs act s₁ ⟨cs, hcs⟩ hbs
    by_contra hr
    rw [← hcs] at h
    obtain ⟨s₂, hrun₂, -⟩ := h.append_inv
    obtain ⟨s₁', hrun₁, -, hstep⟩ := hrun₂.snoc_inv
    obtain rfl := hrun₁.det hbs
    have hpre : bs <+: as := ⟨[act] ++ cs, by rw [← hcs, List.append_assoc]⟩
    exact (hinv bs s₁' hpre hbs).1.register_breaks hr hstep (hw _ s₂ ⟨cs, hcs⟩ hrun₂.any)
  · intro hr bs s' hp hbs
    have hmeets : Machine.Meets Corosched.step (fun _ act => Unmarked act ∧ Unregistered act)
        (State.boot em) as := fun cs a s hc hcs => ⟨h.meets cs a s hc hcs, hr cs a s hc hcs⟩
    have hq := (hmeets.run hp hbs).inv (I := fun s => Quiet s.view)
      (fun _ _ _ hi hc hstep => hi.step hc.1 hc.2 hstep) (Quiet.boot em)
    exact hq.wakesUp

/-- `event_loop` runs alone and polls; nothing is registered. -/
theorem events_awaited_alone :
    ∃ s, Machine.exec Corosched.step (fun _ act => Unmarked act ∧ Unregistered act)
        (State.boot (some ⟨false, fun _ => ⟨0, none⟩⟩))
        [.main .master .eventLoop (some ⟨16, by decide⟩), .envRun, .master, .master, .master,
          .master, .epoll (some [])] = some (.ok s) ∧
      s.running .master = some ⟨16, by decide⟩ ∧ WakesUp s := by
  have hrun : ∃ s, Machine.exec Corosched.step (fun _ act => Unmarked act ∧ Unregistered act)
        (State.boot (some ⟨false, fun _ => ⟨0, none⟩⟩))
        [.main .master .eventLoop (some ⟨16, by decide⟩), .envRun, .master, .master, .master,
          .master, .epoll (some [])] = some (.ok s) ∧
      s.running .master = some ⟨16, by decide⟩ := ⟨_, rfl, rfl⟩
  obtain ⟨s, hexec, hs⟩ := hrun
  have hrun' := Machine.Run.of_exec hexec
  have hall := (events_awaited (hrun'.imp fun _ _ hc => hc.1)).mpr fun bs a s hp hbs =>
    (hrun'.meets bs a s hp hbs).2
  exact ⟨s, hexec, hs, hall.end hrun'⟩

/-- `16` registers an event and is queued behind `32`, which runs `event_loop`; that polls, finds
nothing, calls `sched_run_once`, and `16` runs again although nothing was reported. -/
theorem awaits_queued :
    ∃ s, Machine.exec Corosched.step (fun _ act => Unmarked act)
        (State.boot (some ⟨false, fun _ => ⟨0, none⟩⟩))
        [.main .master .user (some ⟨16, by decide⟩),
          .main .master .eventLoop (some ⟨32, by decide⟩), .envRun, .master, .master, .master,
          .call .master (.registerEvent 7 ⟨readMask, 5, 0, some ⟨16, by decide⟩⟩), .master, .master,
          .master, .epoll (some []), .master, .master] = some (.ok s) ∧
      Awaits s.hist 7 ⟨16, by decide⟩ ∧ s.running .master = some ⟨16, by decide⟩ ∧ ¬ WakesUp s := by
  have hrun : ∃ s, Machine.exec Corosched.step (fun _ act => Unmarked act)
        (State.boot (some ⟨false, fun _ => ⟨0, none⟩⟩))
        [.main .master .user (some ⟨16, by decide⟩),
          .main .master .eventLoop (some ⟨32, by decide⟩), .envRun, .master, .master, .master,
          .call .master (.registerEvent 7 ⟨readMask, 5, 0, some ⟨16, by decide⟩⟩), .master, .master,
          .master, .epoll (some []), .master, .master] = some (.ok s) ∧
      Awaits s.hist 7 ⟨16, by decide⟩ ∧ s.running .master = some ⟨16, by decide⟩ :=
    ⟨_, rfl, ⟨[.alloc ⟨16, by decide⟩, .enqueue .master ⟨16, by decide⟩, .alloc ⟨32, by decide⟩,
        .enqueue .master ⟨32, by decide⟩, .pop .master ⟨16, by decide⟩,
        .dispatch .master ⟨16, by decide⟩],
      [.enqueue .master ⟨16, by decide⟩, .pop .master ⟨32, by decide⟩,
        .dispatch .master ⟨32, by decide⟩, .pop .master ⟨16, by decide⟩,
        .enqueue .master ⟨32, by decide⟩, .dispatch .master ⟨16, by decide⟩], rfl, by decide⟩, rfl⟩
  obtain ⟨s, hexec, hawaits, hs⟩ := hrun
  exact ⟨s, hexec, hawaits, hs, fun hw => (hw.waits _ _ hawaits).2 .master hs⟩

end Corosched
