/-
# Callbacks on removed events

`event_loop` works through a batch of `epoll_wait` entry by entry, and every `event_callback` lets
another coroutine run before the next one.  `remove_event` takes an event out of the interest list,
not out of the batch: `callbacks_registered` says that a run invokes no callback on a removed event
if no event is removed while it is still in a batch, nor under another descriptor than the one it
was registered with.
-/
import Corosched.Wakeup

namespace Corosched

open State

/-! ## 1. The program and its registrations -/

/-- The program together with the events that are registered: `register_event` was called on them,
and `remove_event` has not been called since. -/
structure Watched where
  sys : State
  registered : EventPtr → Bool

/-- What an action does to the registrations. -/
def track (r : EventPtr → Bool) : Act → EventPtr → Bool
  | .call _ (.registerEvent p _) => Function.update r p true
  | .call _ (.removeEvent p) => Function.update r p false
  | _ => r

/-- A step of the program. -/
def watchStep : Machine Watched Act Fault := fun x act =>
  (step x.sys act).map fun r => do
    let s ← r
    pure ⟨s, track x.registered act⟩

/-- Nothing is registered yet. -/
def watchStart (em : Option Eventmanager) : Watched := ⟨State.boot em, fun _ => false⟩

/-- **The callback that comes next** is invoked on a registered event. -/
def LiveCallback (x : Watched) : Prop :=
  ∀ e p, x.sys.delivering = some e → e.ptr = some p → x.registered p = true

/-- An `event_loop` has still to invoke the callback of `p`, for a batch it is working through. -/
def Undelivered (s : State) (p : EventPtr) : Prop :=
  ∃ a k i nsd em j, s.coro a = some k ∧ k.ctx = .eventLoop (.each i nsd) ∧ s.eventmgr = some em ∧
    i ≤ j ∧ j < nsd ∧ (em.events j).ptr = some p

/-- `remove_event(p)` is called only when no batch holds `p` any more, and removes it under the
descriptor it was registered with. -/
def RemovesDelivered (s : State) : Act → Prop
  | .call _ (.removeEvent p) =>
    ¬ Undelivered s p ∧ ∀ x ∈ s.interest, x.2 = p → x.1 = (s.event p).sockfd
  | _ => True

/-- No event is removed. -/
def Unremoved : Act → Prop
  | .call _ (.removeEvent _) => False
  | _ => True

instance : DecidablePred Unremoved := fun act => by
  unfold Unremoved
  split <;> infer_instance

/-! ## 2. The rest of the batch -/

/-- **What is in the interest list or still to be delivered is registered.** -/
structure Live (r : EventPtr → Bool) (v : View) : Prop where
  interest : ∀ x ∈ v.interest, r x.2 = true
  pending : ∀ a k i nsd events j p, v.coro a = some k → k.ctx = .eventLoop (.each i nsd) →
    v.buffer = some events → i ≤ j → j < nsd → (events j).ptr = some p → r p = true
  current : v.parallelCurrent = none

variable {s s' : State} {v v' : View} {act : Act} {r r' : EventPtr → Bool} {a : Addr}
  {l : Coroutine} {x x' : Watched}

theorem Live.mono (hv : Live r v) (hr : ∀ p, r p = true → r' p = true) : Live r' v :=
  ⟨fun x hx => hr _ (hv.interest x hx), fun a k i nsd events j p hk hctx hb hi hj hp =>
    hr _ (hv.pending a k i nsd events j p hk hctx hb hi hj hp), hv.current⟩

/-- A coroutine is overwritten by one that has no more entries before it. -/
theorem Live.update (hv : Live r v)
    (hctx : ∀ i nsd, l.ctx = .eventLoop (.each i nsd) →
      ∃ k i₀, v.coro a = some k ∧ k.ctx = .eventLoop (.each i₀ nsd) ∧ i₀ ≤ i) :
    Live r { v with coro := Function.update v.coro a (some l) } := by
  refine ⟨hv.interest, fun b m i nsd events j p hm hx hb hi hj hp => ?_, hv.current⟩
  rcases eq_or_ne b a with rfl | hba
  · simp only [Function.update_self, Option.some.injEq] at hm
    subst hm
    obtain ⟨k, i₀, hk, hkctx, hle⟩ := hctx i nsd hx
    exact hv.pending b k i₀ nsd events j p hk hkctx hb (hle.trans hi) hj hp
  · simp only [Function.update_of_ne hba] at hm
    exact hv.pending b m i nsd events j p hm hx hb hi hj hp

/-- What only the history, the registry or the threads see. -/
theorem Live.of_eq (hv : Live r v) (hi : v'.interest = v.interest) (hc : v'.coro = v.coro)
    (hb : v'.buffer = v.buffer) (hp : v'.parallelCurrent = none) : Live r v' := by
  refine ⟨hi ▸ hv.interest, ?_, hp⟩
  rw [hc, hb]
  exact hv.pending

/-- **Every move keeps it**: the entries before `event_loop` become fewer. -/
theorem Live.move (hv : Live r v) (h : Move v v') : Live r v' := by
  cases h with
  | note | redispatch | back | resume | masterPc | masterLock | masterUnlock | parallelPc
  | parallelLock | parallelUnlock => exact hv.of_eq rfl rfl rfl hv.current
  | @own a k h hk | @ready a k hk hlive =>
    exact hv.update fun i nsd hx => ⟨k, i, hk, hx, le_rfl⟩
  | @body a k stop hasTask events pc pc' call hk hctx hpc =>
    refine hv.update fun i nsd hx => ?_
    simp only [Body.eventLoop.injEq] at hx
    subst hx
    cases pc with
    | each i₀ nsd₀ =>
      simp only [eventLoopStep] at hpc
      split at hpc <;>
        simp only [Option.some.injEq, Prod.mk.injEq, EvPc.each.injEq, reduceCtorEq, false_and]
          at hpc
      obtain ⟨⟨rfl, rfl⟩, -⟩ := hpc
      exact ⟨k, i₀, hk, hctx, Nat.le_succ i₀⟩
    | test =>
      simp only [eventLoopStep] at hpc
      split at hpc
      · simp at hpc
      · split at hpc <;> simp at hpc
    | poll | once | wait => simp [eventLoopStep] at hpc
  | @spawn a _ fn h ha hr =>
    have hup := hv.update (a := a) (l := ⟨a.cid, fn.start, .ready, some h, false⟩)
      fun i nsd hx => by cases fn <;> simp [Entry.start] at hx
    exact hup.of_eq rfl rfl rfl hv.current
  | @dispatch c k hm hk =>
    have hup := hv.update (a := c) (l := { k with status := .run })
      fun i nsd hx => ⟨k, i, hk, hx, le_rfl⟩
    exact hup.of_eq rfl rfl rfl hv.current
  | @reclaim c k _ hm hk hexit hr =>
    refine ⟨hv.interest, fun b m i nsd events j p hm => ?_, hv.current⟩
    rcases eq_or_ne b c with rfl | hbc
    · simp at hm
    · simp only [Function.update_of_ne hbc] at hm
      exact hv.pending b m i nsd events j p hm

theorem Live.moves (hv : Live r v) (h : Moves v v') : Live r v' :=
  h.inv (fun _ _ hi hmove => hi.move hmove) hv

/-- A batch is written over the buffer: what was still to be delivered from there is registered, and
so is everything in the batch. -/
theorem Live.epoll (hv : Live r s.view) {k : Coroutine} {b : List EpollEvent} {pc pc' : EvPc}
    (hb : ∀ e ∈ b, ∃ y ∈ s.interest, e.ptr = some y.2) (hpc : eventLoopWait b pc = some pc') :
    Live r { s.view with
      coro := Function.update s.coro a (some { k with ctx := .eventLoop pc' })
      buffer := s.view.buffer.map (fill b) } := by
  have hnew : ∀ j (hj : j < b.length) p, (b[j]).ptr = some p → r p = true := by
    intro j hj p hp
    obtain ⟨y, hy, hyp⟩ := hb _ (List.getElem_mem hj)
    rw [hp, Option.some.injEq] at hyp
    exact hyp ▸ hv.interest y hy
  refine ⟨hv.interest, fun c m i nsd events j p hm hx hbuf hi hj hp => ?_, hv.current⟩
  simp only [Option.map_eq_some_iff] at hbuf
  obtain ⟨old, hold, rfl⟩ := hbuf
  rcases Nat.lt_or_ge j b.length with hjb | hjb
  · refine hnew j hjb p ?_
    simpa [fill, hjb] using hp
  · -- past the end of the batch the buffer is as it was
    have hp₀ : (old j).ptr = some p := by
      simpa [fill, List.getElem?_eq_none hjb] using hp
    rcases eq_or_ne c a with rfl | hca
    · simp only [Function.update_self, Option.some.injEq] at hm
      subst hm
      simp only [Body.eventLoop.injEq] at hx
      subst hx
      cases pc with
      | poll =>
        simp only [eventLoopWait, Option.some.injEq, EvPc.each.injEq] at hpc
        omega
      | test | each | once | wait => simp [eventLoopWait] at hpc
    · simp only [Function.update_of_ne hca] at hm
      exact hv.pending c m i nsd old j p hm hx hold hi hj hp₀

/-- **`remove_event`** under the condition. -/
theorem Live.remove {t : SchedId} {q : EventPtr} (hv : Live r s.view)
    (hc : RemovesDelivered s (.call t (.removeEvent q)))
    (h : s'.view = { s.view with interest := epollDel s.interest (s.event q).sockfd }) :
    Live (Function.update r q false) s'.view := by
  obtain ⟨hdone, hfd⟩ := hc
  rw [h]
  refine ⟨fun x hx => ?_, fun a k i nsd events j p hk hctx hb hi hj hp => ?_, hv.current⟩
  · simp only [epollDel, List.mem_filter, decide_eq_true_eq] at hx
    have hne : x.2 ≠ q := fun he => hx.2 (hfd x hx.1 he)
    rw [Function.update_of_ne hne]
    exact hv.interest x hx.1
  · have hne : p ≠ q := by
      rintro rfl
      obtain ⟨em, hem, rfl⟩ := Option.map_eq_some_iff.mp hb
      exact hdone ⟨a, k, i, nsd, em, j, hk, hctx, hem, hi, hj, hp⟩
    rw [Function.update_of_ne hne]
    exact hv.pending a k i nsd events j p hk hctx hb hi hj hp

/-- A call of `remove_event` is nothing else. -/
theorem removeEvent_view {t : SchedId} {q : EventPtr}
    (h : step s (.call t (.removeEvent q)) = some (.ok s')) :
    s'.view = { s.view with interest := epollDel s.interest (s.event q).sockfd } := by
  simp only [step] at h
  split at h
  · exact absurd h (by simp)
  · split at h
    · exact absurd h (by simp)
    · split at h
      · simp only [callStep] at h
        split at h
        · simp only [pure_eq_ok, Option.some.injEq, Except.ok.injEq] at h
          exact h ▸ rfl
        · exact absurd h (by simp)
      · exact absurd h (by simp)

/-- Nothing but `remove_event` ends a registration. -/
theorem track_mono (hact : Unremoved act) (p : EventPtr) (hp : r p = true) :
    track r act p = true := by
  cases act with
  | call t n =>
    cases n with
    | removeEvent q => exact absurd hact id
    | registerEvent q ev =>
      rcases eq_or_ne p q with rfl | hpq
      · simp [track]
      · simpa [track, Function.update_of_ne hpq] using hp
    | _ => exact hp
  | _ => exact hp

/-- **Every step that meets the condition keeps it.** -/
theorem Live.step (hv : Live r s.view) (hc : RemovesDelivered s act)
    (h : step s act = some (.ok s')) : Live (track r act) s'.view := by
  by_cases hact : Unremoved act
  · have hv₁ := hv.mono (track_mono hact)
    cases step_effect hv.current h with
    | moves hmoves => exact hv₁.moves hmoves
    | @register q ev c int heq hint hmoves =>
      subst heq
      have hreg : Live (track r (.call .master (.registerEvent q ev)))
          { s.view with interest := int, hist := s.hist ++ [.await q c] } := by
        refine ⟨fun x hx => ?_, hv₁.pending, hv.current⟩
        rcases hint x hx with hx | rfl
        · exact hv₁.interest x hx
        · simp [track]
      exact hreg.moves hmoves
    | remove heq _ =>
      subst heq
      exact absurd hact id
    | epoll _ hk hctx hb hpc hv' => exact hv' ▸ hv₁.epoll hb hpc
    | send _ hmoves =>
      have hsent := hv₁.moves hmoves
      exact ⟨hsent.interest, hsent.pending, hsent.current⟩
    | @exit loc co k _ hm hk hv' =>
      rw [hv']
      have hup := hv₁.update (a := co) (l := { k with status := .exit })
        fun i nsd hx => ⟨k, i, hk, hx, le_rfl⟩
      exact hup.of_eq rfl rfl rfl hv.current
    | mark _ hk hv' =>
      rw [hv']
      exact hv₁.update fun i nsd hx => ⟨_, i, hk, hx, le_rfl⟩
    | start _ hv' | check _ _ _ _ hv' =>
      rw [hv']
      exact hv₁.of_eq rfl rfl rfl hv.current
  · unfold Unremoved at hact
    split at hact
    · exact hv.remove hc (removeEvent_view h)
    · exact absurd trivial hact

/-! ## 3. Runs -/

theorem watchStep_eq_ok (h : watchStep x act = some (.ok x')) :
    step x.sys act = some (.ok x'.sys) ∧ x'.registered = track x.registered act := by
  simp only [watchStep, Option.map_eq_some_iff, bind_eq_ok, pure_eq_ok, Except.ok.injEq] at h
  obtain ⟨r, hr, s, rfl, rfl⟩ := h
  exact ⟨hr, rfl⟩

/-- The entry that is delivered next is one of those still to be delivered. -/
theorem Live.callback (hx : Live x.registered x.sys.view) : LiveCallback x := by
  intro e p hd hp
  unfold State.delivering at hd
  split at hd
  · rename_i em cid i nsd status sched np hem hrun
    split at hd
    · rename_i hlt
      simp only [Option.some.injEq] at hd
      subst hd
      obtain ⟨co, hr, hk⟩ := Option.bind_eq_some_iff.mp hrun
      exact hx.pending co _ i nsd em.events i p hk rfl (by simp [State.view, hem]) le_rfl hlt hp
    · exact absurd hd (by simp)
  · exact absurd hd (by simp)

/-- **No callback on a removed event**, in every run in which an event is removed only when no batch
holds it any more, and under the descriptor it was registered with. -/
theorem callbacks_registered {em : Option Eventmanager} {as : List Act}
    (h : Machine.Meets watchStep (fun x act => RemovesDelivered x.sys act) (watchStart em) as) :
    Machine.Throughout watchStep LiveCallback (watchStart em) as := by
  refine h.throughout (I := fun x => Live x.registered x.sys.view) ?_ ?_ fun x hx => hx.callback
  · intro x act x' hx hc hstep
    obtain ⟨hsys, hreg⟩ := watchStep_eq_ok hstep
    exact hreg ▸ hx.step hc hsys
  · exact ⟨by simp [watchStart, State.view, State.boot],
      by simp [watchStart, State.view, State.boot], rfl⟩

/-! ## 4. Two runs -/

/-- Every coroutine was allocated in the run. -/
structure Listed (v : View) : Prop where
  alloc : ∀ a, v.coro a ≠ none → .alloc a ∈ v.hist
  current : v.parallelCurrent = none

/-- More history, and no coroutine that it does not name. -/
theorem Listed.extend (hv : Listed v) {l : List Obs} (hh : v'.hist = v.hist ++ l)
    (hc : ∀ b, v'.coro b ≠ none → v.coro b ≠ none ∨ .alloc b ∈ l)
    (hp : v'.parallelCurrent = none) : Listed v' := by
  refine ⟨fun b hb => ?_, hp⟩
  rw [hh, List.mem_append]
  exact (hc b hb).imp_left (hv.alloc b)

/-- Overwriting a coroutine allocates nothing. -/
theorem update_ne_none {f : Addr → Option Coroutine} {k : Coroutine} (hk : f a = some k) (b : Addr)
    (hb : Function.update f a (some l) b ≠ none) : f b ≠ none := by
  rcases eq_or_ne b a with rfl | hba
  · simp [hk]
  · rwa [Function.update_of_ne hba] at hb

theorem Listed.move (hv : Listed v) (h : Move v v') : Listed v' := by
  cases h with
  | note o => exact hv.extend (l := [o]) rfl (fun b hb => Or.inl hb) hv.current
  | own h hk | body hk | ready hk =>
    exact hv.extend (l := []) (by simp) (fun b hb => Or.inl (update_ne_none hk b hb)) hv.current
  | dispatch hm hk => exact hv.extend rfl (fun b hb => Or.inl (update_ne_none hk b hb)) hv.current
  | @spawn a _ fn h ha hr =>
    refine hv.extend rfl (fun b hb => ?_) hv.current
    rcases eq_or_ne b a with rfl | hba
    · exact Or.inr (by simp)
    · simp only [Function.update_of_ne hba] at hb
      exact Or.inl hb
  | @reclaim c k _ hm hk hexit hr =>
    refine hv.extend rfl (fun b hb => Or.inl ?_) hv.current
    rcases eq_or_ne b c with rfl | hbc
    · simp [hk]
    · simpa only [Function.update_of_ne hbc] using hb
  | redispatch => exact hv.extend rfl (fun b hb => Or.inl hb) hv.current
  | back | resume | masterPc | masterLock | masterUnlock | parallelPc | parallelLock
  | parallelUnlock =>
    exact hv.extend (l := []) (by simp) (fun b hb => Or.inl hb) hv.current

theorem Listed.moves (hv : Listed v) (h : Moves v v') : Listed v' :=
  h.inv (fun _ _ hi hmove => hi.move hmove) hv

theorem Listed.step (hv : Listed s.view) (h : step s act = some (.ok s')) : Listed s'.view := by
  cases step_effect hv.current h with
  | moves hmoves => exact hv.moves hmoves
  | @register q ev c int _ _ hmoves =>
    have hreg : Listed { s.view with interest := int, hist := s.hist ++ [.await q c] } :=
      hv.extend rfl (fun b hb => Or.inl hb) hv.current
    exact hreg.moves hmoves
  | send _ hmoves =>
    have hsent := hv.moves hmoves
    exact ⟨hsent.alloc, hsent.current⟩
  | exit _ hm hk hv' =>
    exact hv' ▸ hv.extend rfl (fun b hb => Or.inl (update_ne_none hk b hb)) hv.current
  | epoll _ hk _ _ _ hv' | mark _ hk hv' =>
    rw [hv']
    exact hv.extend (l := []) (by simp [State.view])
      (fun b hb => Or.inl (update_ne_none hk b hb)) hv.current
  | start _ hv' | remove _ hv' =>
    rw [hv']
    exact hv.extend (l := []) (by simp [State.view]) (fun b hb => Or.inl hb) hv.current
  | check _ _ _ _ hv' =>
    exact hv' ▸ hv.extend rfl (fun b hb => Or.inl hb) hv.current

/-- The coroutine an observation allocates. -/
def Obs.allocated : Obs → Option Addr
  | .alloc a => some a
  | _ => none

/-- A batch of one event: its callback lets the owner of another event run, which removes its
own. -/
theorem callbacks_registered_removed :
    ∃ x, Machine.exec watchStep Machine.Any (watchStart (some ⟨false, fun _ => ⟨0, none⟩⟩))
        [.main .master .user (some ⟨16, by decide⟩), .main .master .user (some ⟨32, by decide⟩),
          .main .master .eventLoop (some ⟨48, by decide⟩), .envRun, .master, .master, .master,
          .call .master (.registerEvent 2 ⟨readMask, 6, 0, some ⟨16, by decide⟩⟩), .master, .master,
          .call .master (.registerEvent 1 ⟨readMask, 5, 0, some ⟨32, by decide⟩⟩), .master, .master,
          .master, .epoll (some [⟨EPOLLIN, some 1⟩]), .master, .call .master (.removeEvent 2)] =
          some (.ok x) ∧
      .report 1 ∈ x.sys.hist ∧ x.registered 2 = false ∧
      Machine.Throughout watchStep LiveCallback (watchStart (some ⟨false, fun _ => ⟨0, none⟩⟩))
        [.main .master .user (some ⟨16, by decide⟩), .main .master .user (some ⟨32, by decide⟩),
          .main .master .eventLoop (some ⟨48, by decide⟩), .envRun, .master, .master, .master,
          .call .master (.registerEvent 2 ⟨readMask, 6, 0, some ⟨16, by decide⟩⟩), .master, .master,
          .call .master (.registerEvent 1 ⟨readMask, 5, 0, some ⟨32, by decide⟩⟩), .master, .master,
          .master, .epoll (some [⟨EPOLLIN, some 1⟩]), .master, .call .master (.removeEvent 2)] := by
  have hrun : ∃ x x' k₁ k₂ k₃, Machine.exec watchStep (fun _ act => Unremoved act)
        (watchStart (some ⟨false, fun _ => ⟨0, none⟩⟩))
        [.main .master .user (some ⟨16, by decide⟩), .main .master .user (some ⟨32, by decide⟩),
          .main .master .eventLoop (some ⟨48, by decide⟩), .envRun, .master, .master, .master,
          .call .master (.registerEvent 2 ⟨readMask, 6, 0, some ⟨16, by decide⟩⟩), .master, .master,
          .call .master (.registerEvent 1 ⟨readMask, 5, 0, some ⟨32, by decide⟩⟩), .master, .master,
          .master, .epoll (some [⟨EPOLLIN, some 1⟩]), .master] = some (.ok x) ∧
      x.sys.hist.filterMap Obs.allocated =
        [⟨16, by decide⟩, ⟨32, by decide⟩, ⟨48, by decide⟩] ∧
      x.sys.coro ⟨16, by decide⟩ = some k₁ ∧ k₁.ctx = .user ∧
      x.sys.coro ⟨32, by decide⟩ = some k₂ ∧ k₂.ctx = .user ∧
      x.sys.coro ⟨48, by decide⟩ = some k₃ ∧ k₃.ctx = .eventLoop (.each 1 1) ∧
      x.sys.interest = [(5, 1), (6, 2)] ∧ (x.sys.event 2).sockfd = 6 ∧
      watchStep x (.call .master (.removeEvent 2)) = some (.ok x') ∧
      .report 1 ∈ x'.sys.hist ∧ x'.registered 2 = false ∧
      Machine.exec watchStep Machine.Any (watchStart (some ⟨false, fun _ => ⟨0, none⟩⟩))
        [.main .master .user (some ⟨16, by decide⟩), .main .master .user (some ⟨32, by decide⟩),
          .main .master .eventLoop (some ⟨48, by decide⟩), .envRun, .master, .master, .master,
          .call .master (.registerEvent 2 ⟨readMask, 6, 0, some ⟨16, by decide⟩⟩), .master, .master,
          .call .master (.registerEvent 1 ⟨readMask, 5, 0, some ⟨32, by decide⟩⟩), .master, .master,
          .master, .epoll (some [⟨EPOLLIN, some 1⟩]), .master, .call .master (.removeEvent 2)] =
          some (.ok x') :=
    ⟨_, _, _, _, _, rfl, rfl, rfl, rfl, rfl, rfl, rfl, rfl, rfl, rfl, rfl, by decide, rfl, rfl⟩
  obtain ⟨x, x', k₁, k₂, k₃, hexec, halloc, h₁, hu₁, h₂, hu₂, h₃, hu₃, hint, hfd, hstep, hrep,
    hreg, hexec'⟩ := hrun
  have hrun := Machine.Run.of_exec hexec
  have hlisted : Listed x.sys.view := hrun.inv (I := fun x => Listed x.sys.view)
    (fun _ _ _ hi _ hs => hi.step (watchStep_eq_ok hs).1)
    ⟨by simp [watchStart, State.view, State.boot], rfl⟩
  have hcond : RemovesDelivered x.sys (.call .master (.removeEvent 2)) := by
    refine ⟨?_, by simp [hint, hfd]⟩
    rintro ⟨a, k, i, nsd, em, j, hk, hctx, hem, hi, hj, hp⟩
    have hmem : a ∈ x.sys.hist.filterMap Obs.allocated :=
      List.mem_filterMap.mpr ⟨.alloc a, hlisted.alloc a (by simp [State.view, hk]), rfl⟩
    rw [halloc] at hmem
    simp only [List.mem_cons, List.not_mem_nil, or_false] at hmem
    rcases hmem with rfl | rfl | rfl
    · rw [h₁, Option.some.injEq] at hk
      rw [← hk, hu₁] at hctx
      exact absurd hctx (by simp)
    · rw [h₂, Option.some.injEq] at hk
      rw [← hk, hu₂] at hctx
      exact absurd hctx (by simp)
    · rw [h₃, Option.some.injEq] at hk
      rw [← hk, hu₃] at hctx
      simp only [Body.eventLoop.injEq, EvPc.each.injEq] at hctx
      omega
  have himp : ∀ (y : Watched) act, Unremoved act → RemovesDelivered y.sys act := by
    intro y act hu
    unfold RemovesDelivered
    split
    · exact absurd hu id
    · trivial
  have hrun' := (hrun.imp himp).snoc hcond hstep
  exact ⟨x', hexec', hrep, hreg, callbacks_registered hrun'.meets⟩

/-- Two events become ready in one batch.  The callback of the first lets the owner of the second
run, which removes its event and exits; then `event_loop` goes on with the batch, and the callback
of the removed event fails the assertion that its owner has not exited. -/
theorem callback_removed :
    ∃ x, Machine.exec watchStep Machine.Any (watchStart (some ⟨false, fun _ => ⟨0, none⟩⟩))
        [.main .master .user (some ⟨16, by decide⟩), .main .master .user (some ⟨32, by decide⟩),
          .main .master .eventLoop (some ⟨48, by decide⟩), .envRun, .master, .master, .master,
          .call .master (.registerEvent 2 ⟨readMask, 6, 0, some ⟨16, by decide⟩⟩), .master, .master,
          .call .master (.registerEvent 1 ⟨readMask, 5, 0, some ⟨32, by decide⟩⟩), .master, .master,
          .master, .epoll (some [⟨EPOLLIN, some 1⟩, ⟨EPOLLIN, some 2⟩]), .master,
          .call .master (.removeEvent 2), .call .master .exit, .master, .master,
          .call .master .yield, .master, .master] = some (.ok x) ∧
      x.sys.delivering = some ⟨EPOLLIN, some 2⟩ ∧ x.registered 2 = false ∧
      watchStep x .master = some (.error .assertFail) ∧ ¬ LiveCallback x := by
  have hrun : ∃ x, Machine.exec watchStep Machine.Any
        (watchStart (some ⟨false, fun _ => ⟨0, none⟩⟩))
        [.main .master .user (some ⟨16, by decide⟩), .main .master .user (some ⟨32, by decide⟩),
          .main .master .eventLoop (some ⟨48, by decide⟩), .envRun, .master, .master, .master,
          .call .master (.registerEvent 2 ⟨readMask, 6, 0, some ⟨16, by decide⟩⟩), .master, .master,
          .call .master (.registerEvent 1 ⟨readMask, 5, 0, some ⟨32, by decide⟩⟩), .master, .master,
          .master, .epoll (some [⟨EPOLLIN, some 1⟩, ⟨EPOLLIN, some 2⟩]), .master,
          .call .master (.removeEvent 2), .call .master .exit, .master, .master,
          .call .master .yield, .master, .master] = some (.ok x) ∧
      x.sys.delivering = some ⟨EPOLLIN, some 2⟩ ∧ x.registered 2 = false ∧
      watchStep x .master = some (.error .assertFail) := ⟨_, rfl, rfl, rfl, rfl⟩
  obtain ⟨x, hexec, hd, hr, hstep⟩ := hrun
  refine ⟨x, hexec, hd, hr, hstep, fun hl => ?_⟩
  have := hl _ 2 hd rfl
  rw [hr] at this
  exact absurd this (by simp)

end Corosched
