/-
# What `event_loop` delivers

`event_loop` by itself, against every sequence of batches returned by `epoll_wait` and every
sequence of answers of `sched_has_task`.  The entries returned by the call that does not block are
delivered one by one; those returned by the call that blocks are counted and forgotten.
`loop_delivers`: the loop loses nothing exactly as long as the batches of the blocking call are
empty.
-/
import Corosched.Eventmgr
import Corosched.Lib.Run

namespace Corosched

/-! ## 1. The loop by itself -/

/-- Where the loop is, its buffer, and what was returned to it and delivered by it so far. -/
structure LoopState where
  pc : EvPc
  events : Nat → EpollEvent
  returned : List EpollEvent
  delivered : List EpollEvent

/-- What the loop is told: an answer of `sched_has_task`, for a step between two calls of
`epoll_wait`, or a batch. -/
inductive LoopAct
  | go (hasTask : Bool)
  | epoll (b : List EpollEvent)

/-- What a call passes to `event_callback`. -/
def EvCall.delivers : EvCall → List EpollEvent
  | .callback e => [e]
  | _ => []

/-- **One step of the loop**, not stopped. -/
def loopStep : Machine LoopState LoopAct Fault := fun s act =>
  match act with
  | .go hasTask => (eventLoopStep false hasTask s.events s.pc).map fun x =>
    pure { s with pc := x.1, delivered := s.delivered ++ x.2.delivers }
  | .epoll b =>
    if b.length ≤ eventSizeHint then
      (eventLoopWait b s.pc).map fun pc =>
        pure ⟨pc, fill b s.events, s.returned ++ b, s.delivered⟩
    else none

/-- The loop before its first test. -/
def loopStart (events : Nat → EpollEvent) : LoopState := ⟨.test, events, [], []⟩

/-- **Nothing is lost**: what was delivered is the beginning of what was returned, and all of it at
the test of the loop and wherever `epoll_wait` is called and overwrites the buffer. -/
structure Lossless (s : LoopState) : Prop where
  in_order : s.delivered <+: s.returned
  all : s.pc = .test ∨ s.pc = .poll ∨ s.pc = .wait → s.delivered = s.returned

/-- The call of `epoll_wait` that blocks returns nothing. -/
def BlockingEmpty (s : LoopState) : LoopAct → Prop
  | .epoll b => s.pc = .wait → b = []
  | .go _ => True

instance (s : LoopState) (act : LoopAct) : Decidable (BlockingEmpty s act) := by
  unfold BlockingEmpty
  split <;> infer_instance

/-! ## 2. The invariant -/

/-- The entries of the buffer that are still to be delivered. -/
def LoopState.pending (s : LoopState) : List EpollEvent :=
  match s.pc with
  | .each i nsd => (List.range (nsd - i)).map fun j => s.events (i + j)
  | _ => []

variable {s s' : LoopState} {act : LoopAct} {b : List EpollEvent}

/-- What `epoll_wait` has written is what it returned. -/
theorem fill_range (b : List EpollEvent) (events : Nat → EpollEvent) :
    ((List.range b.length).map fun j => fill b events (0 + j)) = b := by
  apply List.ext_getElem
  · simp
  · intro i h₁ h₂
    simp [fill, h₂]

/-- **Every step keeps** that what was returned was delivered or is pending, unless the blocking
call returns something. -/
theorem pending_step (hs : s.returned = s.delivered ++ s.pending) (hc : BlockingEmpty s act)
    (h : loopStep s act = some (.ok s')) : s'.returned = s'.delivered ++ s'.pending := by
  cases act with
  | go hasTask =>
    simp only [loopStep, Option.map_eq_some_iff] at h
    obtain ⟨⟨pc, call⟩, hstep, h⟩ := h
    simp only [pure_eq_ok, Except.ok.injEq] at h
    subst h
    rw [LoopState.pending] at hs
    cases hpc : s.pc with
    | poll | wait => simp [hpc, eventLoopStep] at hstep
    | test =>
      simp only [hpc, eventLoopStep, Bool.false_eq_true, if_false] at hstep hs
      split at hstep
      all_goals
        simp only [Option.some.injEq, Prod.mk.injEq] at hstep
        obtain ⟨rfl, rfl⟩ := hstep
        simpa [LoopState.pending, EvCall.delivers] using hs
    | once =>
      simp only [hpc, eventLoopStep, Option.some.injEq, Prod.mk.injEq] at hstep hs
      obtain ⟨rfl, rfl⟩ := hstep
      simpa [LoopState.pending, EvCall.delivers] using hs
    | each i nsd =>
      simp only [hpc, eventLoopStep] at hstep hs
      split at hstep
      · rename_i hi
        simp only [Option.some.injEq, Prod.mk.injEq] at hstep
        obtain ⟨rfl, rfl⟩ := hstep
        have hn : nsd - i = (nsd - (i + 1)) + 1 := by omega
        have hshift : (fun j => s.events (i + (j + 1))) = fun j => s.events (i + 1 + j) := by
          funext j
          congr 1
          omega
        rw [hs, hn, List.range_succ_eq_map]
        simp only [LoopState.pending, EvCall.delivers, List.map_cons, List.map_map,
          Function.comp_def, Nat.add_zero, Nat.succ_eq_add_one, List.append_assoc,
          List.singleton_append]
        rw [hshift]
      · rename_i hi
        simp only [Option.some.injEq, Prod.mk.injEq] at hstep
        obtain ⟨rfl, rfl⟩ := hstep
        have hn : nsd - i = 0 := by omega
        rw [hs, hn]
        simp [LoopState.pending, EvCall.delivers]
  | epoll b =>
    simp only [loopStep] at h
    split at h
    · obtain ⟨pc, hwait, h⟩ := Option.map_eq_some_iff.mp h
      simp only [pure_eq_ok, Except.ok.injEq] at h
      subst h
      rw [LoopState.pending] at hs
      cases hpc : s.pc with
      | test | each | once => simp [hpc, eventLoopWait] at hwait
      | poll =>
        simp only [hpc, eventLoopWait, Option.some.injEq] at hwait hs
        subst hwait
        simp only [LoopState.pending, Nat.sub_zero, fill_range, hs, List.append_nil]
      | wait =>
        simp only [hpc, eventLoopWait, Option.some.injEq] at hwait hs
        subst hwait
        have hb : b = [] := hc hpc
        simp [LoopState.pending, hs, hb]
    · exact absurd h (by simp)

theorem lossless_of_pending (hs : s.returned = s.delivered ++ s.pending) : Lossless s := by
  refine ⟨⟨_, hs.symm⟩, fun hpc => ?_⟩
  rcases hpc with hpc | hpc | hpc
  all_goals
    rw [LoopState.pending, hpc] at hs
    simpa using hs.symm

/-- What the blocking call returns is lost. -/
theorem blocking_lost (hs : Lossless s) (hc : ¬ BlockingEmpty s act)
    (h : loopStep s act = some (.ok s')) : ¬ Lossless s' := by
  cases act with
  | go hasTask => exact absurd trivial hc
  | epoll b =>
    simp only [BlockingEmpty, Classical.not_imp] at hc
    obtain ⟨hpc, hb⟩ := hc
    simp only [loopStep, hpc, eventLoopWait, Option.map_some] at h
    split at h
    · simp only [pure_eq_ok, Option.some.injEq, Except.ok.injEq] at h
      subst h
      intro hs'
      have hold := hs.all (Or.inr (Or.inr hpc))
      have hnew := hs'.all (Or.inl rfl)
      simp only [hold] at hnew
      exact hb (by simpa using hnew)
    · exact absurd h (by simp)

/-! ## 3. The runs -/

/-- **When the loop loses nothing.**  For every sequence of batches and answers, nothing is lost in
any state of the run if and only if every batch returned by the blocking call is empty. -/
theorem loop_delivers {events : Nat → EpollEvent} {as : List LoopAct}
    (h : Machine.Run loopStep Machine.Any (loopStart events) as s) :
    Machine.Throughout loopStep Lossless (loopStart events) as ↔
      Machine.Meets loopStep BlockingEmpty (loopStart events) as := by
  constructor
  · rintro hl bs act s₁ ⟨cs, hcs⟩ hbs
    by_contra hc
    rw [← hcs] at h
    obtain ⟨s₂, hrun₂, -⟩ := h.append_inv
    obtain ⟨s₁', hrun₁, -, hstep⟩ := hrun₂.snoc_inv
    obtain rfl := hrun₁.det hbs
    have hpre : bs <+: as := ⟨[act] ++ cs, by rw [← hcs, List.append_assoc]⟩
    exact blocking_lost (hl bs s₁' hpre hbs) hc hstep (hl _ s₂ ⟨cs, hcs⟩ hrun₂)
  · intro hmeets
    exact hmeets.throughout (I := fun s => s.returned = s.delivered ++ s.pending)
      (fun _ _ _ hi hc hs => pending_step hi hc hs) rfl fun _ hi => lossless_of_pending hi

/-- The call that does not block returns an entry, which is delivered. -/
theorem loop_delivers_polled :
    ∃ s, Machine.exec loopStep BlockingEmpty (loopStart fun _ => ⟨0, none⟩)
        [.go true, .epoll [⟨1, some 7⟩], .go true, .go true, .go true, .epoll []] =
          some (.ok s) ∧
      s.delivered = [⟨1, some 7⟩] ∧
      Machine.Throughout loopStep Lossless (loopStart fun _ => ⟨0, none⟩)
        [.go true, .epoll [⟨1, some 7⟩], .go true, .go true, .go true, .epoll []] := by
  have hrun : ∃ s, Machine.exec loopStep BlockingEmpty (loopStart fun _ => ⟨0, none⟩)
        [.go true, .epoll [⟨1, some 7⟩], .go true, .go true, .go true, .epoll []] =
          some (.ok s) ∧ s.delivered = [⟨1, some 7⟩] := ⟨_, rfl, rfl⟩
  obtain ⟨s, hexec, hd⟩ := hrun
  have hrun' := Machine.Run.of_exec hexec
  exact ⟨s, hexec, hd, (loop_delivers hrun'.any).mpr hrun'.meets⟩

/-- Nothing is ready to run, the blocking call returns an entry, and the loop is at its next
`epoll_wait` without having delivered it. -/
theorem loop_loses :
    ∃ s, Machine.exec loopStep Machine.Any (loopStart fun _ => ⟨0, none⟩)
        [.go false, .epoll [⟨1, some 7⟩], .go true] = some (.ok s) ∧ s.pc = .poll ∧
      s.returned = [⟨1, some 7⟩] ∧ s.delivered = [] ∧ ¬ Lossless s := by
  have hrun : ∃ s, Machine.exec loopStep Machine.Any (loopStart fun _ => ⟨0, none⟩)
        [.go false, .epoll [⟨1, some 7⟩], .go true] = some (.ok s) ∧ s.pc = .poll ∧
      s.returned = [⟨1, some 7⟩] ∧ s.delivered = [] := ⟨_, rfl, rfl, rfl, rfl⟩
  obtain ⟨s, hexec, hpc, hret, hdel⟩ := hrun
  refine ⟨s, hexec, hpc, hret, hdel, fun hs => ?_⟩
  have hall := hs.all (Or.inr (Or.inl hpc))
  rw [hret, hdel] at hall
  exact absurd hall (by simp)

/-! ## 4. The loop in the program -/

variable {t t' : State} {co : Addr} {c : Coroutine} {pc : EvPc}

/-- **A return of `epoll_wait` in the program** is a step of the loop. -/
theorem eventLoopEpoll_loopStep (h : eventLoopEpoll t co c pc (some b) = some (.ok t'))
    (returned delivered : List EpollEvent) :
    ∃ em pc', t.eventmgr = some em ∧
      loopStep ⟨pc, em.events, returned, delivered⟩ (.epoll b) =
        some (.ok ⟨pc', fill b em.events, returned ++ b, delivered⟩) ∧
      t'.eventmgr = some { em with events := fill b em.events } ∧
      t'.coro co = some { c with ctx := .eventLoop pc' } := by
  unfold eventLoopEpoll at h
  cases hem : t.eventmgr with
  | none => simp [hem] at h
  | some em =>
    simp only [hem] at h
    cases hw : eventLoopWait b pc with
    | none => simp [hw] at h
    | some pc' =>
      simp only [hw] at h
      split at h
      · rename_i hok
        simp only [pure_eq_ok, Option.some.injEq, Except.ok.injEq] at h
        subst h
        exact ⟨em, pc', rfl, by simp [loopStep, hok.1, hw], rfl, Function.update_self _ _ _⟩
      · exact absurd h (by simp)

/-- **Between two calls of `epoll_wait`** the program makes the steps of the loop, and what the
loop delivers is passed to `event_callback`. -/
theorem eventLoopRun_loopStep (h : eventLoopRun t co c pc = some (.ok t'))
    (returned delivered : List EpollEvent) :
    ∃ em pc' call, t.eventmgr = some em ∧
      loopStep ⟨pc, em.events, returned, delivered⟩ (.go (schedHasTask t)) =
        some (.ok ⟨pc', em.events, returned, delivered ++ EvCall.delivers call⟩) ∧
      ∀ e ∈ call.delivers,
        eventCallback (t.setCoro co { c with ctx := .eventLoop pc' }) e.ptr e.events = .ok t' := by
  rw [eventLoopRun] at h
  cases hem : t.eventmgr with
  | none => simp [hem] at h
  | some em =>
    simp only [hem] at h
    split at h
    · exact absurd h (by simp)
    · rename_i pc' call hstep
      -- where the loop has been stopped it returns, and its coroutine with it
      have hgo : eventLoopStep false (schedHasTask t) em.events pc = some (pc', call) := by
        cases pc with
        | test =>
          cases hst : em.stop with
          | false => rwa [hst] at hstep
          | true =>
            simp only [hst, eventLoopStep, if_true, Option.some.injEq, Prod.mk.injEq] at hstep
            obtain ⟨-, rfl⟩ := hstep
            exact absurd h (by simp)
        | _ => exact hstep
      refine ⟨em, pc', call, rfl, by simp [loopStep, hgo], fun e he => ?_⟩
      cases call with
      | callback e' =>
        obtain rfl : e = e' := by simpa [EvCall.delivers] using he
        exact Option.some.inj h
      | _ => simp [EvCall.delivers] at he

end Corosched
