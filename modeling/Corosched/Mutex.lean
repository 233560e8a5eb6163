/-
# The discipline of `g_mutex`

A critical section owns the lock, in every reachable state.  The converse, that whoever owns the
lock is in a critical section, is the discipline; `mutex_discipline` says that a run keeps it as
long as `parallel_run` does not go on after a trylock that succeeded, and no longer, because
both ways out of that branch leave the lock held.
-/
import Corosched.Moves

namespace Corosched

open State

/-- **The discipline**: whoever owns the lock is inside a critical section, so nobody owns it who
sleeps, is at the test of its loop, tries to take it or executes a coroutine, and a trylock fails
only while the other thread is inside a critical section. -/
structure Disciplined (s : State) : Prop where
  parallelOwner : s.mutex = some .parallel → s.parallel.critical = true
  masterOwner : s.mutex = some .master → s.master.critical = true
  parallelLoop : s.parallel = .loop → s.mutex ≠ some .parallel
  parallelTry : s.parallel = .trylock → s.mutex ≠ none →
    s.mutex = some .master ∧ s.master.critical = true
  masterTry : ∀ c, s.master = .sentTrylock c → s.mutex ≠ none →
    s.mutex = some .parallel ∧ s.parallel.critical = true

/-- What holds in every reachable state. -/
structure Owns (v : View) : Prop where
  parallel : v.parallel.critical = true → v.mutex = some .parallel
  master : v.master.critical = true → v.mutex = some .master
  start : v.master = .main → v.parallel = .notStarted
  current : v.parallelCurrent = none

/-- What holds as well under the condition. -/
structure OwnedInside (v : View) : Prop where
  parallel : v.mutex = some .parallel → v.parallel.critical = true
  master : v.mutex = some .master → v.master.critical = true

variable {s s' : State} {v v' : View} {act : Act}

/-- **Every move keeps the owners**, and what is owned inside. -/
theorem Owns.move (hv : Owns v) (h : Move v v') : Owns v' ∧ (OwnedInside v → OwnedInside v') := by
  obtain ⟨hp, hm, hs, hc⟩ := hv
  cases h with
  | note | own | body | ready | spawn =>
    exact ⟨⟨hp, hm, hs, hc⟩, fun hi => ⟨hi.parallel, hi.master⟩⟩
  | dispatch hl hk =>
    refine ⟨⟨hp, by simp [MasterPc.critical], by simp, hc⟩, fun hi => ⟨hi.parallel, fun hx => ?_⟩⟩
    have := hi.master hx
    simp [hl, MasterPc.critical] at this
  | redispatch x hl | back hl | resume hl | reclaim hl =>
    refine ⟨⟨hp, by simp [MasterPc.critical], by simp, hc⟩, fun hi => ⟨hi.parallel, fun hx => ?_⟩⟩
    have := hi.master hx
    simp [hl, MasterPc.critical] at this
  | masterPc hl hm' hcrit =>
    refine ⟨⟨hp, fun h => hm (hcrit ▸ h), fun h => absurd h hm'.2, hc⟩, fun hi =>
      ⟨hi.parallel, fun hx => ?_⟩⟩
    rw [hcrit]
    exact hi.master hx
  | masterLock hx hl hcrit hm' hcrit' =>
    refine ⟨⟨fun h => absurd (hp h) (by simp [hx]), fun _ => rfl, fun h => ?_, hc⟩, fun _ =>
      ⟨by simp, fun _ => hcrit'⟩⟩
    simp only at h
    rw [h] at hcrit'
    exact absurd hcrit' (by simp [MasterPc.critical])
  | masterUnlock hl hcrit hm' hcrit' =>
    refine ⟨⟨fun h => ?_, fun h => absurd h (by simp [hcrit']), fun h => absurd h hm'.2, hc⟩,
      fun _ => ⟨by simp, by simp⟩⟩
    exact absurd ((hp h).symm.trans (hm hcrit)) (by simp)
  | parallelPc hn hcrit =>
    refine ⟨⟨fun h => hp (hcrit ▸ h), hm, fun h => absurd (hs h) hn, hc⟩, fun hi =>
      ⟨fun hx => ?_, hi.master⟩⟩
    rw [hcrit]
    exact hi.parallel hx
  | parallelLock hn hx hcrit hcrit' =>
    exact ⟨⟨fun _ => rfl, fun h => absurd (hm h) (by simp [hx]), fun h => absurd (hs h) hn, hc⟩,
      fun _ => ⟨fun _ => hcrit', by simp⟩⟩
  | parallelUnlock hcrit hcrit' =>
    refine ⟨⟨fun h => absurd h (by simp [hcrit']), fun h => ?_, fun h => ?_, hc⟩, fun _ =>
      ⟨by simp, by simp⟩⟩
    · exact absurd ((hp hcrit).symm.trans (hm h)) (by simp)
    · rw [hs h] at hcrit
      exact absurd hcrit (by simp [ParallelPc.critical])

theorem Owns.moves (hv : Owns v) (h : Moves v v') :
    Owns v' ∧ (OwnedInside v → OwnedInside v') := by
  refine h.inv (I := fun w => Owns w ∧ (OwnedInside v → OwnedInside w)) ?_ ⟨hv, id⟩
  intro w w' hi hmove
  obtain ⟨howns, hinside⟩ := hi.1.move hmove
  exact ⟨howns, hinside ∘ hi.2⟩

/-- **Every step keeps the owners**; and what is owned inside, but for the step by which
`parallel_run` goes on after its trylock. -/
theorem Owns.step (hv : Owns s.view) (h : step s act = some (.ok s')) :
    Owns s'.view ∧ (¬ (act = .parallel ∧ s.parallel = .check) → OwnedInside s.view →
      OwnedInside s'.view) := by
  cases step_effect hv.current h with
  | moves hmoves => exact ⟨(hv.moves hmoves).1, fun _ => (hv.moves hmoves).2⟩
  | register _ _ hmoves =>
    have hv₀ : ∀ {int hist}, Owns { s.view with interest := int, hist := hist } :=
      ⟨hv.parallel, hv.master, hv.start, hv.current⟩
    obtain ⟨howns, hinside⟩ := hv₀.moves hmoves
    exact ⟨howns, fun _ hi => hinside ⟨hi.parallel, hi.master⟩⟩
  | mark _ _ hv' | remove _ hv' | epoll _ _ _ _ _ hv' =>
    rw [hv']
    exact ⟨⟨hv.parallel, hv.master, hv.start, hv.current⟩, fun _ hi => ⟨hi.parallel, hi.master⟩⟩
  | send _ hmoves =>
    obtain ⟨⟨hp, hm, hs, hc⟩, hinside⟩ := hv.moves hmoves
    exact ⟨⟨hp, hm, hs, hc⟩, fun _ hi => ⟨(hinside hi).parallel, (hinside hi).master⟩⟩
  | exit _ hm _ hv' =>
    rw [hv']
    refine ⟨⟨hv.parallel, by simp [MasterPc.critical], by simp, hv.current⟩, fun _ hi =>
      ⟨hi.parallel, fun hx => ?_⟩⟩
    have := hi.master hx
    simp [State.view, hm, MasterPc.critical] at this
  | start hm hv' =>
    have hp : s.parallel = .notStarted := hv.start hm
    rw [hv']
    refine ⟨⟨by simp [ParallelPc.critical], by simp [MasterPc.critical], by simp, hv.current⟩,
      fun _ hi => ⟨fun hx => ?_, fun hx => ?_⟩⟩
    · have := hi.parallel hx
      simp [State.view, hp, ParallelPc.critical] at this
    · have := hi.master hx
      simp [State.view, hm, MasterPc.critical] at this
  | check hact hp hc _ hv' =>
    refine ⟨?_, fun hno => absurd ⟨hact, hp⟩ hno⟩
    rw [hv']
    refine ⟨by simp [hc], hv.master, fun h => ?_, hv.current⟩
    have : s.parallel = .notStarted := hv.start h
    rw [hp] at this
    exact absurd this (by simp)

theorem Owns.boot (em : Option Eventmanager) :
    Owns (State.boot em).view ∧ OwnedInside (State.boot em).view :=
  ⟨⟨by simp [State.view, State.boot, ParallelPc.critical],
    by simp [State.view, State.boot, MasterPc.critical], fun _ => rfl, rfl⟩,
    ⟨by simp [State.view, State.boot], by simp [State.view, State.boot]⟩⟩

/-- What is owned inside is the discipline. -/
theorem OwnedInside.disciplined (h : OwnedInside s.view) : Disciplined s := by
  refine ⟨h.parallel, h.master, fun hp hx => ?_, fun hp hx => ?_, fun c hm hx => ?_⟩
  · have := h.parallel hx
    simp [State.view, hp, ParallelPc.critical] at this
  · cases hmx : s.mutex with
    | none => exact absurd hmx hx
    | some o =>
      cases o with
      | master => exact ⟨rfl, h.master hmx⟩
      | parallel =>
        have := h.parallel hmx
        simp [State.view, hp, ParallelPc.critical] at this
  · cases hmx : s.mutex with
    | none => exact absurd hmx hx
    | some o =>
      cases o with
      | parallel => exact ⟨rfl, h.parallel hmx⟩
      | master =>
        have := h.master hmx
        simp [State.view, hm, MasterPc.critical] at this

/-- **When the discipline holds.**  A run keeps it in all its states if and only if none of its
steps is the one by which `parallel_run` goes on after a trylock that succeeded. -/
theorem mutex_discipline {em : Option Eventmanager} {as : List Act}
    (h : Machine.Run Corosched.step Machine.Any (State.boot em) as s) :
    Machine.Throughout Corosched.step Disciplined (State.boot em) as ↔
      Machine.Meets Corosched.step (fun s act => ¬ (act = .parallel ∧ s.parallel = .check))
        (State.boot em) as := by
  constructor
  · rintro hd bs act s₁ ⟨cs, hcs⟩ hrun ⟨rfl, hp⟩
    rw [← hcs] at h
    obtain ⟨s₂, hrun₂, -⟩ := h.append_inv
    obtain ⟨s₁', hrun₁, -, hstep⟩ := hrun₂.snoc_inv
    obtain rfl := hrun₁.det hrun
    have howns : Owns s₁'.view :=
      hrun₁.inv (I := fun s => Owns s.view) (fun _ _ _ hi _ hs => (hi.step hs).1) (Owns.boot em).1
    have hx : s₁'.mutex = some .parallel := howns.parallel (by simp [State.view, hp,
      ParallelPc.critical])
    obtain ⟨p, new, hc, -, hv⟩ := checkStep_view hp hstep
    have hdis := hd _ s₂ ⟨cs, hcs⟩ hrun₂
    have hx₂ : s₂.mutex = some .parallel := (congrArg View.mutex hv).trans hx
    have hp₂ : s₂.parallel = p := congrArg View.parallel hv
    have := hdis.parallelOwner hx₂
    rw [hp₂, hc] at this
    exact absurd this (by simp)
  · intro hmeets
    refine hmeets.throughout (I := fun s => Owns s.view ∧ OwnedInside s.view) ?_ (Owns.boot em)
      fun s hi => hi.2.disciplined
    intro s act s' hi hc hs
    exact ⟨(hi.1.step hs).1, (hi.1.step hs).2 hc hi.2⟩

/-- The first trylock of `parallel_run` that succeeds, and the step after it. -/
theorem mutex_discipline_first :
    ∃ s, Machine.exec Corosched.step Machine.Any (State.boot none)
        [.envRun, .master, .master, .parallel, .parallel, .parallel, .parallel, .parallel] =
          some (.ok s) ∧ s.parallel = .sleep ∧
      ¬ Machine.Throughout Corosched.step Disciplined (State.boot none)
        [.envRun, .master, .master, .parallel, .parallel, .parallel, .parallel, .parallel] := by
  have hrun : ∃ s₁ s : State, Machine.exec Corosched.step Machine.Any (State.boot none)
        [.envRun, .master, .master, .parallel, .parallel, .parallel, .parallel] = some (.ok s₁) ∧
      s₁.parallel = .check ∧
      Machine.exec Corosched.step Machine.Any (State.boot none)
        [.envRun, .master, .master, .parallel, .parallel, .parallel, .parallel, .parallel] =
          some (.ok s) ∧ s.parallel = .sleep := ⟨_, _, rfl, rfl, rfl, rfl⟩
  obtain ⟨s₁, s, hexec₁, hp₁, hexec, hp⟩ := hrun
  refine ⟨s, hexec, hp, fun hd => ?_⟩
  have hmeets := (mutex_discipline (.of_exec hexec)).mp hd
  exact hmeets _ .parallel s₁ ⟨[], rfl⟩ (.of_exec hexec₁) ⟨rfl, hp₁⟩

/-- `parallel_run` finds its queue empty and sleeps with the lock held; then every trylock fails,
of both threads, and neither thread is in a critical section. -/
theorem mutex_held_asleep :
    ∃ s : State, Machine.exec Corosched.step Machine.Any (State.boot none)
        [.envRun, .master, .master, .parallel, .parallel, .parallel, .parallel, .parallel] =
          some (.ok s) ∧ s.parallel = .sleep ∧ s.mutex = some .parallel ∧ ¬ Disciplined s := by
  refine ⟨_, rfl, rfl, rfl, fun hd => ?_⟩
  exact absurd (hd.parallelOwner rfl) (by decide)

end Corosched
