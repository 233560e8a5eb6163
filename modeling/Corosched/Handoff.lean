/-
# Handing a coroutine to the parallel scheduler

An iteration of `sched_run` that pops a coroutine with `need_parallel` calls `coro_sent_parallel`
and, where that has inserted the coroutine, `coro_ready_immediatly`, which wants to insert it once
more.  `handoff_never` says how every such iteration ends: by the assertion of
`coro_ready_immediatly`, or with the coroutine in no queue.
-/
import Corosched.Steps

namespace Corosched

open State

variable {s s' s₁ s₂ : State} {a b c co loc x : Addr} {k : Coroutine} {t h : SchedId} {act : Act}

/-! ## 1. The iteration -/

/-- The coroutine that the iteration of `sched_run` is handing over. -/
def MasterPc.handing : MasterPc → Option Addr
  | .sentTrylock c | .sentInsert c | .sentUnlock c | .readyImm c => some c
  | _ => none

/-- How many steps of the master thread the iteration has left, at most. -/
def MasterPc.left : MasterPc → Nat
  | .sentTrylock _ => 4
  | .sentInsert _ => 3
  | .sentUnlock _ => 2
  | .readyImm _ => 1
  | _ => 0

/-- **What the iteration owes to `c`** from its pop in `s₁` to its end in `s₂`: to be linked
exactly once in the two wait queues, or to have been popped exactly once by `parallel_run`. -/
def HandedOff (s₁ s₂ : State) (c : Addr) : Prop :=
  (∃ L, Tailq.Queues s₂.queue L ∧ (L .master ++ L .parallel).count c = 1) ∨
    s₂.hist.count (.pop .parallel c) = s₁.hist.count (.pop .parallel c) + 1

/-- A coroutine that is in no queue and was not popped has been lost. -/
theorem not_handedOff (hs : Coherent s₂) (hout : Out s₂.hist c)
    (hpop : s₂.hist.count (.pop .parallel c) = s₁.hist.count (.pop .parallel c)) :
    ¬ HandedOff s₁ s₂ c := by
  rintro (⟨L, hq, hcount⟩ | hcount)
  · have hmem : c ∈ L .master ++ L .parallel := List.count_pos_iff.mp (by omega)
    rcases List.mem_append.mp hmem with hm | hm
    all_goals
      have hlinked := hq.represents.linked_iff.mpr hm
      exact hout _ (hs.store.queues.represents.linked_iff.mp hlinked)
  · omega

/-! ## 2. The other thread -/

/-- What is written to the history by a step that pops at most what is in the parallel queue. -/
def PopsQueued (s s' : State) : Prop :=
  ∃ new, s'.hist = s.hist ++ new ∧ ∀ c, Out s.hist c → Obs.pop .parallel c ∉ new

theorem PopsQueued.refl (hh : s'.hist = s.hist) : PopsQueued s s' :=
  ⟨[], by rw [hh, List.append_nil], by simp⟩

/-- A call on the parallel thread does not fail only if it links nothing. -/
theorem Coherent.parallelCall_clean (hs : Coherent s) (hp : s.parallel = .exec co) {n : Call}
    (hstep : callStep s .parallel co n = some (.ok s')) : Clean s (.call .parallel n) := by
  cases n with
  | switchToParallel =>
    obtain ⟨⟨c, hc, hready, -⟩, -⟩ := hs.parallelExec hp
    cases hnp : c.needParallel with
    | true =>
      simp [callStep, coroSwitchToParallel, load_some hc, hnp,
        coroReadyImmediatly_ready hc hready] at hstep
    | false =>
      intro c' hc'
      rw [runningCoro_some (by rw [State.running, hp]) hc, Option.mem_some_iff] at hc'
      exact hc' ▸ hnp
  | _ => trivial

/-- **During the iteration the rest of the system** leaves the master thread where it is, keeps
the invariant, and pops what is queued. -/
theorem Coherent.handing_step (hs : Coherent s) (hc : s.master.handing = some c)
    (hact : act ≠ .master) (hstep : Corosched.step s act = some (.ok s')) :
    Coherent s' ∧ s'.master = s.master ∧ PopsQueued s s' := by
  have hexec : ∀ {loc co}, s.master ≠ .exec loc co := by
    intro loc co hm
    rw [hm] at hc
    exact absurd hc (by simp [MasterPc.handing])
  have hclean : Clean s act := by
    cases act with
    | call t n =>
      simp only [Corosched.step] at hstep
      split at hstep
      · exact absurd hstep (by simp)
      · rename_i co hr
        cases t with
        | master =>
          obtain ⟨loc, hm⟩ := running_master hr
          exact absurd hm hexec
        | parallel =>
          split at hstep
          · exact absurd hstep (by simp)
          · split at hstep
            · exact hs.parallelCall_clean (running_parallel hr) hstep
            · exact absurd hstep (by simp)
    | master => exact absurd rfl hact
    | _ => trivial
  refine ⟨hs.step hclean hstep, ?_⟩
  cases hs.cleanStep hclean hstep with
  -- steps of the master thread
  | envRun hm =>
    rw [hm] at hc
    exact absurd hc (by simp [MasterPc.handing])
  | exit hm | runOnce hm | epoll hm => exact absurd hm hexec
  | yield h | registerEvent h =>
    obtain ⟨hm, -⟩ := h
    exact absurd hm hexec
  | lock | unlock | finish | take | dispatch | keep | reclaim | locked | refused | insert
  | unlocked | body | bodyOnce => exact absurd rfl hact
  -- steps of the others
  | spawn _ h =>
    cases h with
    | noMemory => exact ⟨rfl, .refl rfl⟩
    | allocated => exact ⟨rfl, _, rfl, by simp⟩
  | @pop x _ l _ _ hl =>
    refine ⟨rfl, [.pop .parallel x], rfl, fun c hc hm => ?_⟩
    simp only [List.mem_singleton, Obs.pop.injEq, true_and] at hm
    subst hm
    exact hc .parallel (hl ▸ List.mem_cons_self)
  | switchTo => exact ⟨rfl, _, rfl, by simp⟩
  | setNeedParallel | stays | removeEvent | envStop | transfer | move | toMaster | again | sent =>
    exact ⟨rfl, .refl rfl⟩

/-! ## 3. The theorem -/

/-- What is true while the iteration lasts. -/
structure Handing (s₁ : State) (c : Addr) (s : State) : Prop where
  coherent : Coherent s
  notPopped : s.master = .sentTrylock c →
    s.hist.count (.pop .parallel c) = s₁.hist.count (.pop .parallel c)

/-- **One step of the iteration** fails, or goes on, or ends it with `c` lost. -/
theorem Handing.master (hs : Handing s₁ c s) (hc : s.master.handing = some c) :
    step s .master = some (.error .assertFail) ∨
      ∃ s', step s .master = some (.ok s') ∧ Handing s₁ c s' ∧
        ((s'.master.handing = some c ∧ s'.master.left < s.master.left) ∨
          (s'.master = .loop ∧ ¬ HandedOff s₁ s' c)) := by
  have hcoh : ∀ {s'}, step s .master = some (.ok s') → Coherent s' := by
    refine fun hstep => hs.coherent.step (a := .master) (fun k hk => ?_) hstep
    obtain ⟨co, hr, -⟩ := Option.bind_eq_some_iff.mp hk
    obtain ⟨loc, hm⟩ := running_master hr
    rw [hm] at hc
    exact absurd hc (by simp [MasterPc.handing])
  have hms := hs.coherent.master
  rw [MasterOk] at hms
  cases hm : s.master with
  | main | envLock | envUnlock | loop | exec | back | done =>
    rw [hm] at hc
    exact absurd hc (by simp [MasterPc.handing])
  | sentTrylock d =>
    obtain rfl : d = c := by simpa [hm, MasterPc.handing] using hc
    simp only [hm] at hms
    obtain ⟨⟨k, hk, -, hnp⟩, hout, -⟩ := hms
    right
    cases hmx : s.mutex with
    | none =>
      have hstep : step s .master =
          some (.ok { s with mutex := some .master, master := .sentInsert d }) := by
        simp [step, masterStep, hm, coroSentParallel, load_some hk, hnp, hmx]
      exact ⟨_, hstep, ⟨hcoh hstep, by simp⟩, Or.inl ⟨rfl, by simp [MasterPc.left]⟩⟩
    | some o =>
      have hstep : step s .master = some (.ok { s.setCoro d { k with sched := some .master } with
          master := .loop }) := by
        simp [step, masterStep, hm, coroSentParallel, load_some hk, hnp, hmx]
      have hcoh' := hcoh hstep
      exact ⟨_, hstep, ⟨hcoh', by simp⟩,
        Or.inr ⟨rfl, not_handedOff hcoh' hout (hs.notPopped hm)⟩⟩
  | sentInsert d =>
    obtain rfl : d = c := by simpa [hm, MasterPc.handing] using hc
    simp only [hm] at hms
    obtain ⟨⟨k, hk, hready, -⟩, hout, -⟩ := hms
    right
    have hstore : Store s.queue
        (Function.update s.coro d (some { k with sched := some .parallel })) s.registry
        (queuesOf s.hist) := hs.coherent.store.setCoro hk rfl fun h hq => absurd hq (hout h)
    obtain ⟨q', hcode, -⟩ := insertHead_ok (h := .parallel)
      (s := s.setCoro d { k with sched := some .parallel }) hstore (Function.update_self _ _ _)
      hready rfl hout
    have hstep : ∃ s', step s .master = some (.ok s') ∧ s'.master = .sentUnlock d := by
      simp only [step, masterStep, hm, coroSentParallelInsert, load_some hk, ok_bind, hcode,
        pure_eq_ok]
      exact ⟨_, rfl, rfl⟩
    obtain ⟨s', hstep, hm'⟩ := hstep
    exact ⟨s', hstep, ⟨hcoh hstep, by simp [hm']⟩,
      Or.inl (by simp [hm', MasterPc.handing, MasterPc.left])⟩
  | sentUnlock d =>
    obtain rfl : d = c := by simpa [hm, MasterPc.handing] using hc
    right
    have hstep : step s .master = some (.ok { s with mutex := none, master := .readyImm d }) := by
      simp [step, masterStep, hm]
    exact ⟨_, hstep, ⟨hcoh hstep, by simp⟩, Or.inl ⟨rfl, by simp [MasterPc.left]⟩⟩
  | readyImm d =>
    left
    simp only [hm] at hms
    obtain ⟨⟨k, hk, hready⟩, -⟩ := hms
    simp [step, masterStep, hm, coroReadyImmediatly_ready hk hready]

/-- **Every step of the iteration** keeps what is true. -/
theorem Handing.step (hs : Handing s₁ c s) (hc : s.master.handing = some c)
    (hstep : step s act = some (.ok s')) : Handing s₁ c s' := by
  by_cases hact : act = .master
  · subst hact
    rcases hs.master hc with hfail | ⟨s'', hstep', hs'', -⟩
    · rw [hfail] at hstep
      exact absurd hstep (by simp)
    · rw [hstep', Option.some.injEq, Except.ok.injEq] at hstep
      exact hstep ▸ hs''
  · obtain ⟨hcoh, hm, new, hh, hnew⟩ := hs.coherent.handing_step hc hact hstep
    refine ⟨hcoh, fun ht => ?_⟩
    rw [hm] at ht
    have hout : Out s.hist c := (hs.coherent.master.held (by rw [ht]; rfl)).2
    rw [hh, List.count_append, List.count_eq_zero.mpr (hnew c hout), hs.notPopped ht, Nat.add_zero]

/-- **No iteration hands a coroutine over.**  However the other thread is interleaved with it, the
iteration that has popped `c` ends after at most four steps of the master thread, and it ends in a
failed assertion or with `c` neither linked once nor popped once. -/
theorem handoff_never {as : List Act} (hs : Coherent s) (hm : s.master = .loop)
    (hpop : Corosched.step s .master = some (.ok s₁))
    (hrun : Machine.Run Corosched.step (fun s _ => s.master.handing = some c) s₁ as s₂)
    (hin : s₂.master.handing = some c) :
    ∃ r, Corosched.step s₂ .master = some r ∧
      ((∃ s', r = .ok s' ∧ s'.master.handing = some c ∧ s'.master.left < s₂.master.left) ∨
        ¬ ∃ s', r = .ok s' ∧ HandedOff s₁ s' c) := by
  have hcoh : Coherent s₁ :=
    hs.step (a := .master) (by simp [Clean, State.runningCoro, State.running, hm]) hpop
  have hhanding : Handing s₁ c s₂ :=
    hrun.inv (fun _ _ _ hi hcond hstep => hi.step hcond hstep) ⟨hcoh, fun _ => rfl⟩
  rcases hhanding.master hin with hfail | ⟨s', hstep, -, ⟨hc', hleft⟩ | ⟨-, hlost⟩⟩
  · exact ⟨_, hfail, Or.inr (by simp)⟩
  · exact ⟨_, hstep, Or.inl ⟨s', rfl, hc', hleft⟩⟩
  · refine ⟨_, hstep, Or.inr ?_⟩
    rintro ⟨s'', he, hoff⟩
    exact hlost (Except.ok.inj he ▸ hoff)

/-- While `parallel_main` holds `g_mutex`, the iteration ends with the coroutine lost. -/
theorem handoff_never_locked :
    ∃ s s₁ s₂ s' : State, Machine.exec Corosched.step Clean (State.boot none)
        [.main .master .user (some ⟨16, by decide⟩), .envRun, .master, .master, .master,
          .call .master (.setNeedParallel true), .call .master .yield, .master] = some (.ok s) ∧
      Corosched.step s .master = some (.ok s₁) ∧ s₁.master = .sentTrylock ⟨16, by decide⟩ ∧
      Corosched.step s₁ .parallel = some (.ok s₂) ∧ Corosched.step s₂ .master = some (.ok s') ∧
      s'.master = .loop ∧ ¬ HandedOff s₁ s' ⟨16, by decide⟩ := by
  have hrun : ∃ s s₁ s₂ s' : State, Machine.exec Corosched.step Clean (State.boot none)
        [.main .master .user (some ⟨16, by decide⟩), .envRun, .master, .master, .master,
          .call .master (.setNeedParallel true), .call .master .yield, .master] = some (.ok s) ∧
      s.master = .loop ∧ Corosched.step s .master = some (.ok s₁) ∧
      s₁.master = .sentTrylock ⟨16, by decide⟩ ∧ Corosched.step s₁ .parallel = some (.ok s₂) ∧
      s₂.master = .sentTrylock ⟨16, by decide⟩ ∧ Corosched.step s₂ .master = some (.ok s') ∧
      s'.master = .loop := ⟨_, _, _, _, rfl, rfl, rfl, rfl, rfl, rfl, rfl, rfl⟩
  obtain ⟨s, s₁, s₂, s', hexec, hm, hpop, hm₁, hpar, hm₂, hend, hm'⟩ := hrun
  obtain ⟨r, hr, hres⟩ := handoff_never ((Coherent.boot none).run (.of_exec hexec)) hm hpop
    (.single (by rw [hm₁]; rfl) hpar) (by rw [hm₂]; rfl)
  obtain rfl : Except.ok s' = r := Option.some.inj (hend.symm.trans hr)
  refine ⟨s, s₁, s₂, s', hexec, hpop, hm₁, hpar, hend, hm', ?_⟩
  rcases hres with ⟨s'', he, hc, -⟩ | hlost
  · obtain rfl := Except.ok.inj he
    rw [hm'] at hc
    exact absurd hc (by simp [MasterPc.handing])
  · exact fun hoff => hlost ⟨s', rfl, hoff⟩

/-- Where the trylock succeeds, the assertion of `coro_ready_immediatly` fails; where it does not,
the coroutine is in neither queue when `sched_run` is back at the test of its loop. -/
theorem handoff_lost :
    (∃ s s₁ s₂ : State, Machine.exec Corosched.step Clean (State.boot none)
        [.main .master .user (some ⟨16, by decide⟩), .envRun, .master, .master, .master,
          .call .master (.setNeedParallel true), .call .master .yield, .master] = some (.ok s) ∧
      Corosched.step s .master = some (.ok s₁) ∧ s₁.master = .sentTrylock ⟨16, by decide⟩ ∧
      Machine.exec Corosched.step Machine.Any s₁ [.master, .master, .master] = some (.ok s₂) ∧
      Corosched.step s₂ .master = some (.error .assertFail)) ∧
    ∃ s s₁ s₂ : State, Machine.exec Corosched.step Clean (State.boot none)
        [.main .master .user (some ⟨16, by decide⟩), .envRun, .master, .master, .master,
          .call .master (.setNeedParallel true), .call .master .yield, .master] = some (.ok s) ∧
      Corosched.step s .master = some (.ok s₁) ∧ s₁.master = .sentTrylock ⟨16, by decide⟩ ∧
      Machine.exec Corosched.step Clean s₁ [.parallel, .master] = some (.ok s₂) ∧
      s₂.master = .loop ∧ ¬ HandedOff s₁ s₂ ⟨16, by decide⟩ := by
  refine ⟨⟨_, _, _, rfl, rfl, rfl, rfl, rfl⟩, ?_⟩
  have hrun : ∃ s s₁ s₂ : State, Machine.exec Corosched.step Clean (State.boot none)
        [.main .master .user (some ⟨16, by decide⟩), .envRun, .master, .master, .master,
          .call .master (.setNeedParallel true), .call .master .yield, .master] = some (.ok s) ∧
      Machine.exec Corosched.step Clean s [.master] = some (.ok s₁) ∧
      Corosched.step s .master = some (.ok s₁) ∧ s₁.master = .sentTrylock ⟨16, by decide⟩ ∧
      Machine.exec Corosched.step Clean s₁ [.parallel, .master] = some (.ok s₂) ∧
      s₂.master = .loop ∧ queuesOf s₂.hist = (fun _ => []) ∧
      s₂.hist.count (.pop .parallel ⟨16, by decide⟩) =
        s₁.hist.count (.pop .parallel ⟨16, by decide⟩) := by
    refine ⟨_, _, _, rfl, rfl, rfl, rfl, rfl, rfl, ?_, rfl⟩
    funext h
    cases h <;> rfl
  obtain ⟨s, s₁, s₂, hexec, hexec₁, hpop, hm₁, hexec₂, hm₂, hL, hcount⟩ := hrun
  have hcoh : Coherent s₂ := (((Coherent.boot none).run (.of_exec hexec)).run
    (.of_exec hexec₁)).run (.of_exec hexec₂)
  exact ⟨s, s₁, s₂, hexec, hpop, hm₁, hexec₂, hm₂,
    not_handedOff hcoh (fun h => by simp [hL]) hcount⟩

end Corosched
