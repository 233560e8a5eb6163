/-
# Whose a coroutine is

`co->sched` is written by `coro_spawn`, by `coro_sent_parallel` and by `coro_switch_to_master`, and
read by whatever queues the coroutine or switches to its scheduler; `coro_runin_parallel` reports
it.  `Owned` is what is true of it in every state: it is set, and a coroutine of the parallel
scheduler is `M_READY` for good.

`runin_parallel_right_iff`: `coro_runin_parallel` is right about the coroutines that execute if and
only if `malloc` has left the right flags in the two schedulers.  `parallel_keeps`: what has once
belonged to the parallel scheduler belongs to it for ever.
-/
import Corosched.Mutex
import Corosched.Steps

namespace Corosched

open State

variable {s s' s₁ s₂ : State} {loc co c x : Addr} {k m : Coroutine} {t h : SchedId} {act : Act}

/-! ## 1. `coro_runin_parallel` -/

/-- `coro_runin_parallel`.  Nothing writes `is_parallel_sched`: the schedulers have what `malloc`
has left there. -/
def coroRuninParallel (isParallelSched : SchedId → Bool) (s : State) (c : Option Addr) :
    Except Fault Bool := do
  ASSERT c.isSome
  let a ← deref c
  let co ← s.load a
  let h ← deref co.sched
  pure (isParallelSched h)

theorem coroRuninParallel_eq {flag : SchedId → Bool} (hk : s.coro c = some k)
    (hsched : k.sched = some h) : coroRuninParallel flag s (some c) = .ok (flag h) := by
  simp [coroRuninParallel, load_some hk, hsched]

/-- Of a coroutine that executes it reports the flag of its own thread's scheduler. -/
theorem Coherent.runin_parallel (hs : Coherent s) {flag : SchedId → Bool}
    (hr : s.running t = some co) : coroRuninParallel flag s (some co) = .ok (flag t) := by
  cases t with
  | master =>
    obtain ⟨loc, hm⟩ := running_master hr
    obtain ⟨-, ⟨k, hk, -, hsched⟩, -⟩ := hs.exec hm
    exact coroRuninParallel_eq hk hsched
  | parallel =>
    obtain ⟨⟨k, hk, -, hsched⟩, -⟩ := hs.parallelExec (running_parallel hr)
    exact coroRuninParallel_eq hk hsched

/-- A coroutine may execute on either thread. -/
theorem runs_on (t : SchedId) :
    ∃ as s co, Machine.Run step Clean (State.boot none) as s ∧ s.running t = some co := by
  cases t with
  | master =>
    have hexec : ∃ s, Machine.exec step Clean (State.boot none)
          [.main .master .user (some ⟨16, by decide⟩), .envRun, .master, .master, .master] =
            some (.ok s) ∧
        s.running .master = some ⟨16, by decide⟩ := ⟨_, rfl, rfl⟩
    obtain ⟨s, hexec, hr⟩ := hexec
    exact ⟨_, s, _, .of_exec hexec, hr⟩
  | parallel =>
    have hexec : ∃ s, Machine.exec step Clean (State.boot none)
          [.main .parallel .user (some ⟨16, by decide⟩), .envRun, .parallel, .parallel, .parallel,
            .parallel, .parallel, .parallel] = some (.ok s) ∧
        s.running .parallel = some ⟨16, by decide⟩ := ⟨_, rfl, rfl⟩
    obtain ⟨s, hexec, hr⟩ := hexec
    exact ⟨_, s, _, .of_exec hexec, hr⟩

/-- **When `coro_runin_parallel` is right.**  It tells every coroutine that executes, in every run
without a call of `event_callback` and without a `coro_switch_to_parallel` by a marked coroutine, on
which thread it does, if and only if `malloc` has left `false` in `g_mastersched` and `true` in
`g_parallelsched`. -/
theorem runin_parallel_right_iff (flag : SchedId → Bool) :
    (∀ em as s t co, Machine.Run step Clean (State.boot em) as s → s.running t = some co →
      coroRuninParallel flag s (some co) = .ok (decide (t = .parallel))) ↔
      flag .master = false ∧ flag .parallel = true := by
  constructor
  · intro hright
    have hflag : ∀ t, flag t = decide (t = .parallel) := by
      intro t
      obtain ⟨as, s, co, hrun, hr⟩ := runs_on t
      have hs : Coherent s := (Coherent.boot none).run hrun
      have hcode := hright none as s t co hrun hr
      rw [hs.runin_parallel hr] at hcode
      exact Except.ok.inj hcode
    exact ⟨hflag .master, hflag .parallel⟩
  · rintro ⟨hm, hp⟩ em as s t co hrun hr
    have hs : Coherent s := (Coherent.boot em).run hrun
    rw [hs.runin_parallel hr]
    cases t with
    | master => rw [hm]; rfl
    | parallel => rw [hp]; rfl

/-! ## 2. Owners -/

/-- A coroutine is the master scheduler's, or the parallel scheduler's and ready. -/
def Coroutine.Owned (k : Coroutine) : Prop :=
  k.sched = some .master ∨ k.sched = some .parallel ∧ k.status = .ready

theorem Coroutine.Owned.sched_ne (hk : k.Owned) : k.sched ≠ none := by
  rcases hk with hsched | ⟨hsched, -⟩ <;> simp [hsched]

/-- It becomes ready, and keeps its owner. -/
theorem Coroutine.Owned.ready (hk : k.Owned) : Coroutine.Owned { k with status := .ready } :=
  hk.imp_right fun h => ⟨h.1, rfl⟩

/-- **What is true of the owners.**  A coroutine that is about to be handed over has still its old
one. -/
structure Owned (s : State) : Prop where
  each : ∀ a k, s.coro a = some k → k.Owned
  handing : ∀ a, s.master = .sentTrylock a → ∃ k, s.coro a = some k ∧ k.sched = some .master

theorem Owned.boot (em : Option Eventmanager) : Owned (State.boot em) := by
  constructor
  · intro a k hk
    simp [State.boot] at hk
  · intro a ha
    simp [State.boot] at ha

/-- No coroutine changes, and none is taken to be handed over. -/
theorem Owned.same (ho : Owned s) (hc : s'.coro = s.coro)
    (hhand : ∀ a, s'.master = .sentTrylock a → s.master = .sentTrylock a) : Owned s' := by
  constructor
  · exact hc ▸ ho.each
  · intro a ha
    rw [hc]
    exact ho.handing a (hhand a ha)

/-- One coroutine is overwritten. -/
theorem Owned.update (ho : Owned s) (hc : s'.coro = Function.update s.coro x (some m))
    (hm : m.Owned) (hhand : ∀ a, s'.master = .sentTrylock a →
      s.master = .sentTrylock a ∧ (a = x → m.sched = some .master)) : Owned s' := by
  constructor
  · intro a k hk
    rw [hc] at hk
    rcases eq_or_ne a x with rfl | hax
    · rw [Function.update_self, Option.some.injEq] at hk
      exact hk ▸ hm
    · rw [Function.update_of_ne hax] at hk
      exact ho.each a k hk
  · intro a ha
    obtain ⟨ha', hx⟩ := hhand a ha
    rw [hc]
    rcases eq_or_ne a x with rfl | hax
    · exact ⟨m, Function.update_self _ _ _, hx rfl⟩
    · rw [Function.update_of_ne hax]
      exact ho.handing a ha'

/-- One coroutine changes in a field of its own, and the threads stay. -/
theorem Owned.own (ho : Owned s) (hk : s.coro x = some k)
    (hc : s'.coro = Function.update s.coro x (some m)) (hm : s'.master = s.master)
    (hsched : m.sched = k.sched) (hst : m.status = k.status) : Owned s' := by
  refine ho.update hc ?_ fun a ha => ⟨hm ▸ ha, ?_⟩
  · have := ho.each x k hk
    rwa [Coroutine.Owned, ← hsched, ← hst] at this
  · rintro rfl
    obtain ⟨k', hk', hk's⟩ := ho.handing a (hm ▸ ha)
    obtain rfl : k = k' := Option.some.inj (hk.symm.trans hk')
    exact hsched.trans hk's

theorem Owned.runsOnce (ho : Owned s) (h : RunsOnce s loc co s') : Owned s' := by
  cases h with
  | idle => exact ho
  | dispatch hk => exact ho.update rfl (ho.each _ _ hk).ready (by simp)

/-- **Every clean step keeps the owners.** -/
theorem Owned.step (ho : Owned s) (hs : Coherent s) (h : CleanStep s act s') : Owned s' := by
  cases h with
  | stays => exact ho
  | removeEvent | envStop | transfer => exact ho.same rfl fun _ => id
  | envRun | lock | unlock | finish | keep | locked | unlocked => exact ho.same rfl (by simp)
  | move | pop | switchTo | again => exact ho.same rfl fun _ => id
  | @spawn _ h fn mem _ _ hspawn =>
    cases hspawn with
    | noMemory => exact ho
    | @allocated a q r ha =>
      refine ho.update rfl ?_ fun b hb => ⟨hb, ?_⟩
      · cases h with
        | master => exact .inl rfl
        | parallel => exact .inr ⟨rfl, rfl⟩
      · rintro rfl
        obtain ⟨k, hk, -⟩ := ho.handing b hb
        exact absurd (ha.symm.trans hk) (by simp)
  | yield h | registerEvent h =>
    obtain ⟨-, hk⟩ := h
    exact ho.update rfl (ho.each _ _ hk).ready (by simp)
  | exit hm hk =>
    obtain ⟨-, ⟨k', hk', -, hsched⟩, -⟩ := hs.exec hm
    obtain rfl := Option.some.inj (hk.symm.trans hk')
    exact ho.update rfl (.inl hsched) (by simp)
  | runOnce _ h => exact ho.runsOnce h
  | setNeedParallel _ hk | body _ hk => exact ho.own hk rfl rfl rfl rfl
  | epoll _ hk => exact ho.own hk rfl rfl rfl rfl
  | @bodyOnce _ co k _ _ hk _ h =>
    have hbody : Owned (s.setCoro co { k with ctx := .eventLoop .wait }) :=
      ho.own hk rfl rfl rfl rfl
    exact hbody.runsOnce h
  | @take x c l q _ _ hl hx =>
    obtain ⟨c', hc', -, hsched⟩ := hs.store.queued .master x (hl ▸ List.mem_cons_self)
    refine ⟨ho.each, fun a ha => ?_⟩
    obtain rfl : x = a := by simpa using ha
    exact ⟨c', hc', hsched⟩
  | dispatch _ _ _ _ _ hsched => exact ho.update rfl (.inl hsched) (by simp)
  | @reclaim c k =>
    refine ⟨fun a m hm => ?_, by simp⟩
    rcases eq_or_ne a c with rfl | hac
    · simp at hm
    · exact ho.each a m ((Function.update_of_ne hac _ _).symm.trans hm)
  | refused => exact ho.update rfl (.inl rfl) (by simp)
  | insert _ _ hready => exact ho.update rfl (.inr ⟨rfl, hready⟩) (by simp)
  | @toMaster co k hp hk =>
    refine ho.update rfl (.inl rfl) fun a ha => ⟨ha, fun _ => rfl⟩
  | @sent co k r sock hp hk =>
    have hheld : s.parallel.holds = some co := by rw [hp]; rfl
    obtain ⟨⟨k', hk', hready⟩, -⟩ := hs.parallel.held hheld
    obtain rfl : k = k' := Option.some.inj (hk.symm.trans hk')
    refine ho.update rfl (.inr ⟨rfl, hready⟩) fun a ha => ⟨ha, ?_⟩
    rintro rfl
    have hm : s.master = .sentTrylock a := ha
    exact absurd (by rw [hm]; rfl) (hs.apart a hheld)

/-! ## 3. The parallel scheduler keeps what it gets -/

/-- `c` belongs to the parallel scheduler, or the parallel thread is in
`coro_switch_to_master(c)`. -/
inductive Kept (s : State) (c : Addr) : Prop
  | owned {k : Coroutine} (hk : s.coro c = some k) (hsched : k.sched = some .parallel) : Kept s c
  | leaving (hp : s.parallel = .toMaster c ∨ s.parallel = .sending c) : Kept s c

/-- Neither `c` nor the parallel thread changes. -/
theorem Kept.same (hc : Kept s c) (hco : s'.coro c = s.coro c) (hp : s'.parallel = s.parallel) :
    Kept s' c := by
  cases hc with
  | owned hk hsched => exact .owned (hco.trans hk) hsched
  | leaving hleave => exact .leaving (hp ▸ hleave)

/-- Another coroutine changes, or `c` does and keeps its owner. -/
theorem Kept.update (hc : Kept s c) (hk : s.coro x = some k) {v : Option Coroutine}
    (hco : s'.coro = Function.update s.coro x v) (hp : s'.parallel = s.parallel)
    (hv : k.sched = some .parallel → ∃ m, v = some m ∧ m.sched = some .parallel) : Kept s' c := by
  cases hc with
  | @owned k' hk' hsched =>
    rcases eq_or_ne c x with rfl | hcx
    · obtain rfl : k = k' := Option.some.inj (hk.symm.trans hk')
      obtain ⟨m, rfl, hm⟩ := hv hsched
      exact .owned (by rw [hco, Function.update_self]) hm
    · exact .owned (by rw [hco, Function.update_of_ne hcx, hk']) hsched
  | leaving hleave => exact .leaving (hp ▸ hleave)

/-- The parallel thread goes on from where it is in no `coro_switch_to_master`. -/
theorem Kept.goesOn (hc : Kept s c) (hco : s'.coro = s.coro)
    (hp : s.parallel ≠ .toMaster c ∧ s.parallel ≠ .sending c) : Kept s' c := by
  cases hc with
  | owned hk hsched => exact .owned (hco ▸ hk) hsched
  | leaving hleave =>
    rcases hleave with hleave | hleave
    · exact absurd hleave hp.1
    · exact absurd hleave hp.2

theorem Kept.runsOnce (hc : Kept s c) (h : RunsOnce s loc co s') : Kept s' c := by
  cases h with
  | idle => exact hc
  | dispatch hk => exact hc.update hk rfl rfl fun hsched => ⟨_, rfl, hsched⟩

/-- **Every clean step keeps it.** -/
theorem Kept.step (hc : Kept s c) (ho : Owned s)
    (hstart : s.master = .main → s.parallel = .notStarted) (h : CleanStep s act s') :
    Kept s' c := by
  cases h with
  | stays => exact hc
  | removeEvent | envStop | lock | unlock | finish | take | keep | locked | unlocked =>
    exact hc.same rfl rfl
  | envRun hm => exact hc.goesOn rfl (by simp [hstart hm])
  | spawn _ hspawn =>
    cases hspawn with
    | noMemory => exact hc
    | @allocated a q r ha =>
      cases hc with
      | owned hk hsched =>
        have hca : c ≠ a := by
          rintro rfl
          exact absurd (ha.symm.trans hk) (by simp)
        exact .owned ((Function.update_of_ne hca _ _).trans hk) hsched
      | leaving hleave => exact .leaving hleave
  | yield h | registerEvent h =>
    obtain ⟨-, hk⟩ := h
    exact hc.update hk rfl rfl fun hsched => ⟨_, rfl, hsched⟩
  | exit _ hk | setNeedParallel _ hk | dispatch _ _ _ hk | body _ hk | epoll _ hk =>
    exact hc.update hk rfl rfl fun hsched => ⟨_, rfl, hsched⟩
  | runOnce _ h => exact hc.runsOnce h
  | @bodyOnce _ co k _ _ hk _ h =>
    have hbody : Kept (s.setCoro co { k with ctx := .eventLoop .wait }) c :=
      hc.update hk rfl rfl fun hsched => ⟨_, rfl, hsched⟩
    exact hbody.runsOnce h
  | @reclaim a k r _ hk hexit =>
    refine hc.update hk rfl rfl fun hsched => ?_
    -- what belongs to the parallel scheduler has not exited
    rcases ho.each a k hk with hm | ⟨-, hready⟩
    · exact absurd (hm.symm.trans hsched) (by simp)
    · exact absurd (hexit.symm.trans hready) (by simp)
  | @refused a k hm hk =>
    obtain ⟨k', hk', hk's⟩ := ho.handing a hm
    obtain rfl : k = k' := Option.some.inj (hk.symm.trans hk')
    exact hc.update hk rfl rfl fun hsched => absurd (hk's.symm.trans hsched) (by simp)
  | insert _ hk => exact hc.update hk rfl rfl fun _ => ⟨_, rfl, rfl⟩
  | transfer hp | pop hp | switchTo hp => exact hc.goesOn rfl (by simp [hp])
  | move hp =>
    refine hc.goesOn rfl ⟨?_, ?_⟩
    all_goals
      intro he
      simp [he, ParallelPc.holds] at hp
  | @toMaster co k hp hk =>
    rcases eq_or_ne c co with rfl | hne
    · exact .leaving (.inr rfl)
    · cases hc with
      | owned hk' hsched => exact .owned ((Function.update_of_ne hne _ _).trans hk') hsched
      | leaving hleave => simp [hp, hne.symm] at hleave
  | @again co hp =>
    cases hc with
    | owned hk hsched => exact .owned hk hsched
    | leaving hleave =>
      obtain rfl : co = c := by simpa [hp] using hleave
      exact .leaving (.inl rfl)
  | @sent co k r sock hp hk =>
    rcases eq_or_ne c co with rfl | hne
    · exact .owned (Function.update_self _ _ _) rfl
    · cases hc with
      | owned hk' hsched => exact .owned ((Function.update_of_ne hne _ _).trans hk') hsched
      | leaving hleave => simp [hp, hne.symm] at hleave

/-- **Away from the master scheduler**: not in its queue, and not executing on its thread. -/
theorem Kept.away (hc : Kept s c) (hs : Coherent s) :
    c ∉ queuesOf s.hist .master ∧ s.running .master ≠ some c := by
  cases hc with
  | owned hk hsched =>
    constructor
    · intro hq
      obtain ⟨k', hk', -, hk's⟩ := hs.store.queued _ c hq
      obtain rfl := Option.some.inj (hk.symm.trans hk')
      exact absurd (hk's.symm.trans hsched) (by simp)
    · intro hr
      obtain ⟨loc, hm⟩ := running_master hr
      obtain ⟨-, ⟨k', hk', -, hk's⟩, -⟩ := hs.exec hm
      obtain rfl := Option.some.inj (hk.symm.trans hk')
      exact absurd (hk's.symm.trans hsched) (by simp)
  | leaving hp =>
    have hheld : s.parallel.holds = some c := by
      rcases hp with hp | hp <;> rw [hp] <;> rfl
    constructor
    · exact (hs.parallel.held hheld).2 .master
    · intro hr
      obtain ⟨loc, hm⟩ := running_master hr
      exact hs.apart c hheld (by rw [hm]; rfl)

/-! ## 4. For whole runs -/

/-- What holds in every state that clean runs reach. -/
structure Reached (s : State) : Prop where
  coherent : Coherent s
  owned : Owned s
  owns : Owns s.view

theorem Reached.boot (em : Option Eventmanager) : Reached (State.boot em) :=
  ⟨.boot em, .boot em, (Owns.boot em).1⟩

theorem Reached.step (hs : Reached s) (hclean : Clean s act)
    (hstep : Corosched.step s act = some (.ok s')) : Reached s' :=
  ⟨hs.coherent.step hclean hstep,
    hs.owned.step hs.coherent (hs.coherent.cleanStep hclean hstep), (hs.owns.step hstep).1⟩

theorem Reached.run {as : List Act} (hs : Reached s)
    (h : Machine.Run Corosched.step Clean s as s') : Reached s' :=
  h.inv (fun _ _ _ hi hclean hstep => hi.step hclean hstep) hs

/-- **The parallel scheduler keeps what it gets.**  In every run without a call of `event_callback`
and without a `coro_switch_to_parallel` by a marked coroutine, a coroutine that has once belonged to
it belongs to it for ever, except while the parallel thread is in `coro_switch_to_master` with it,
which gives it back; and the master scheduler neither queues it nor executes it. -/
theorem parallel_keeps {em : Option Eventmanager} {as bs : List Act}
    (h₁ : Machine.Run step Clean (State.boot em) as s₁) (h₂ : Machine.Run step Clean s₁ bs s₂)
    (hk : s₁.coro c = some k) (hsched : k.sched = some .parallel) :
    ((∃ k', s₂.coro c = some k' ∧ k'.sched = some .parallel) ∨
      s₂.parallel = .toMaster c ∨ s₂.parallel = .sending c) ∧
    c ∉ queuesOf s₂.hist .master ∧ s₂.running .master ≠ some c := by
  have hs₁ : Reached s₁ := (Reached.boot em).run h₁
  have hkept : Reached s₂ ∧ Kept s₂ c := by
    refine h₂.inv (I := fun s => Reached s ∧ Kept s c) ?_ ⟨hs₁, .owned hk hsched⟩
    intro s act s' hi hclean hstep
    exact ⟨hi.1.step hclean hstep, hi.2.step hi.1.owned hi.1.owns.start
      (hi.1.coherent.cleanStep hclean hstep)⟩
  refine ⟨?_, hkept.2.away hkept.1.coherent⟩
  cases hkept.2 with
  | owned hk' hsched' => exact .inl ⟨_, hk', hsched'⟩
  | leaving hleave => exact .inr hleave

/-- `16` runs on the parallel thread and gives itself up to the master; the `send` takes all it was
given. -/
theorem parallel_keeps_sent :
    ∃ s₁ s₂, Machine.Run step Clean (State.boot none)
        [.main .parallel .user (some ⟨16, by decide⟩), .envRun, .parallel, .parallel, .parallel,
          .parallel, .parallel, .parallel] s₁ ∧
      Machine.Run step Clean s₁ [.call .parallel .transfer, .parallel, .send (.sent 8)] s₂ ∧
      s₁.running .parallel = some ⟨16, by decide⟩ ∧ s₂.parallel = .loop ∧
      (∃ k, s₂.coro ⟨16, by decide⟩ = some k ∧ k.sched = some .parallel) ∧
      ⟨16, by decide⟩ ∉ queuesOf s₂.hist .master := by
  have hexec : ∃ s₁ s₂ k, Machine.exec step Clean (State.boot none)
        [.main .parallel .user (some ⟨16, by decide⟩), .envRun, .parallel, .parallel, .parallel,
          .parallel, .parallel, .parallel] = some (.ok s₁) ∧
      Machine.exec step Clean s₁ [.call .parallel .transfer, .parallel, .send (.sent 8)] =
        some (.ok s₂) ∧
      s₁.running .parallel = some ⟨16, by decide⟩ ∧ s₂.parallel = .loop ∧
      s₁.coro ⟨16, by decide⟩ = some k ∧ k.sched = some .parallel :=
    ⟨_, _, _, rfl, rfl, rfl, rfl, rfl, rfl⟩
  obtain ⟨s₁, s₂, k, hexec₁, hexec₂, hr, hloop, hk, hsched⟩ := hexec
  have h₁ := Machine.Run.of_exec hexec₁
  have h₂ := Machine.Run.of_exec hexec₂
  obtain ⟨hkept | hleave, haway, -⟩ := parallel_keeps h₁ h₂ hk hsched
  · exact ⟨s₁, s₂, h₁, h₂, hr, hloop, hkept, haway⟩
  · rw [hloop] at hleave
    simp at hleave

end Corosched
