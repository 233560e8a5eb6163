/-
# When `env_run` returns

`sched_run` takes an empty queue for the end of all work.  The clean runs of the program are runs of
`Custody`, home being the master scheduler: the queue of `g_mastersched`, and the coroutine that
executes on the master thread.  A coroutine that is spawned on `g_parallelsched`, or that
`sched_run` takes out of its queue for the other scheduler, is away, and then never exits; so
`sched_run` ends with all coroutines exited exactly if there was none.
-/
import Corosched.Master
import Corosched.Lib.Custody

namespace Corosched

open State Custody

/-- **The end**: when `sched_run` has left its loop, although it was not told to stop, every
coroutine that was spawned has exited; so no live one is in a queue, in the socket or on a
thread. -/
def Finished (s : State) : Prop :=
  s.master = .done → (s.sched .master).stop = false → ∀ a, aliveOf s.hist a = false

/-- A step in which no coroutine is spawned on `g_parallelsched`, and `sched_run` takes none out of
its queue that wants to go there. -/
def OnMaster (s : State) : Act → Prop
  | .main h _ mem | .call _ (.spawn h _ mem) => mem ≠ none → h = .master
  | .master => s.master = .loop → (s.sched .master).stop = false →
      ∀ c ∈ s.queue.tqh_first .master, ∀ k ∈ s.coro c, k.needParallel = false
  | _ => True

instance (s : State) : (act : Act) → Decidable (OnMaster s act)
  | .main _ _ _ | .call _ (.spawn _ _ _) | .master => inferInstanceAs (Decidable (_ → _))
  | .envRun | .parallel | .send _ | .epoll _ => isTrue trivial
  | .call _ .yield | .call _ .exit | .call _ .runOnce | .call _ (.setNeedParallel _)
  | .call _ .switchToParallel | .call _ (.registerEvent _ _) | .call _ (.removeEvent _)
  | .call _ .envStop | .call _ .transfer => isTrue trivial

/-! ## 1. The places -/

/-- What `coro_sent_parallel` has in its hands. -/
def MasterPc.outbox : MasterPc → Option Addr
  | .sentTrylock c | .sentInsert c => some c
  | _ => none

/-- Whether `sched_run` has left its loop. -/
def MasterPc.ended : MasterPc → Bool
  | .done => true
  | _ => false

/-- Where the coroutines are. -/
def State.places (s : State) : Places Addr where
  alive := aliveOf s.hist
  home := queuesOf s.hist .master
  hand := s.running .master
  outbox := s.master.outbox
  away := queuesOf s.hist .parallel
  guest := s.parallel.holds
  stopped := (s.sched .master).stop
  closed := s.master.ended

/-- The memory is in order, and the coroutines that have not exited are those of the history. -/
structure Tracked (s : State) : Prop where
  coherent : Coherent s
  alive : ∀ a, aliveOf s.hist a = true ↔ ∃ k, s.coro a = some k ∧ k.status ≠ .exit

/-- **What a step does to the places.** -/
structure Follows (s : State) (act : Act) (s' : State) : Prop where
  tracked : Tracked s'
  step : ∃ leaves, Custody.Step s.places leaves s'.places ∧ (leaves = false ↔ OnMaster s act)

variable {s s' : State} {act : Act} {loc co a b c x : Addr} {k k' : Coroutine} {t h : SchedId}
  {l : List Addr}

/-- A coroutine is overwritten by one that has exited if and only if it had. -/
theorem live_update (hk : s.coro co = some k) (hst : k'.status = .exit ↔ k.status = .exit)
    (b : Addr) : (∃ m, Function.update s.coro co (some k') b = some m ∧ m.status ≠ .exit) ↔
      ∃ m, s.coro b = some m ∧ m.status ≠ .exit := by
  rcases eq_or_ne b co with rfl | hb
  · simp [hk, hst]
  · rw [Function.update_of_ne hb]

/-- A step in which no coroutine appears and none exits. -/
theorem Tracked.moves (hs : Tracked s) (hcoh : Coherent s')
    (hlive : ∀ b, (∃ m, s'.coro b = some m ∧ m.status ≠ .exit) ↔
      ∃ m, s.coro b = some m ∧ m.status ≠ .exit)
    {p : Places Addr} {leaves : Bool} (hstep : Custody.Step s.places leaves p)
    (halive : p.alive = s.places.alive) (hplaces : s'.places = p) :
    Tracked s' ∧ Custody.Step s.places leaves s'.places := by
  refine ⟨⟨hcoh, fun b => ?_⟩, hplaces ▸ hstep⟩
  have halive' : aliveOf s'.hist = aliveOf s.hist := (congrArg Places.alive hplaces).trans halive
  rw [halive', hs.alive, hlive]

/-- A step in which nothing leaves. -/
theorem Follows.of_stays (h : Tracked s' ∧ Custody.Step s.places false s'.places)
    (hon : OnMaster s act) : Follows s act s' :=
  ⟨h.1, false, h.2, by simp [hon]⟩

/-- A step that moves no coroutine. -/
theorem Tracked.same (hs : Tracked s) (hcoh : Coherent s')
    (hlive : ∀ b, (∃ m, s'.coro b = some m ∧ m.status ≠ .exit) ↔
      ∃ m, s.coro b = some m ∧ m.status ≠ .exit) (hon : OnMaster s act)
    (hplaces : s'.places = s.places) : Follows s act s' :=
  .of_stays (hs.moves hcoh hlive .idle rfl hplaces) hon

/-! ## 2. The steps -/

/-- What `sched_run` pops next stays if it is not marked for the other scheduler. -/
theorem onMaster_iff (hs : Coherent s) {q : Coroutine} (hm : s.master = .loop)
    (hstop : (s.sched .master).stop = false) (hl : queuesOf s.hist .master = x :: l)
    (hx : s.coro x = some q) : OnMaster s .master ↔ q.needParallel = false := by
  have hfirst : s.queue.tqh_first .master = some x := by
    rw [hs.store.queues.represents.first, hl, List.head?_cons]
  simp [OnMaster, hm, hstop, hfirst, hx]

/-- `coro_spawn`, by `main` or by a coroutine. -/
theorem Tracked.spawned (hs : Tracked s) {fn : Entry} {mem : Option Addr}
    (hopen : s.places.closed = false ∨ s.places.guest ≠ none)
    (hon : OnMaster s act ↔ (mem ≠ none → h = .master)) (h' : Spawned s h fn mem s') :
    Follows s act s' := by
  have hcoh := hs.coherent.spawned h'
  cases h' with
  | noMemory => exact hs.same hcoh (fun _ => Iff.rfl) (by simp [hon]) rfl
  | @allocated a q r ha =>
    have hdead : aliveOf s.hist a = false := by
      rw [Bool.eq_false_iff]
      intro halive
      obtain ⟨k, hk, -⟩ := (hs.alive a).mp halive
      rw [ha] at hk
      exact absurd hk (by simp)
    refine ⟨⟨hcoh, fun b => ?_⟩, ?_⟩
    · rw [aliveOf_append]
      rcases eq_or_ne b a with rfl | hb
      · simp [aliveStep]
      · simpa [aliveStep, Function.update_of_ne hb] using hs.alive b
    · cases h with
      | master =>
        refine ⟨false, (Step.create hopen hdead).of_eq ?_, by simp [hon]⟩
        simp [State.places, State.running, aliveOf_append, queuesOf_append, replay, aliveStep]
      | parallel =>
        have hhand : s.places.hand ≠ some a := by
          intro hr
          obtain ⟨loc, hm⟩ := running_master hr
          obtain ⟨-, ⟨k, hk, -⟩, -⟩ := hs.coherent.exec hm
          rw [ha] at hk
          exact absurd hk (by simp)
        have haway : Custody.Step s.places true _ :=
          .createAway ⟨hs.coherent.store.not_free ha .master, hhand⟩
        refine ⟨true, haway.of_eq ?_, by simp [hon]⟩
        simp [State.places, State.running, aliveOf_append, queuesOf_append, replay, aliveStep]

/-- `coro_yield` of the coroutine that runs on the master thread. -/
theorem Tracked.yields (hs : Tracked s) (h : Yields s loc co s') :
    Tracked s' ∧ Custody.Step s.places false s'.places := by
  have hcoh := hs.coherent.yields h
  obtain ⟨hm, hk, hlive, -⟩ := h
  have hhand : s.places.hand = some co := by simp [State.places, State.running, hm]
  refine hs.moves hcoh (live_update hk (by simp [hlive])) (.put hhand) rfl ?_
  simp [State.places, hm, State.running, MasterPc.outbox, MasterPc.ended, aliveOf_append,
    queuesOf_append, replay, aliveStep]

/-- `sched_run_once`, called by the coroutine that runs on the master thread. -/
theorem Tracked.runsOnce (hs : Tracked s) (hm : s.master = .exec loc co)
    (h : RunsOnce s loc co s') : Tracked s' ∧ Custody.Step s.places false s'.places := by
  have hcoh := hs.coherent.runsOnce hm h
  cases h with
  | idle => exact ⟨hs, .idle⟩
  | dispatch hk hlive _ hl =>
    have hhand : s.places.hand = some co := by simp [State.places, State.running, hm]
    refine hs.moves hcoh (live_update hk (by simp [hlive])) (.swap hhand hl) rfl ?_
    simp [State.places, hm, hl, State.running, MasterPc.outbox, MasterPc.ended, aliveOf_append,
      queuesOf_append, replay, aliveStep]

/-- **Every clean step** is one of the abstract system. -/
theorem Tracked.step (hs : Tracked s) (hclean : Clean s act)
    (hstep : step s act = some (.ok s')) : Follows s act s' := by
  have hcoh := hs.coherent.step hclean hstep
  have hidle : s.master = .loop → s.places.hand = none := by
    intro hm
    simp [State.places, State.running, hm]
  cases hs.coherent.cleanStep hclean hstep with
  | spawn hact h =>
    obtain ⟨rfl, hm⟩ | ⟨t, co, rfl, hr⟩ := hact
    · exact hs.spawned (Or.inl (by simp [State.places, hm, MasterPc.ended])) Iff.rfl h
    · refine hs.spawned ?_ Iff.rfl h
      cases t with
      | master =>
        obtain ⟨loc, hm⟩ := running_master hr
        exact Or.inl (by simp [State.places, hm, MasterPc.ended])
      | parallel => exact Or.inr (by simp [State.places, running_parallel hr, ParallelPc.holds])
  | envRun hm =>
    refine .of_stays (hs.moves hcoh (fun _ => Iff.rfl) .dropAway rfl ?_) trivial
    simp [State.places, State.running, hm, MasterPc.outbox, MasterPc.ended, ParallelPc.holds]
  -- the calls
  | yield h => exact .of_stays (hs.yields h) trivial
  | @exit loc co k hm hk =>
    have hhand : s.places.hand = some co := by simp [State.places, State.running, hm]
    refine .of_stays ⟨⟨hcoh, fun b => ?_⟩, (Step.finish hhand).of_eq ?_⟩ trivial
    · rw [aliveOf_append]
      rcases eq_or_ne b co with rfl | hb
      · simp [aliveStep]
      · simpa [aliveStep, Function.update_of_ne hb] using hs.alive b
    · simp [State.places, hm, State.running, MasterPc.outbox, MasterPc.ended, aliveOf_append,
        queuesOf_append, replay, aliveStep]
  | runOnce hm h => exact .of_stays (hs.runsOnce hm h) trivial
  | setNeedParallel _ hk => exact hs.same hcoh (live_update hk Iff.rfl) trivial rfl
  | stays | removeEvent => exact hs.same hcoh (fun _ => Iff.rfl) trivial rfl
  | @registerEvent loc co p _ event interest _ h =>
    have hawait : State.places { s with event, interest, hist := s.hist ++ [.await p co] } =
        s.places := by
      simp [State.places, State.running, aliveOf_append, queuesOf_append, aliveStep, replay]
    have hquiet : Coherent { s with event, interest, hist := s.hist ++ [.await p co] } :=
      hs.coherent.quiet rfl rfl rfl (queuesOf_snoc _ _) rfl rfl fun _ => rfl
    obtain ⟨hs₁, -⟩ := hs.moves hquiet (fun _ => Iff.rfl) .idle rfl hawait
    obtain ⟨hs', hput⟩ := hs₁.yields h
    exact .of_stays ⟨hs', hawait ▸ hput⟩ trivial
  | envStop =>
    refine .of_stays (hs.moves hcoh (fun _ => Iff.rfl) .stop rfl ?_) trivial
    simp [State.places, State.setStop, State.running]
  | transfer hp =>
    refine hs.same hcoh (fun _ => Iff.rfl) trivial ?_
    simp [State.places, State.running, hp, ParallelPc.holds]
  -- `env_run` and `sched_run`
  | lock hm | unlock hm | locked hm | unlocked hm =>
    refine hs.same hcoh (fun _ => Iff.rfl) (by simp [OnMaster, hm]) ?_
    simp [State.places, State.running, hm, MasterPc.outbox, MasterPc.ended]
  | finish hm hend =>
    refine .of_stays (hs.moves hcoh (fun _ => Iff.rfl) (.close (hidle hm) hend) rfl ?_) ?_
    · simp [State.places, State.running, hm, MasterPc.outbox, MasterPc.ended]
    · intro _ hstop c hc
      rw [Option.mem_def, hs.coherent.store.queues.represents.first] at hc
      rcases hend with h | hnil
      · exact absurd h (by simp [hstop])
      · simp [hnil] at hc
  | @take x c l q hm hstop hl hx hready hnp =>
    have hnd := hs.coherent.store.queues.nodup .master
    rw [hl, List.nodup_cons] at hnd
    have halive : s.places.alive x = true := (hs.alive x).mpr ⟨c, hx, by simp [hready]⟩
    obtain ⟨hs', hout⟩ := hs.moves hcoh (fun _ => Iff.rfl)
      (.takeOut (hidle hm) hl hnd.1 halive) rfl (by
        simp [State.places, hm, hl, State.running, MasterPc.outbox, MasterPc.ended,
          aliveOf_append, queuesOf_append, replay, aliveStep])
    exact ⟨hs', true, hout, by simp [onMaster_iff hs.coherent hm hstop hl hx, hnp]⟩
  | dispatch hm hstop hl hx hready _ hnp =>
    have hopen : s.places.closed = false := by simp [State.places, hm, MasterPc.ended]
    refine .of_stays (hs.moves hcoh (live_update hx (by simp [hready]))
      (.take hopen (hidle hm) hl) rfl ?_) ((onMaster_iff hs.coherent hm hstop hl hx).mpr hnp)
    simp [State.places, hm, hl, State.running, MasterPc.outbox, MasterPc.ended, aliveOf_append,
      queuesOf_append, replay, aliveStep]
  | keep hm =>
    refine hs.same hcoh (fun _ => Iff.rfl) (by simp [OnMaster, hm]) ?_
    simp [State.places, State.running, hm, MasterPc.outbox, MasterPc.ended]
  | @reclaim c k r hm hk hexit =>
    refine hs.same hcoh (fun b => ?_) (by simp [OnMaster, hm]) ?_
    · rcases eq_or_ne b c with rfl | hbc
      · simp [hk, hexit]
      · simp only [Function.update_of_ne hbc]
    · simp [State.places, State.running, hm, MasterPc.outbox, MasterPc.ended, aliveOf_append,
        queuesOf_append, replay, aliveStep]
  -- `coro_sent_parallel`
  | @refused c k hm hk =>
    have hbox : s.places.outbox = some c := by simp [State.places, hm, MasterPc.outbox]
    refine .of_stays (hs.moves hcoh (live_update hk Iff.rfl) (.drop hbox) rfl ?_)
      (by simp [OnMaster, hm])
    simp [State.places, State.running, State.setCoro, hm, MasterPc.outbox, MasterPc.ended]
  | @insert c k q hm hk =>
    have hbox : s.places.outbox = some c := by simp [State.places, hm, MasterPc.outbox]
    refine .of_stays (hs.moves hcoh (live_update hk Iff.rfl) (.send hbox) rfl ?_)
      (by simp [OnMaster, hm])
    simp [State.places, State.running, hm, MasterPc.outbox, MasterPc.ended, aliveOf_append,
      queuesOf_append, aliveStep, replay]
  -- `event_loop`
  | body hm hk => exact hs.same hcoh (live_update hk Iff.rfl) (by simp [OnMaster, hm]) rfl
  | @bodyOnce loc co k _ hm hk _ h =>
    have hbody : Coherent (s.setCoro co { k with ctx := .eventLoop .wait }) :=
      hs.coherent.goesInBody hm hk
    obtain ⟨hs₁, -⟩ := hs.moves hbody (live_update hk Iff.rfl) .idle rfl rfl
    exact .of_stays (hs₁.runsOnce hm h) (by simp [OnMaster, hm])
  | epoll _ hk => exact hs.same hcoh (live_update hk Iff.rfl) trivial rfl
  -- `parallel_run`
  | move hp hp' =>
    refine hs.same hcoh (fun _ => Iff.rfl) trivial ?_
    simp [State.places, State.running, hp, hp']
  | pop _ hl =>
    refine .of_stays (hs.moves hcoh (fun _ => Iff.rfl) (.takeAway hl) rfl ?_) trivial
    simp [State.places, State.running, hl, ParallelPc.holds, aliveOf_append, queuesOf_append,
      aliveStep, replay]
  | switchTo hp =>
    refine hs.same hcoh (fun _ => Iff.rfl) trivial ?_
    simp [State.places, State.running, hp, ParallelPc.holds, aliveOf_append, queuesOf_append,
      aliveStep, replay]
  | toMaster hp hk =>
    refine hs.same hcoh (live_update hk Iff.rfl) trivial ?_
    simp [State.places, State.running, State.setCoro, hp, ParallelPc.holds]
  | again hp =>
    refine hs.same hcoh (fun _ => Iff.rfl) trivial ?_
    simp [State.places, State.running, hp, ParallelPc.holds]
  | sent hp hk =>
    refine .of_stays (hs.moves hcoh (live_update hk Iff.rfl) .dropAway rfl ?_) trivial
    simp [State.places, State.running, State.setCoro, ParallelPc.holds]

/-! ## 3. The runs -/

variable {em : Option Eventmanager} {as : List Act}

theorem Tracked.boot (em : Option Eventmanager) : Tracked (State.boot em) :=
  ⟨.boot em, by simp [State.boot, aliveOf]⟩

theorem Tracked.run (h : Machine.Run Corosched.step Clean (State.boot em) as s) : Tracked s :=
  h.inv (fun _ _ _ hi hc hs => (hi.step hc hs).tracked) (.boot em)

/-- What the abstract system says about the end. -/
theorem Finished.of_homed (h : Homed s.places) : Finished s := by
  intro hdone hstop
  exact h.finished (by simp [State.places, hdone, MasterPc.ended]) hstop

/-- **A stray stays one**, in every clean run. -/
theorem Tracked.stray (hs : Tracked s) (h : Stray s.places a)
    (hrun : Machine.Run Corosched.step Clean s as s') : Stray s'.places a := by
  have hinv : Tracked s' ∧ Stray s'.places a := by
    refine hrun.inv (I := fun s => Tracked s ∧ Stray s.places a) ?_ ⟨hs, h⟩
    intro s act s' hi hc hstep
    obtain ⟨htracked, leaves, hplaces, -⟩ := hi.1.step hc hstep
    exact ⟨htracked, hplaces.stray hi.2⟩
  exact hinv.2

/-- **When `env_run` returns with all work done**: in every clean run that spawns no coroutine on
`g_parallelsched` and in which `sched_run` takes none out of its queue for it; and of the clean runs
that come to an end by themselves, with all work done, there are no others.  The coroutines of the
master scheduler give up control by `coro_yield` and `coro_exit`, and not by a `coro_switch` of
their own. -/
theorem env_ends (em : Option Eventmanager) (as : List Act) :
    (Machine.Meets Corosched.step (fun s act => Clean s act ∧ OnMaster s act) (State.boot em) as →
      Machine.Throughout Corosched.step Finished (State.boot em) as) ∧
    ∀ s, Machine.Run Corosched.step Clean (State.boot em) as s → s.master = .done →
      (s.sched .master).stop = false → Finished s →
      Machine.Meets Corosched.step OnMaster (State.boot em) as := by
  constructor
  · intro hmeets
    refine hmeets.throughout (I := fun s => Tracked s ∧ Homed s.places) ?_ ?_
      fun s hi => .of_homed hi.2
    · rintro s act s' ⟨hs, hhomed⟩ ⟨hc, hon⟩ hstep
      obtain ⟨htracked, leaves, hplaces, hleaves⟩ := hs.step hc hstep
      obtain rfl := hleaves.mpr hon
      exact ⟨htracked, hplaces.homed hhomed⟩
    · refine ⟨.boot em, ⟨?_, rfl, ⟨rfl, rfl⟩, by simp [State.places, State.boot, MasterPc.ended]⟩⟩
      simp [State.places, State.boot, aliveOf]
  · rintro s hrun hdone hstop hfin bs act s₁ ⟨cs, hcs⟩ hbs
    by_contra hon
    -- the step has gone through, and what has left in it is still alive at the end
    rw [← hcs] at hrun
    obtain ⟨s₂, hrun₂, hrest⟩ := hrun.append_inv
    obtain ⟨s₁', hrun₁, hc, hstep⟩ := hrun₂.snoc_inv
    obtain rfl := hrun₁.det hbs
    obtain ⟨htracked, leaves, hplaces, hleaves⟩ := (Tracked.run hrun₁).step hc hstep
    obtain rfl : leaves = true := by
      cases leaves with
      | true => rfl
      | false => exact absurd (hleaves.mp rfl) hon
    obtain ⟨a, ha⟩ := hplaces.strays
    have halive := (htracked.stray ha hrest).alive
    exact absurd halive (by simp [State.places, hfin hdone hstop a])

/-- One coroutine, spawned on `g_mastersched`, exits; then `sched_run` leaves its loop. -/
theorem env_ends_one :
    ∃ s, Machine.exec Corosched.step (fun s act => Clean s act ∧ OnMaster s act) (State.boot none)
        [.main .master .user (some ⟨16, by decide⟩), .envRun, .master, .master, .master,
          .call .master .exit, .master, .master] = some (.ok s) ∧
      s.master = .done ∧ Finished s := by
  have hrun : ∃ s, Machine.exec Corosched.step (fun s act => Clean s act ∧ OnMaster s act)
        (State.boot none)
        [.main .master .user (some ⟨16, by decide⟩), .envRun, .master, .master, .master,
          .call .master .exit, .master, .master] = some (.ok s) ∧ s.master = .done := ⟨_, rfl, rfl⟩
  obtain ⟨s, hexec, hdone⟩ := hrun
  have hrun := Machine.Run.of_exec hexec
  exact ⟨s, hexec, hdone, ((env_ends none _).1 hrun.meets).end hrun⟩

/-- The only coroutine is spawned on `g_parallelsched`.  While the parallel thread executes it,
`sched_run` finds its own queue empty, and `env_run` returns. -/
theorem env_ends_early :
    ∃ s, Machine.exec Corosched.step Clean (State.boot none)
        [.main .parallel .user (some ⟨16, by decide⟩), .envRun, .master, .master, .parallel,
          .parallel, .parallel, .parallel, .parallel, .parallel, .master] = some (.ok s) ∧
      s.master = .done ∧ (s.sched .master).stop = false ∧
      s.running .parallel = some ⟨16, by decide⟩ ∧ aliveOf s.hist ⟨16, by decide⟩ = true ∧
      ¬ Finished s := by
  refine ⟨_, rfl, rfl, rfl, rfl, rfl, fun hf => ?_⟩
  have := hf rfl rfl ⟨16, by decide⟩
  exact absurd this (by decide)

end Corosched
