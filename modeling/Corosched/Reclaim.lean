/-
# Reclaiming what has exited

`coro_exit` only marks the coroutine; `sched_run` frees what it finds marked after its switch,
looking at the coroutine it dispatched itself.  `reclaimOf` reads off the history whether every
exit was answered, before the next dispatch on the master thread, by one removal and one
deallocation of the same coroutine.  `exits_reclaimed`: it was, in every run in which the
coroutine that exits is always the one in the local variable of `sched_run`.
-/
import Corosched.Moves

namespace Corosched

open State

/-! ## 1. What the history says -/

/-- What is still owed to a coroutine that has exited. -/
inductive Owed
  | nothing
  /-- its removal from `coroutine_rbt`, and then its deallocation -/
  | removal (c : Addr)
  /-- its deallocation -/
  | dealloc (c : Addr)
  deriving DecidableEq

/-- What an observation does to what is owed; `none` is a removal or deallocation that is not
owed, or a dispatch or exit while something is. -/
def reclaimStep : Option Owed → Obs → Option Owed
  | some .nothing, .exit c => some (.removal c)
  | some (.removal c), .unregister d => if d = c then some (.dealloc c) else none
  | some (.dealloc c), .dealloc d => if d = c then some .nothing else none
  | some .nothing, .dispatch .master _ => some .nothing
  | _, .exit _ | _, .unregister _ | _, .dealloc _ | _, .dispatch .master _ => none
  | x, _ => x

/-- What is owed after a history. -/
def reclaimOf (hist : List Obs) : Option Owed := hist.foldl reclaimStep (some .nothing)

theorem reclaimOf_append (hist new : List Obs) :
    reclaimOf (hist ++ new) = new.foldl reclaimStep (reclaimOf hist) := List.foldl_append

theorem reclaimStep_minor {o : Obs} (ho : o.minor = true) (w : Option Owed) :
    reclaimStep w o = w := by
  cases o with
  | enqueue | enqueueHead | pop | await | report => rcases w with _ | ⟨_ | _ | _⟩ <;> rfl
  | dispatch h c =>
    cases h with
    | master => exact absurd ho (by simp [Obs.minor])
    | parallel => rcases w with _ | ⟨_ | _ | _⟩ <;> rfl
  | alloc | exit | unregister | dealloc => exact absurd ho (by simp [Obs.minor])

theorem reclaimOf_minor {new : List Obs} (hnew : ∀ o ∈ new, o.minor = true) (w : Option Owed) :
    new.foldl reclaimStep w = w := by
  induction new with
  | nil => rfl
  | cons o new ih =>
    rw [List.foldl_cons, reclaimStep_minor (hnew o List.mem_cons_self)]
    exact ih fun o' ho' => hnew o' (List.mem_cons_of_mem o ho')

/-! ## 2. The invariant -/

/-- What is owed where the master thread stands. -/
def View.owed (v : View) : Owed :=
  match v.master with
  | .back a => if (v.coro a).any (fun k => decide (k.status = .exit)) then .removal a else .nothing
  | _ => .nothing

/-- **A coroutine that has exited is the one `sched_run` is about to reclaim**, and the registry
holds the allocated coroutines. -/
structure Tidy (v : View) : Prop where
  exited : ∀ a k, v.coro a = some k → k.status = .exit → v.master = .back a
  owed : reclaimOf v.hist = some v.owed
  registry : RegOk v.registry {a | v.coro a ≠ none}
  current : v.parallelCurrent = none

variable {s s' : State} {v v' : View} {act : Act} {a c : Addr} {k : Coroutine}

theorem View.owed_of_ne (h : ∀ a, v.master ≠ .back a) : v.owed = .nothing := by
  unfold View.owed
  split
  · rename_i a hm
    exact absurd hm (h a)
  · rfl

theorem View.owed_of_away (h : v.master.away = false) : v.owed = .nothing :=
  v.owed_of_ne fun a hm => by simp [hm, MasterPc.away] at h

/-- A coroutine that has exited stays so, and another one does not exit. -/
theorem View.owed_update (hk : v.coro a = some k) {k' : Coroutine}
    (hst : k'.status = .exit ↔ k.status = .exit) :
    View.owed { v with coro := Function.update v.coro a (some k') } = v.owed := by
  unfold View.owed
  cases v.master with
  | back b =>
    rcases eq_or_ne b a with rfl | hb
    · simp [hk, hst]
    · simp [Function.update_of_ne hb]
  | _ => rfl

/-- Nor has one that appears. -/
theorem View.owed_spawn (ha : v.coro a = none) (hk : k.status ≠ .exit) (r : Registry)
    (hist : List Obs) : View.owed { v with
      coro := Function.update v.coro a (some k), registry := r, hist := hist } = v.owed := by
  unfold View.owed
  cases v.master with
  | back b =>
    rcases eq_or_ne b a with rfl | hb
    · simp [ha, hk]
    · simp [Function.update_of_ne hb]
  | _ => rfl

/-- A coroutine whose status is not `M_EXIT` changes to one whose status is not either. -/
theorem Tidy.update (hv : Tidy v) (hk : v.coro a = some k) {l : Coroutine}
    (hst : l.status = .exit → k.status = .exit) :
    (∀ b m, Function.update v.coro a (some l) b = some m → m.status = .exit → v.master = .back b) ∧
      {b | Function.update v.coro a (some l) b ≠ none} = {b | v.coro b ≠ none} := by
  constructor
  · intro b m hm hexit
    rcases eq_or_ne b a with rfl | hb
    · rw [Function.update_self, Option.some.injEq] at hm
      exact hv.exited b k hk (hst (hm ▸ hexit))
    · rw [Function.update_of_ne hb] at hm
      exact hv.exited b m hm hexit
  · ext b
    rcases eq_or_ne b a with rfl | hb
    · simp [hk]
    · simp [Function.update_of_ne hb]

/-- No coroutine that is allocated has exited, unless `sched_run` is about to reclaim it. -/
theorem Tidy.none_exited (hv : Tidy v) (h : ∀ b, v.master ≠ .back b) (hk : v.coro a = some k) :
    k.status ≠ .exit := fun hexit => h a (hv.exited a k hk hexit)

/-- A coroutine changes, but not its status. -/
theorem Tidy.setFields (hv : Tidy v) (hk : v.coro a = some k) {l : Coroutine}
    (hst : l.status = k.status) :
    Tidy { v with coro := Function.update v.coro a (some l) } := by
  obtain ⟨hexited, hset⟩ := hv.update hk fun h => hst ▸ h
  refine ⟨hexited, ?_, hset ▸ hv.registry, hv.current⟩
  rw [View.owed_update hk (by rw [hst])]
  exact hv.owed

/-- **Every move keeps the invariant.** -/
theorem Tidy.move (hv : Tidy v) (h : Move v v') : Tidy v' := by
  -- where the master thread is not at the return to `sched_run` nothing has exited
  have hnone : (∀ b, v.master ≠ .back b) → ∀ {m : MasterPc} {b k}, v.coro b = some k →
      k.status = .exit → m = .back b := fun hne _ b k hk hexit =>
    absurd (hv.exited b k hk hexit) (hne b)
  have haway : v.master.away = false → ∀ b, v.master ≠ .back b := fun hm b hb => by
    simp [hb, MasterPc.away] at hm
  have howed : (∀ b, v.master ≠ .back b) → reclaimOf v.hist = some .nothing := fun hne => by
    rw [hv.owed, View.owed_of_ne hne]
  cases h with
  | note o ho =>
    refine ⟨hv.exited, ?_, hv.registry, hv.current⟩
    rw [reclaimOf_append, List.foldl_cons, List.foldl_nil, reclaimStep_minor ho]
    exact hv.owed
  | own h hk => exact hv.setFields hk rfl
  | body hk _ _ => exact hv.setFields hk rfl
  | @ready a k hk hlive =>
    obtain ⟨hexited, hset⟩ := hv.update hk (l := { k with status := .ready })
      fun h => absurd h (by simp)
    refine ⟨hexited, ?_, hset ▸ hv.registry, hv.current⟩
    rw [View.owed_update hk (by simp [hlive])]
    exact hv.owed
  | @spawn a r fn h ha hr =>
    obtain ⟨hreg, hkey, hdata⟩ := hv.registry.spawnNode (a := a) fun hm => hm ha
    obtain ⟨r', hcode, hr'⟩ := schedRegisterCoro_spec hreg (fun hm => hm ha) hkey hdata
    obtain rfl : r' = r := Except.ok.inj (hcode.symm.trans hr)
    refine ⟨fun b m hm hexit => ?_, ?_, ?_, hv.current⟩
    · rcases eq_or_ne b a with rfl | hb
      · simp only [Function.update_self, Option.some.injEq] at hm
        subst hm
        exact absurd hexit (by simp)
      · simp only [Function.update_of_ne hb] at hm
        exact hv.exited b m hm hexit
    · rw [reclaimOf_append, hv.owed, View.owed_spawn ha (by simp)]
      cases v.owed <;> rfl
    · have hset :
          {b | Function.update v.coro a (some ⟨a.cid, fn.start, .ready, some h, false⟩) b ≠ none} =
          insert a {b | v.coro b ≠ none} := by
        ext b
        rcases eq_or_ne b a with rfl | hb
        · simp
        · simp [hb]
      exact hset ▸ hr'
  | @dispatch c k hm hk =>
    have hne : ∀ b, v.master ≠ .back b := by simp [hm]
    obtain ⟨hexited, hset⟩ := hv.update hk (l := { k with status := .run })
      fun h => absurd h (by simp)
    refine ⟨fun b m hb hexit => absurd (hexited b m hb hexit) (hne b), ?_, hset ▸ hv.registry,
      hv.current⟩
    rw [reclaimOf_append, howed hne]
    rfl
  | redispatch x hm =>
    have hne : ∀ b, v.master ≠ .back b := by simp [hm]
    refine ⟨fun b m => hnone hne, ?_, hv.registry, hv.current⟩
    rw [reclaimOf_append, howed hne]
    rfl
  | @back loc co hm =>
    have hne : ∀ b, v.master ≠ .back b := by simp [hm]
    refine ⟨fun b m => hnone hne, ?_, hv.registry, hv.current⟩
    rw [howed hne]
    have hno : (v.coro loc).any (fun k => decide (k.status = .exit)) = false := by
      cases hk : v.coro loc with
      | none => rfl
      | some k => simpa using hv.none_exited hne hk
    simp [View.owed, hno]
  | @resume c k hm hk hlive =>
    refine ⟨fun b m hb hexit => ?_, ?_, hv.registry, hv.current⟩
    · have hbc := (hv.exited b m hb hexit).symm.trans hm
      injection hbc with hbc
      subst hbc
      exact absurd (Option.some.inj (hk.symm.trans hb) ▸ hexit) hlive
    · rw [hv.owed]
      simp [View.owed, hm, hk, hlive]
  | @reclaim c k r hm hk hexit hr =>
    obtain ⟨r', hcode, hr'⟩ := Registry.delete_spec hv.registry (a := c) (by simp [hk])
    obtain rfl : r' = r := Except.ok.inj (hcode.symm.trans hr)
    refine ⟨fun b m hb hb' => ?_, ?_, ?_, hv.current⟩
    · rcases eq_or_ne b c with rfl | hbc
      · simp at hb
      · simp only [Function.update_of_ne hbc] at hb
        have := (hv.exited b m hb hb').symm.trans hm
        injection this with this
        exact absurd this hbc
    · have : v.owed = .removal c := by simp [View.owed, hm, hk, hexit]
      rw [reclaimOf_append, hv.owed, this]
      simp [reclaimStep, View.owed]
    · have hset : {b | Function.update v.coro c none b ≠ none} = {b | v.coro b ≠ none} \ {c} := by
        ext b
        rcases eq_or_ne b c with rfl | hb
        · simp
        · simp [hb]
      exact hset ▸ hr'
  | masterPc hm hm' hc =>
    refine ⟨fun b m => hnone (haway hm), ?_, hv.registry, hv.current⟩
    rw [howed (haway hm), View.owed_of_away hm'.1]
  | masterLock hx hm hc hm' hc' =>
    refine ⟨fun b m => hnone (haway hm), ?_, hv.registry, hv.current⟩
    rw [howed (haway hm), View.owed_of_away hm']
  | masterUnlock hm hc hm' hc' =>
    refine ⟨fun b m => hnone (haway hm), ?_, hv.registry, hv.current⟩
    rw [howed (haway hm), View.owed_of_away hm'.1]
  | parallelPc | parallelLock | parallelUnlock =>
    exact ⟨hv.exited, hv.owed, hv.registry, hv.current⟩

/-! ## 3. The runs -/

/-- The coroutine that exits is the one `sched_run` has in its local variable. -/
def ExitsFromLoop (s : State) : Act → Prop
  | .call .master .exit => match s.master with
    | .exec loc co => loc = co
    | _ => True
  | _ => True

instance (s : State) (act : Act) : Decidable (ExitsFromLoop s act) := by
  unfold ExitsFromLoop
  split
  · split <;> infer_instance
  · infer_instance

/-- **Every step that meets the condition keeps the invariant.** -/
theorem Tidy.step (hv : Tidy s.view) (hc : ExitsFromLoop s act)
    (h : step s act = some (.ok s')) : Tidy s'.view := by
  cases step_effect hv.current h with
  | moves hmoves => exact hmoves.inv (fun _ _ hi hmove => hi.move hmove) hv
  | send _ hmoves =>
    obtain ⟨hexited, howed, hreg, hcur⟩ := hmoves.inv (fun _ _ hi hmove => hi.move hmove) hv
    exact ⟨hexited, howed, hreg, hcur⟩
  | @register q ev c int _ _ hmoves =>
    have hv₀ : Tidy { s.view with interest := int, hist := s.hist ++ [.await q c] } := by
      refine ⟨hv.exited, ?_, hv.registry, hv.current⟩
      have howed : ∀ w : Owed, reclaimStep (some w) (.await q c) = some w := by
        intro w
        cases w <;> rfl
      rw [reclaimOf_append, show reclaimOf s.hist = some s.view.owed from hv.owed,
        List.foldl_cons, List.foldl_nil, howed]
      rfl
    exact hmoves.inv (fun _ _ hi hmove => hi.move hmove) hv₀
  | mark _ hk hv' =>
    rw [hv']
    exact hv.setFields (v := s.view) hk rfl
  | remove _ hv' =>
    rw [hv']
    exact ⟨hv.exited, hv.owed, hv.registry, hv.current⟩
  | @epoll a k b pc pc' _ hk _ _ _ hv' =>
    obtain ⟨hexited, howed, hreg, hcur⟩ :=
      hv.setFields (v := s.view) hk (l := { k with ctx := .eventLoop pc' }) rfl
    rw [hv']
    exact ⟨hexited, howed, hreg, hcur⟩
  | @exit loc co k hact hm hk hv' =>
    subst hact
    obtain rfl : loc = co := by
      rw [ExitsFromLoop, hm] at hc
      exact hc
    have hne : ∀ b, s.view.master ≠ .back b := by simp [State.view, hm]
    rw [hv']
    refine ⟨fun b m hb hexit => ?_, ?_, ?_, hv.current⟩
    · rcases eq_or_ne b loc with rfl | hbl
      · rfl
      · simp only [Function.update_of_ne hbl] at hb
        exact absurd hexit (hv.none_exited hne hb)
    · have howed : reclaimOf s.hist = some .nothing := by
        rw [show s.hist = s.view.hist from rfl, hv.owed, View.owed_of_ne hne]
      rw [reclaimOf_append, howed]
      simp [reclaimStep, View.owed]
    · have hset : {b | Function.update s.coro loc (some { k with status := .exit }) b ≠ none} =
          {b | s.view.coro b ≠ none} := by
        ext b
        rcases eq_or_ne b loc with rfl | hb
        · simp [State.view, hk]
        · simp [State.view, Function.update_of_ne hb]
      exact hset ▸ hv.registry
  | start hm hv' =>
    have hne : ∀ b, s.view.master ≠ .back b := by simp [State.view, hm]
    rw [hv']
    refine ⟨fun b m hb hexit => absurd (hv.exited b m hb hexit) (hne b), ?_, hv.registry,
      hv.current⟩
    exact hv.owed.trans (by rw [View.owed_of_ne hne]; rfl)
  | check _ _ _ hnew hv' =>
    rw [hv']
    refine ⟨hv.exited, ?_, hv.registry, hv.current⟩
    rw [reclaimOf_append, reclaimOf_minor hnew]
    exact hv.owed

theorem Tidy.boot (em : Option Eventmanager) : Tidy (State.boot em).view := by
  refine ⟨by simp [State.view, State.boot], rfl, ?_, rfl⟩
  have : {a | (State.boot em).view.coro a ≠ none} = ∅ := by
    ext a
    simp [State.view, State.boot]
  rw [this]
  exact RegOk.init _

/-- **Every exited coroutine is reclaimed**: since each exit the same coroutine was removed and
deallocated, once, before the next dispatch on the master thread, nothing else was, and what is not
allocated is not found. -/
structure Reclaimed (s : State) : Prop where
  order : reclaimOf s.hist ≠ none
  gone : ∀ a, s.coro a = none → schedGetCoro s.registry a.cid = .ok none

/-- **When the exits are reclaimed.**  A run reclaims what exits, in all its states, if at every
exit on the master thread the coroutine that exits is the one in the local variable of
`sched_run`. -/
theorem exits_reclaimed {em : Option Eventmanager} {as : List Act}
    (h : Machine.Meets Corosched.step ExitsFromLoop (State.boot em) as) :
    Machine.Throughout Corosched.step Reclaimed (State.boot em) as := by
  refine h.throughout (I := fun s => Tidy s.view) (fun _ _ _ hi hc hs => hi.step hc hs)
    (Tidy.boot em) fun s hi => ⟨?_, fun a ha => ?_⟩
  · have howed : reclaimOf s.hist = some s.view.owed := hi.owed
    simp [howed]
  · refine schedGetCoro_absent hi.registry fun b hb hcid => ?_
    obtain rfl : b = a := Addr.cid_injective hcid
    exact hb ha

/-- The coroutine that `sched_run` dispatched exits. -/
theorem exits_reclaimed_direct :
    ∃ s, Machine.exec Corosched.step ExitsFromLoop (State.boot none)
        [.main .master .user (some ⟨16, by decide⟩), .envRun, .master, .master, .master,
          .call .master .exit, .master] = some (.ok s) ∧ s.coro ⟨16, by decide⟩ = none ∧
      reclaimOf s.hist ≠ none ∧ schedGetCoro s.registry 16 = .ok none := by
  have hrun : ∃ s, Machine.exec Corosched.step ExitsFromLoop (State.boot none)
        [.main .master .user (some ⟨16, by decide⟩), .envRun, .master, .master, .master,
          .call .master .exit, .master] = some (.ok s) ∧ s.coro ⟨16, by decide⟩ = none :=
    ⟨_, rfl, rfl⟩
  obtain ⟨s, hexec, hco⟩ := hrun
  have hrun' := Machine.Run.of_exec hexec
  have hs := (exits_reclaimed hrun'.meets).end hrun'
  exact ⟨s, hexec, hco, hs.order, hs.gone ⟨16, by decide⟩ hco⟩

/-- `sched_run` dispatches `16`, which calls `sched_run_once`; that dispatches `32`, which exits;
`sched_run` finds that `16` has not exited, and dispatches again.  Nobody frees `32`, which is
still found. -/
theorem exit_leaked :
    ∃ s, Machine.exec Corosched.step Machine.Any (State.boot none)
        [.main .master .user (some ⟨16, by decide⟩), .main .master .user (some ⟨32, by decide⟩),
          .envRun, .master, .master, .master, .call .master .runOnce, .call .master .exit, .master,
          .master] = some (.ok s) ∧
      (s.coro ⟨32, by decide⟩).map Coroutine.status = some .exit ∧
      schedGetCoro s.registry 32 = .ok (some ⟨32, by decide⟩) ∧ ¬ Reclaimed s := by
  refine ⟨_, rfl, rfl, rfl, fun hs => hs.order rfl⟩

end Corosched
