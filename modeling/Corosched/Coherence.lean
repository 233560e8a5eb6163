/-
# The memory in order

The history says what the wait queues should contain: `queuesOf` replays the insertions and pops
on lists.  `Store` says that the real memory agrees with these lists: the tail queues represent
them, what is queued is an allocated coroutine of that scheduler in state `M_READY`, and the
registry holds exactly the allocated coroutines.

Section 3 has one lemma for each function that touches this memory: from an orderly memory and
the precondition its callers owe it, the function succeeds, and the result is written out.
-/
import Corosched.System

namespace Corosched

open State Tailq

/-! ## 1. The abstract queues -/

/-- The contents of the wait queues. -/
abbrev Lists := SchedId → List Addr

/-- What an observation does to the contents. -/
def replay (L : Lists) : Obs → Lists
  | .enqueue h c => Function.update L h (L h ++ [c])
  | .enqueueHead h c => Function.update L h (c :: L h)
  | .pop h _ => Function.update L h (L h).tail
  | _ => L

/-- The contents after a history. -/
def queuesOf (hist : List Obs) : Lists := hist.foldl replay (fun _ => [])

@[simp] theorem queuesOf_nil : queuesOf [] = fun _ => [] := rfl

theorem queuesOf_snoc (hist : List Obs) (o : Obs) :
    queuesOf (hist ++ [o]) = replay (queuesOf hist) o := by
  simp [queuesOf]

/-! ## 2. The memory -/

/-- **The memory agrees with the lists `L`.** -/
structure Store (q : Heap SchedId Addr) (coro : Addr → Option Coroutine) (r : Registry)
    (L : Lists) : Prop where
  queues : Queues q L
  mapped : ∀ a, q.entry a = none ↔ coro a = none
  queued : ∀ h a, a ∈ L h → ∃ c, coro a = some c ∧ c.status = .ready ∧ c.sched = some h
  registry : RegOk r {a | coro a ≠ none}
  cid : ∀ a c, coro a = some c → c.cid = a.cid

variable {q : Heap SchedId Addr} {coro : Addr → Option Coroutine} {r : Registry} {L : Lists}
  {s s' : State} {h : SchedId} {a x : Addr} {c : Coroutine} {l : List Addr}

theorem Store.not_free (hs : Store q coro r L) (ha : coro a = none) (h : SchedId) : a ∉ L h := by
  intro hm
  obtain ⟨c, hc, -⟩ := hs.queued h a hm
  rw [hc] at ha
  exact absurd ha (by simp)

theorem live_insert (coro : Addr → Option Coroutine) (a : Addr) (c : Coroutine) :
    {b | Function.update coro a (some c) b ≠ none} = insert a {b | coro b ≠ none} := by
  ext b
  by_cases hb : b = a
  · subst hb; simp
  · simp [hb]

theorem live_erase (coro : Addr → Option Coroutine) (a : Addr) :
    {b | Function.update coro a none b ≠ none} = {b | coro b ≠ none} \ {a} := by
  ext b
  by_cases hb : b = a
  · subst hb; simp
  · simp [hb]

/-- Overwriting a coroutine, which stays ready for its queue if it is in one. -/
theorem Store.setCoro (hs : Store q coro r L) (ha : coro a = some c) {c' : Coroutine}
    (hcid : c'.cid = c.cid) (hq : ∀ h, a ∈ L h → c'.status = .ready ∧ c'.sched = some h) :
    Store q (Function.update coro a (some c')) r L := by
  have hnone : ∀ b, Function.update coro a (some c') b = none ↔ coro b = none := by
    intro b
    by_cases hb : b = a
    · subst hb; simp [ha]
    · rw [Function.update_of_ne hb]
  refine ⟨hs.queues, fun b => (hs.mapped b).trans (hnone b).symm, fun h b hb => ?_, ?_, ?_⟩
  · by_cases hba : b = a
    · subst hba
      exact ⟨c', Function.update_self _ _ _, hq h hb⟩
    · rw [Function.update_of_ne hba]
      exact hs.queued h b hb
  · rw [live_insert, Set.insert_eq_of_mem (by simp [ha])]
    exact hs.registry
  · intro b d hd
    by_cases hba : b = a
    · subst hba
      rw [Function.update_self, Option.some.injEq] at hd
      rw [← hd, hcid, hs.cid b c ha]
    · rw [Function.update_of_ne hba] at hd
      exact hs.cid b d hd

/-- A coroutine is allocated at a free address, its links are mapped, and it is registered. -/
theorem Store.alloc {r' : Registry} (hs : Store q coro r L) (ha : coro a = none)
    (hr : RegOk r' (insert a {b | coro b ≠ none})) (hcid : c.cid = a.cid) :
    Store (q.map a) (Function.update coro a (some c)) r' L := by
  refine ⟨map_spec hs.queues ((hs.mapped a).mpr ha), fun b => ?_, fun h b hb => ?_, ?_,
    fun b d hd => ?_⟩
  · by_cases hb : b = a
    · subst hb; simp [Heap.map, Heap.setEntry]
    · simp [Heap.map, Heap.setEntry, Function.update_of_ne hb, hs.mapped b]
  · have hba : b ≠ a := by rintro rfl; exact hs.not_free ha h hb
    rw [Function.update_of_ne hba]
    exact hs.queued h b hb
  · rw [live_insert]
    exact hr
  · by_cases hb : b = a
    · subst hb
      rw [Function.update_self, Option.some.injEq] at hd
      rw [← hd, hcid]
    · rw [Function.update_of_ne hb] at hd
      exact hs.cid b d hd

/-- A coroutine in no queue is freed, its links with it, and its node is gone. -/
theorem Store.free {r' : Registry} (hs : Store q coro r L) (hout : ∀ h, a ∉ L h)
    (hr : RegOk r' ({b | coro b ≠ none} \ {a})) :
    Store (q.unmap a) (Function.update coro a none) r' L := by
  refine ⟨unmap_spec hs.queues hout, fun b => ?_, fun h b hb => ?_, ?_, fun b d hd => ?_⟩
  · by_cases hb : b = a
    · subst hb; simp [Heap.unmap]
    · simp [Heap.unmap, Function.update_of_ne hb, hs.mapped b]
  · have hba : b ≠ a := by rintro rfl; exact hout h hb
    rw [Function.update_of_ne hba]
    exact hs.queued h b hb
  · rw [live_erase]
    exact hr
  · by_cases hb : b = a
    · subst hb
      rw [Function.update_self] at hd
      exact absurd hd (by simp)
    · rw [Function.update_of_ne hb] at hd
      exact hs.cid b d hd

/-- What is allocated has its links. -/
theorem Store.exists_entry (hs : Store q coro r L) (ha : coro a = some c) :
    ∃ e, q.entry a = some e := by
  refine Option.ne_none_iff_exists'.mp fun hn => ?_
  rw [hs.mapped, ha] at hn
  exact absurd hn (by simp)

/-- One queue is relinked, and contains coroutines that are ready for it. -/
theorem Store.requeue (hs : Store q coro r L) {q' : Heap SchedId Addr}
    (hq : Queues q' (Function.update L h l)) (hmap : ∀ b, q'.entry b = none ↔ q.entry b = none)
    (hl : ∀ b ∈ l, ∃ c, coro b = some c ∧ c.status = .ready ∧ c.sched = some h) :
    Store q' coro r (Function.update L h l) := by
  refine ⟨hq, fun b => (hmap b).trans (hs.mapped b), fun h' b hb => ?_, hs.registry, hs.cid⟩
  rcases eq_or_ne h' h with rfl | hh
  · rw [Function.update_self] at hb
    exact hl b hb
  · rw [Function.update_of_ne hh] at hb
    exact hs.queued h' b hb

/-! ## 3. The functions -/

@[simp] theorem ofQueue_ok {α : Type} (x : α) : ofQueue (.ok x) = Except.ok x := rfl

theorem deref_eq_ok {α : Type} {x : Option α} {y : α} : deref x = .ok y ↔ x = some y := by
  cases x <;> simp [deref]

theorem load_eq_ok : s.load a = .ok c ↔ s.coro a = some c := by
  rw [State.load]
  cases s.coro a <;> simp

theorem load_some (hc : s.coro a = some c) : s.load a = .ok c := load_eq_ok.mpr hc

/-- **`insert_tail`** of a ready coroutine that is in no queue. -/
theorem insertTail_ok (hs : Store s.queue s.coro s.registry (queuesOf s.hist))
    (ha : s.coro a = some c) (hready : c.status = .ready) (hsched : c.sched = some h)
    (hout : ∀ h', a ∉ queuesOf s.hist h') :
    ∃ q', insertTail s h a = .ok { s with queue := q', hist := s.hist ++ [.enqueue h a] } ∧
      Store q' s.coro s.registry (queuesOf (s.hist ++ [.enqueue h a])) := by
  obtain ⟨e, he⟩ := hs.exists_entry ha
  obtain ⟨q', hcode, hq, hmap⟩ := insertTail_spec hs.queues h he hout
  refine ⟨q', by simp [insertTail, hcode, State.note], ?_⟩
  rw [queuesOf_snoc]
  refine hs.requeue hq hmap fun b hb => ?_
  rw [List.mem_append, List.mem_singleton] at hb
  rcases hb with hb | rfl
  · exact hs.queued _ b hb
  · exact ⟨c, ha, hready, hsched⟩

/-- **`insert_head`** of a ready coroutine that is in no queue. -/
theorem insertHead_ok (hs : Store s.queue s.coro s.registry (queuesOf s.hist))
    (ha : s.coro a = some c) (hready : c.status = .ready) (hsched : c.sched = some h)
    (hout : ∀ h', a ∉ queuesOf s.hist h') :
    ∃ q', insertHead s h a = .ok { s with queue := q', hist := s.hist ++ [.enqueueHead h a] } ∧
      Store q' s.coro s.registry (queuesOf (s.hist ++ [.enqueueHead h a])) := by
  obtain ⟨e, he⟩ := hs.exists_entry ha
  obtain ⟨q', hcode, hq, hmap⟩ := insertHead_spec hs.queues h he hout
  refine ⟨q', by simp [insertHead, hcode, State.note], ?_⟩
  rw [queuesOf_snoc]
  refine hs.requeue hq hmap fun b hb => ?_
  rcases List.mem_cons.mp hb with rfl | hb
  · exact ⟨c, ha, hready, hsched⟩
  · exact hs.queued _ b hb

/-- `empty` tells whether the list is empty. -/
theorem empty_eq (hs : Store s.queue s.coro s.registry L) (h : SchedId) :
    empty s h = (L h).isEmpty := isEmpty_spec hs.queues.represents h

/-- `pop` from an empty queue. -/
theorem pop_nil (hs : Store s.queue s.coro s.registry L) (hl : L h = []) :
    pop s h = .ok (s, none) := by
  simp [pop, popFirst_nil hs.queues.represents hl]

/-- **`pop`** takes the first coroutine, which is ready and in no queue afterwards. -/
theorem pop_cons (hs : Store s.queue s.coro s.registry (queuesOf s.hist))
    (hl : queuesOf s.hist h = a :: l) :
    ∃ q', pop s h = .ok ({ s with queue := q', hist := s.hist ++ [.pop h a] }, some a) ∧
      Store q' s.coro s.registry (queuesOf (s.hist ++ [.pop h a])) ∧
      (∀ h', a ∉ queuesOf (s.hist ++ [.pop h a]) h') ∧
      ∃ c, s.coro a = some c ∧ c.status = .ready ∧ c.sched = some h := by
  obtain ⟨q', hcode, hq, hmap⟩ := popFirst_cons hs.queues hl
  have hL : queuesOf (s.hist ++ [.pop h a]) = Function.update (queuesOf s.hist) h l := by
    rw [queuesOf_snoc, replay, hl, List.tail_cons]
  refine ⟨q', by simp [pop, hcode, State.note], ?_, ?_, hs.queued h a (hl ▸ List.mem_cons_self)⟩
  · rw [hL]
    exact hs.requeue hq hmap fun b hb => hs.queued h b (hl ▸ List.mem_cons_of_mem a hb)
  · exact hL ▸ hs.queues.represents.notMem_rest hl

/-- **`coro_ready`** of a live coroutine that is in no queue. -/
theorem coroReady_ok (hs : Store s.queue s.coro s.registry (queuesOf s.hist))
    (ha : s.coro a = some c) (hlive : c.status ≠ .exit) (hsched : c.sched = some h)
    (hout : ∀ h', a ∉ queuesOf s.hist h') :
    ∃ q', coroReady s (some a) = .ok { s with
        queue := q'
        coro := Function.update s.coro a (some { c with status := .ready })
        hist := s.hist ++ [.enqueue h a] } ∧
      Store q' (Function.update s.coro a (some { c with status := .ready })) s.registry
        (queuesOf (s.hist ++ [.enqueue h a])) := by
  have hs' : Store s.queue (Function.update s.coro a (some { c with status := .ready })) s.registry
      (queuesOf s.hist) := hs.setCoro ha rfl fun h' hm => absurd hm (hout h')
  obtain ⟨q', hcode, hq⟩ := insertTail_ok
    (s := s.setCoro a { c with status := .ready }) (h := h) (a := a)
    (c := { c with status := .ready }) hs' (Function.update_self _ _ _) rfl hsched hout
  refine ⟨q', ?_, hq⟩
  have hderef : deref c.sched = Except.ok h := by rw [hsched, deref_some]
  simp only [coroReady, deref_some, ok_bind, load_some ha, ne_eq, hlive, not_false_eq_true,
    decide_true, ASSERT_true, hderef, hcode]
  rfl

/-- `coro_ready_immediatly` fails its assertion on a coroutine that is ready already. -/
theorem coroReadyImmediatly_ready (ha : s.coro a = some c) (hready : c.status = .ready) :
    coroReadyImmediatly s (some a) = .error .assertFail := by
  simp [coroReadyImmediatly, load_some ha, hready]

/-- **`coro_spawn`** where the allocator has found memory. -/
theorem coroSpawn_ok (hs : Store s.queue s.coro s.registry (queuesOf s.hist))
    (ha : s.coro a = none) (h : SchedId) (fn : Body) :
    ∃ q' r', coroSpawn s h fn (some a) = .ok ({ s with
        queue := q'
        coro := Function.update s.coro a (some ⟨a.cid, fn, .ready, some h, false⟩)
        registry := r'
        hist := s.hist ++ [.alloc a, .enqueue h a] }, .ok) ∧
      Store q' (Function.update s.coro a (some ⟨a.cid, fn, .ready, some h, false⟩)) r'
        (queuesOf (s.hist ++ [.alloc a, .enqueue h a])) := by
  have hout : ∀ h', a ∉ queuesOf s.hist h' := hs.not_free ha
  have hreg : a ∉ {b | s.coro b ≠ none} := fun hm => hm ha
  obtain ⟨hr₁, hk, hd⟩ := hs.registry.spawnNode hreg
  obtain ⟨r', hrcode, hr'⟩ := schedRegisterCoro_spec hr₁ hreg hk hd
  have hL : queuesOf (s.hist ++ [.alloc a]) = queuesOf s.hist := queuesOf_snoc _ _
  have hs₁ : Store (s.queue.map a)
      (Function.update s.coro a (some ⟨a.cid, fn, .free, some h, false⟩)) r'
      (queuesOf (s.hist ++ [.alloc a])) := by
    rw [hL]
    exact hs.alloc ha hr' rfl
  obtain ⟨q', hcode, hq⟩ := coroReady_ok
    (s := { ((coroAlloc s fn a).setCoro a ⟨a.cid, fn, .free, some h, false⟩) with registry := r' })
    (a := a) (c := ⟨a.cid, fn, .free, some h, false⟩) (h := h)
    (by simpa [coroAlloc, State.setCoro, State.note] using hs₁) (by simp [State.setCoro]) (by simp)
    rfl (by simpa [coroAlloc, State.setCoro, State.note, hL] using hout)
  refine ⟨q', r', ?_, by simpa [coroAlloc, State.setCoro, State.note] using hq⟩
  have hrcode' : schedRegisterCoro (((coroAlloc s fn a).setCoro a
      ⟨a.cid, fn, .free, some h, false⟩).registry.spawnNode a) a = .ok r' := hrcode
  simp only [coroSpawn, hrcode', ok_bind, hcode, pure_eq_ok]
  simp [coroAlloc, State.setCoro, State.note]

/-- **`sched_run` reclaims** an exited coroutine that is in no queue. -/
theorem reclaim_ok (hs : Store s.queue s.coro s.registry L) (ha : s.coro a = some c)
    (hout : ∀ h, a ∉ L h) :
    ∃ r', s.registry.delete a = .ok r' ∧
      Store (s.queue.unmap a) (Function.update s.coro a none) r' L := by
  obtain ⟨r', hcode, hr'⟩ := Registry.delete_spec hs.registry (a := a) (by simp [ha])
  exact ⟨r', hcode, hs.free hout hr'⟩

/-! ## 4. The dispatchers -/

/-- `a` is in no wait queue. -/
def Out (hist : List Obs) (a : Addr) : Prop := ∀ h, a ∉ queuesOf hist h

/-- An observation puts at most the coroutine it names into a queue. -/
theorem mem_replay {o : Obs} {b : Addr} (hb : b ∈ replay L o h) :
    b ∈ L h ∨ o = .enqueue h b ∨ o = .enqueueHead h b := by
  cases o with
  | enqueue h' d =>
    by_cases hh : h = h'
    · subst hh
      simp only [replay, Function.update_self, List.mem_append, List.mem_singleton] at hb
      rcases hb with hb | rfl <;> simp [*]
    · exact Or.inl (by simpa [replay, Function.update_of_ne hh] using hb)
  | enqueueHead h' d =>
    by_cases hh : h = h'
    · subst hh
      simp only [replay, Function.update_self, List.mem_cons] at hb
      rcases hb with rfl | hb <;> simp [*]
    · exact Or.inl (by simpa [replay, Function.update_of_ne hh] using hb)
  | pop h' d =>
    by_cases hh : h = h'
    · subst hh
      exact Or.inl (List.mem_of_mem_tail (by simpa [replay] using hb))
    · exact Or.inl (by simpa [replay, Function.update_of_ne hh] using hb)
  | dispatch h' d => exact Or.inl hb
  | alloc d => exact Or.inl hb
  | exit d => exact Or.inl hb
  | unregister d => exact Or.inl hb
  | dealloc d => exact Or.inl hb
  | await p d => exact Or.inl hb
  | report p => exact Or.inl hb

/-- The observations that name no insertion of `a` leave it out of the queues. -/
theorem Out.append {hist new : List Obs} (ho : Out hist a)
    (hnew : ∀ h, Obs.enqueue h a ∉ new ∧ Obs.enqueueHead h a ∉ new) : Out (hist ++ new) a := by
  induction new using List.reverseRecOn with
  | nil => rwa [List.append_nil]
  | append_singleton new o ih =>
    have ih := ih fun h =>
      ⟨fun hm => (hnew h).1 (by simp [hm]), fun hm => (hnew h).2 (by simp [hm])⟩
    intro h hm
    rw [← List.append_assoc, queuesOf_snoc] at hm
    rcases mem_replay hm with hm | rfl | rfl
    · exact ih h hm
    · exact (hnew h).1 (by simp)
    · exact (hnew h).2 (by simp)

variable {loc co : Addr} {k : Coroutine} {t : SchedId}

/-- The switch to the scheduler is one to the scheduler of the thread itself. -/
theorem switchToSched_inv (h' : switchToSched s t h = .ok s') :
    t = h ∧
      (t = .master ∧ (∃ loc co, s.master = .exec loc co ∧ s' = { s with master := .back loc }) ∨
        t = .parallel ∧
          ∃ co, s.parallel = .exec co ∧ s' = { s with parallel := .toMaster co }) := by
  unfold switchToSched at h'
  split at h'
  · exact absurd h' (by simp)
  · rename_i hth
    refine ⟨not_not.mp hth, ?_⟩
    cases t with
    | master =>
      cases hm : s.master with
      | exec loc co =>
        simp only [hm, pure_eq_ok, Except.ok.injEq] at h'
        exact Or.inl ⟨rfl, loc, co, rfl, h'.symm⟩
      | _ => simp [hm] at h'
    | parallel =>
      cases hp : s.parallel with
      | exec co =>
        simp only [hp, pure_eq_ok, Except.ok.injEq] at h'
        exact Or.inr ⟨rfl, co, rfl, h'.symm⟩
      | _ => simp [hp] at h'

/-- **`coro_yield`** of the coroutine that runs on the master thread. -/
theorem coroYield_ok (hs : Store s.queue s.coro s.registry (queuesOf s.hist))
    (hm : s.master = .exec loc co) (hk : s.coro co = some k) (hlive : k.status ≠ .exit)
    (hsched : k.sched = some .master) (hout : Out s.hist co)
    (hcur : (s.sched .master).currentCoro = some co) :
    ∃ q', coroYield s .master (some co) = .ok { s with
        queue := q'
        coro := Function.update s.coro co (some { k with status := .ready })
        master := .back loc
        hist := s.hist ++ [.enqueue .master co] } ∧
      Store q' (Function.update s.coro co (some { k with status := .ready })) s.registry
        (queuesOf (s.hist ++ [.enqueue .master co])) := by
  obtain ⟨q', hcode, hq⟩ := coroReady_ok hs hk hlive hsched hout
  refine ⟨q', ?_, hq⟩
  have hderef : deref k.sched = Except.ok SchedId.master := by rw [hsched, deref_some]
  simp [coroYield, load_some hk, hderef, hcur, hcode, switchToSched, hm]

/-- **`coro_exit`** of the coroutine that runs on the master thread. -/
theorem coroExit_ok (hs : Store s.queue s.coro s.registry (queuesOf s.hist))
    (hm : s.master = .exec loc co) (hk : s.coro co = some k)
    (hsched : k.sched = some .master) (hout : Out s.hist co)
    (hcur : (s.sched .master).currentCoro = some co) :
    coroExit s .master (some co) = .ok { s with
        coro := Function.update s.coro co (some { k with status := .exit })
        master := .back loc
        hist := s.hist ++ [.exit co] } ∧
      Store s.queue (Function.update s.coro co (some { k with status := .exit })) s.registry
        (queuesOf (s.hist ++ [.exit co])) := by
  have hderef : deref k.sched = Except.ok SchedId.master := by rw [hsched, deref_some]
  refine ⟨?_, ?_⟩
  · simp [coroExit, load_some hk, hderef, hcur, switchToSched, State.note, State.setCoro, hm]
  · rw [queuesOf_snoc]
    exact hs.setCoro hk rfl (fun h hm => absurd hm (hout h))

/-- On the parallel scheduler no coroutine is recorded as running, so `coro_yield` fails. -/
theorem coroYield_parallel (hk : s.coro co = some k)
    (hsched : k.sched = some .parallel) (hcur : (s.sched .parallel).currentCoro = none) :
    coroYield s t (some co) = .error .assertFail := by
  have hderef : deref k.sched = Except.ok SchedId.parallel := by rw [hsched, deref_some]
  simp [coroYield, load_some hk, hderef, hcur]

/-- On the parallel scheduler no coroutine is recorded as running, so `coro_exit` fails. -/
theorem coroExit_parallel (hk : s.coro co = some k)
    (hsched : k.sched = some .parallel) (hcur : (s.sched .parallel).currentCoro = none) :
    coroExit s t (some co) = .error .assertFail := by
  have hderef : deref k.sched = Except.ok SchedId.parallel := by rw [hsched, deref_some]
  simp [coroExit, load_some hk, hderef, hcur]

theorem schedHasTask_eq (hs : Store s.queue s.coro s.registry L) :
    schedHasTask s = !(L .master).isEmpty := by rw [schedHasTask, empty_eq hs]

/-- `sched_run_once` with nothing to run, or after the stop. -/
theorem schedRunOnce_idle (hs : Store s.queue s.coro s.registry (queuesOf s.hist))
    (hidle : (s.sched .master).stop = true ∨ queuesOf s.hist .master = []) :
    schedRunOnce s = .ok s := by
  rw [schedRunOnce, loopBudget, schedRunOnceFrom]
  rcases hidle with hstop | hl
  · simp [hstop]
  · simp [schedHasTask_eq hs, hl]

/-- The iteration of `sched_run_once` that has popped `x` and queued the caller: it switches to `x`,
or fails if `x` wants to go to the parallel scheduler, since `x` is not the running coroutine. -/
theorem schedRunOnce_popped {q₁ q₂ : Heap SchedId Addr} (hstop : (s.sched .master).stop = false)
    (htask : schedHasTask s = true) (hcur : (s.sched .master).currentCoro = some co)
    (hx : s.coro x = some c) (hready : c.status = .ready) (hxco : x ≠ co)
    (hpop : pop s .master = .ok ({ s with
      queue := q₁
      hist := s.hist ++ [.pop .master x] }, some x))
    (hrdy : coroReady { s with queue := q₁, hist := s.hist ++ [.pop .master x] } (some co) =
      .ok { s with
        queue := q₂
        coro := Function.update s.coro co (some { k with status := .ready })
        hist := s.hist ++ [.pop .master x] ++ [.enqueue .master co] }) :
    (c.needParallel = true → schedRunOnce s = .error .assertFail) ∧
      (c.needParallel = false → s.master = .exec loc co → schedRunOnce s = .ok { s with
        queue := q₂
        coro := Function.update s.coro co (some { k with status := .ready })
        sched := Function.update s.sched .master { s.sched .master with currentCoro := some x }
        master := .exec loc x
        hist := s.hist ++ [.pop .master x, .enqueue .master co, .dispatch .master x] }) := by
  have hne : c.status ≠ .exit := by simp [hready]
  constructor
  · intro hnp
    rw [schedRunOnce, loopBudget, schedRunOnceFrom]
    simp [hstop, htask, hpop, hcur, hrdy, State.load, Function.update_of_ne hxco, hx, hnp,
      coroSwitchToParallel, coroReadyImmediatly, hready]
  · intro hnp hm
    rw [schedRunOnce, loopBudget, schedRunOnceFrom]
    simp [hstop, htask, hpop, hne, hcur, hrdy, State.load, Function.update_of_ne hxco, hx, hnp,
      switchToCoro, State.setCurrent, State.note]
    simp [hm]

/-- **`sched_run_once`** pops the first coroutine, queues its caller, and switches; it fails on a
coroutine that wants to go to the parallel scheduler. -/
theorem schedRunOnce_ok (hs : Store s.queue s.coro s.registry (queuesOf s.hist))
    (hm : s.master = .exec loc co) (hk : s.coro co = some k) (hlive : k.status ≠ .exit)
    (hsched : k.sched = some .master) (hout : Out s.hist co)
    (hcur : (s.sched .master).currentCoro = some co) (hstop : (s.sched .master).stop = false)
    (hl : queuesOf s.hist .master = x :: l) (hx : s.coro x = some c) :
    (c.needParallel = true → schedRunOnce s = .error .assertFail) ∧
      (c.needParallel = false → ∃ q', schedRunOnce s = .ok { s with
          queue := q'
          coro := Function.update s.coro co (some { k with status := .ready })
          sched := Function.update s.sched .master { s.sched .master with currentCoro := some x }
          master := .exec loc x
          hist := s.hist ++ [.pop .master x, .enqueue .master co, .dispatch .master x] } ∧
        Store q' (Function.update s.coro co (some { k with status := .ready })) s.registry
          (queuesOf (s.hist ++ [.pop .master x, .enqueue .master co, .dispatch .master x]))) := by
  obtain ⟨q₁, hpop, hs₁, -, c', hc', hready, -⟩ := pop_cons hs hl
  obtain rfl : c = c' := Option.some.inj (hx.symm.trans hc')
  have hxco : x ≠ co := by
    rintro rfl
    exact hout .master (hl ▸ List.mem_cons_self)
  have htask : schedHasTask s = true := by simp [schedHasTask_eq hs, hl]
  obtain ⟨q₂, hrdy, hs₂⟩ := coroReady_ok
    (s := { s with queue := q₁, hist := s.hist ++ [.pop .master x] }) hs₁ hk hlive hsched
    (hout.append (by simp))
  obtain ⟨hfail, hgo⟩ := schedRunOnce_popped hstop htask hcur hx hready hxco hpop hrdy
  refine ⟨hfail, fun hnp => ⟨q₂, hgo hnp hm, ?_⟩⟩
  have : s.hist ++ [Obs.pop .master x, .enqueue .master co, .dispatch .master x] =
      ((s.hist ++ [Obs.pop .master x]) ++ [.enqueue .master co]) ++ [.dispatch .master x] := by simp
  rw [this, queuesOf_snoc]
  exact hs₂

/-- `sched_run` with nothing to run, or after the stop. -/
theorem schedRun_idle (hs : Store s.queue s.coro s.registry (queuesOf s.hist))
    (hidle : (s.sched .master).stop = true ∨ queuesOf s.hist .master = []) :
    schedRun s = .ok { s with master := .done } := by
  rcases hidle with hstop | hl
  · simp [schedRun, hstop]
  · simp [schedRun, pop_nil hs hl]

/-- **`sched_run`** dispatches the first coroutine of the queue. -/
theorem schedRun_ok (hs : Store s.queue s.coro s.registry (queuesOf s.hist))
    (hstop : (s.sched .master).stop = false) (hl : queuesOf s.hist .master = x :: l)
    (hx : s.coro x = some c) (hnp : c.needParallel = false) :
    ∃ q', schedRun s = .ok { s with
        queue := q'
        coro := Function.update s.coro x (some { c with status := .run })
        sched := Function.update s.sched .master { s.sched .master with currentCoro := some x }
        master := .exec x x
        hist := s.hist ++ [.pop .master x, .dispatch .master x] } ∧
      Store q' (Function.update s.coro x (some { c with status := .run })) s.registry
        (queuesOf (s.hist ++ [.pop .master x, .dispatch .master x])) ∧
      Out (s.hist ++ [.pop .master x, .dispatch .master x]) x := by
  obtain ⟨q₁, hpop, hs₁, hout, -⟩ := pop_cons hs hl
  have hhist : s.hist ++ [Obs.pop .master x, .dispatch .master x] =
      (s.hist ++ [Obs.pop .master x]) ++ [.dispatch .master x] := by simp
  refine ⟨q₁, ?_, ?_, ?_⟩
  · simp [schedRun, hstop, hpop, State.load, hx, hnp, State.setCoro, State.setCurrent, State.note]
  · rw [hhist, queuesOf_snoc]
    exact hs₁.setCoro hx rfl (fun h hm => absurd hm (hout h))
  · rw [hhist]
    exact Out.append hout (by simp)

/-- **`sched_run`** hands a coroutine that wants it to `coro_sent_parallel`. -/
theorem schedRun_needParallel (hs : Store s.queue s.coro s.registry (queuesOf s.hist))
    (hstop : (s.sched .master).stop = false) (hl : queuesOf s.hist .master = x :: l)
    (hx : s.coro x = some c) (hnp : c.needParallel = true) :
    ∃ q', schedRun s = .ok { s with
        queue := q'
        master := .sentTrylock x
        hist := s.hist ++ [.pop .master x] } ∧
      Store q' s.coro s.registry (queuesOf (s.hist ++ [.pop .master x])) ∧
      Out (s.hist ++ [.pop .master x]) x := by
  obtain ⟨q₁, hpop, hs₁, hout, -⟩ := pop_cons hs hl
  exact ⟨q₁, by simp [schedRun, hstop, hpop, State.load, hx, hnp], hs₁, hout⟩

/-- **What an iteration of `sched_run` does.**  It ends the loop, or takes out a coroutine that
wants to go to the parallel scheduler, or dispatches one. -/
theorem schedRun_cases (hs : Store s.queue s.coro s.registry (queuesOf s.hist)) :
    (((s.sched .master).stop = true ∨ queuesOf s.hist .master = []) ∧
      schedRun s = .ok { s with master := .done }) ∨
    ∃ x l c q', (s.sched .master).stop = false ∧ queuesOf s.hist .master = x :: l ∧
      s.coro x = some c ∧ c.status = .ready ∧ c.sched = some .master ∧
      (c.needParallel = true ∧
        schedRun s = .ok { s with
          queue := q'
          master := .sentTrylock x
          hist := s.hist ++ [.pop .master x] } ∧
        Store q' s.coro s.registry (queuesOf (s.hist ++ [.pop .master x])) ∧
        Out (s.hist ++ [.pop .master x]) x ∨
      c.needParallel = false ∧
        schedRun s = .ok { s with
          queue := q'
          coro := Function.update s.coro x (some { c with status := .run })
          sched := Function.update s.sched .master { s.sched .master with currentCoro := some x }
          master := .exec x x
          hist := s.hist ++ [.pop .master x, .dispatch .master x] } ∧
        Store q' (Function.update s.coro x (some { c with status := .run })) s.registry
          (queuesOf (s.hist ++ [.pop .master x, .dispatch .master x])) ∧
        Out (s.hist ++ [.pop .master x, .dispatch .master x]) x) := by
  by_cases hidle : (s.sched .master).stop = true ∨ queuesOf s.hist .master = []
  · exact Or.inl ⟨hidle, schedRun_idle hs hidle⟩
  · rw [not_or, Bool.not_eq_true] at hidle
    obtain ⟨hstop, hne⟩ := hidle
    obtain ⟨x, l, hl⟩ := List.exists_cons_of_ne_nil hne
    obtain ⟨c, hx, hready, hsched⟩ := hs.queued _ x (hl ▸ List.mem_cons_self)
    right
    cases hnp : c.needParallel with
    | true =>
      obtain ⟨q', hcode⟩ := schedRun_needParallel hs hstop hl hx hnp
      exact ⟨x, l, c, q', hstop, hl, hx, hready, hsched, Or.inl ⟨hnp, hcode⟩⟩
    | false =>
      obtain ⟨q', hcode⟩ := schedRun_ok hs hstop hl hx hnp
      exact ⟨x, l, c, q', hstop, hl, hx, hready, hsched, Or.inr ⟨hnp, hcode⟩⟩

/-- After its switch, `sched_run` leaves alone a coroutine that has not exited. -/
theorem schedRunBack_live (hk : s.coro loc = some k) (hlive : k.status ≠ .exit) :
    schedRunBack s loc = .ok { s with
        sched := Function.update s.sched .master { s.sched .master with currentCoro := none }
        master := .loop } := by
  simp [schedRunBack, State.setCurrent, State.load, hk, hlive]

/-- **After its switch, `sched_run` reclaims** a coroutine that has exited. -/
theorem schedRunBack_exit (hs : Store s.queue s.coro s.registry (queuesOf s.hist))
    (hk : s.coro loc = some k) (hexit : k.status = .exit) (hout : Out s.hist loc) :
    ∃ r', schedRunBack s loc = .ok { s with
        queue := s.queue.unmap loc
        coro := Function.update s.coro loc none
        registry := r'
        sched := Function.update s.sched .master { s.sched .master with currentCoro := none }
        master := .loop
        hist := s.hist ++ [.unregister loc, .dealloc loc] } ∧
      Store (s.queue.unmap loc) (Function.update s.coro loc none) r'
        (queuesOf (s.hist ++ [.unregister loc, .dealloc loc])) := by
  obtain ⟨r', hdel, hs'⟩ := reclaim_ok hs hk hout
  refine ⟨r', ?_, ?_⟩
  · simp [schedRunBack, State.setCurrent, State.load, hk, hexit, hdel, coroDealloc, State.note]
  · have : s.hist ++ [Obs.unregister loc, .dealloc loc] =
        (s.hist ++ [Obs.unregister loc]) ++ [.dealloc loc] := by simp
    rw [this, queuesOf_snoc, queuesOf_snoc]
    exact hs'

end Corosched
