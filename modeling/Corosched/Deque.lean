/-
# The wait queues as double-ended lists

The queue operations of `cs_scheduler.c` against lists: `insert_tail` appends, `insert_head`
prepends, `pop` takes the first element.  The two schedulers' queues share the coroutines' links,
so what makes this true is that a coroutine is inserted only while it is in neither queue.  What
the links held before the two `TAILQ_INIT` does not matter.
-/
import Corosched.Coroutine
import Corosched.Lib.Object
import Mathlib.Data.Set.Insert

namespace Corosched

open State Tailq

/-! ## 1. Calls -/

/-- A call of one of the four operations. -/
inductive QueueCall
  | insertTail (h : SchedId) (c : Addr)
  | insertHead (h : SchedId) (c : Addr)
  | empty (h : SchedId)
  | pop (h : SchedId)

/-- What a call returns. -/
inductive QueueAnswer
  | void
  | bool (b : Bool)
  | coro (c : Option Addr)

/-- The call, made by the code. -/
def QueueCall.exec (s : State) : QueueCall → Except Fault (State × QueueAnswer)
  | .insertTail h c => do
    let s ← Corosched.insertTail s h c
    pure (s, .void)
  | .insertHead h c => do
    let s ← Corosched.insertHead s h c
    pure (s, .void)
  | .empty h => pure (s, .bool (Corosched.empty s h))
  | .pop h => do
    let (s, c) ← Corosched.pop s h
    pure (s, .coro c)

/-- `TAILQ_INIT` of both queues, as `env_init` does it. -/
def initQueues (s : State) : State :=
  { s with queue := (s.queue.init .master).init .parallel }

/-! ## 2. The two lists -/

/-- The two lists, and the coroutines that were popped and not inserted again. -/
structure Deques where
  list : SchedId → List Addr
  popped : Set Addr

/-- Both lists empty. -/
def Deques.init : Deques := ⟨fun _ => [], ∅⟩

/-- The call, made on lists. -/
def QueueCall.spec (D : Deques) : QueueCall → Deques × QueueAnswer
  | .insertTail h c => (⟨Function.update D.list h (D.list h ++ [c]), D.popped \ {c}⟩, .void)
  | .insertHead h c => (⟨Function.update D.list h (c :: D.list h), D.popped \ {c}⟩, .void)
  | .empty h => (D, .bool (D.list h).isEmpty)
  | .pop h =>
    match D.list h with
    | [] => (D, .coro none)
    | c :: l => (⟨Function.update D.list h l, insert c D.popped⟩, .coro (some c))

/-- Only a coroutine (`M`) that is in neither list is inserted. -/
def QueueCall.Legal (M : Addr → Prop) (D : Deques) : QueueCall → Prop
  | .insertTail _ c | .insertHead _ c => M c ∧ ∀ h, c ∉ D.list h
  | .empty _ | .pop _ => True

/-- **The heap holds the two lists**: forward links, back links and `tqh_last` agree, the lists are
disjoint and without duplicates, and the links of a popped coroutine are null. -/
structure HoldsDeques (s : State) (D : Deques) : Prop where
  represents : Represents s.queue D.list
  popped : ∀ c ∈ D.popped, s.queue.entry c = some .clear ∧ ∀ h, c ∉ D.list h

/-- What a run of calls keeps: also the coroutines that exist. -/
structure InStep (M : Addr → Prop) (s : State) (D : Deques) : Prop extends HoldsDeques s D where
  mapped : ∀ c, s.queue.entry c = none ↔ ¬ M c

variable {s : State} {D : Deques} {M : Addr → Prop}

theorem InStep.entry (hs : InStep M s D) {c : Addr} (hc : M c) : ∃ e, s.queue.entry c = some e :=
  Option.ne_none_iff_exists'.mp fun hn => (hs.mapped c).mp hn hc

theorem inStep_init (s : State) : InStep s.queue.Mapped (initQueues s) .init := by
  refine ⟨⟨⟨fun h => rfl, fun h => ?_, fun h => ?_, fun h => List.nodup_nil, by simp [Deques.init]⟩,
    by simp [Deques.init]⟩, fun c => not_not.symm⟩
  · cases h <;> rfl
  · cases h <;> rfl

/-! ## 3. One call -/

/-- An insertion leaves the popped coroutines as they are, but for the one inserted. -/
theorem InStep.inserted (hs : InStep M s D) {s' : State} {h : SchedId} {c : Addr} {l : List Addr}
    (hrep : Represents s'.queue (Function.update D.list h l))
    (hl : ∀ a, a ∈ l → a = c ∨ a ∈ D.list h)
    (hentry : ∀ a, a ≠ c → (∀ h', a ∉ D.list h') → s'.queue.entry a = s.queue.entry a)
    (hmap : ∀ a, s'.queue.entry a = none ↔ s.queue.entry a = none) :
    InStep M s' ⟨Function.update D.list h l, D.popped \ {c}⟩ := by
  refine ⟨⟨hrep, fun a ha => ?_⟩, fun a => (hmap a).trans (hs.mapped a)⟩
  obtain ⟨hclear, hout⟩ := hs.popped a ha.1
  have hac : a ≠ c := ha.2
  have hal : a ∉ l := fun h' => (hl a h').elim hac (hout h)
  exact ⟨(hentry a hac hout).trans hclear, notMem_update hal fun h' _ => hout h'⟩

/-- A pop adds its coroutine to the popped ones. -/
theorem InStep.taken (hs : InStep M s D) {s' : State} {h : SchedId} {c : Addr} {l : List Addr}
    (hl : D.list h = c :: l) (hrep : Represents s'.queue (Function.update D.list h l))
    (hclear : s'.queue.entry c = some .clear)
    (hentry : ∀ a, a ≠ c → (∀ h', a ∉ D.list h') → s'.queue.entry a = s.queue.entry a)
    (hmap : ∀ a, s'.queue.entry a = none ↔ s.queue.entry a = none) :
    InStep M s' ⟨Function.update D.list h l, insert c D.popped⟩ := by
  refine ⟨⟨hrep, fun a ha => ?_⟩, fun a => (hmap a).trans (hs.mapped a)⟩
  rcases Set.mem_insert_iff.mp ha with rfl | ha
  · exact ⟨hclear, hs.represents.notMem_rest hl⟩
  · obtain ⟨hclear', hout⟩ := hs.popped a ha
    have hac : a ≠ c := by
      rintro rfl
      exact hout h (hl ▸ List.mem_cons_self)
    have hal : a ∉ l := fun hal => hout h (hl ▸ List.mem_cons_of_mem c hal)
    exact ⟨(hentry a hac hout).trans hclear', notMem_update hal fun h' _ => hout h'⟩

/-- **One legal call** ends, is answered as on lists, and leaves the heap in step. -/
theorem QueueCall.exec_spec (i : QueueCall) (hs : InStep M s D) (hi : i.Legal M D) :
    ∃ s', i.exec s = .ok (s', (i.spec D).2) ∧ InStep M s' (i.spec D).1 := by
  cases i with
  | insertTail h c =>
    obtain ⟨e, he⟩ := hs.entry hi.1
    obtain ⟨q', hcode, hrep, hentry, hmap⟩ := hs.represents.insertTail h he hi.2
    refine ⟨({ s with queue := q' }).note (.enqueue h c), ?_, hs.inserted hrep ?_ hentry hmap⟩
    · simp [QueueCall.exec, QueueCall.spec, Corosched.insertTail, hcode, ofQueue]
    · intro a ha
      exact (List.mem_append.mp ha).symm.imp_left List.mem_singleton.mp
  | insertHead h c =>
    obtain ⟨e, he⟩ := hs.entry hi.1
    obtain ⟨q', hcode, hrep, hentry, hmap⟩ := hs.represents.insertHead h he hi.2
    refine ⟨({ s with queue := q' }).note (.enqueueHead h c), ?_, hs.inserted hrep ?_ hentry hmap⟩
    · simp [QueueCall.exec, QueueCall.spec, Corosched.insertHead, hcode, ofQueue]
    · intro a ha
      exact List.mem_cons.mp ha
  | empty h =>
    refine ⟨s, ?_, hs⟩
    simp [QueueCall.exec, QueueCall.spec, Corosched.empty, isEmpty_spec hs.represents]
  | pop h =>
    cases hl : D.list h with
    | nil =>
      have hcode := popFirst_nil hs.represents hl
      refine ⟨s, ?_, ?_⟩
      · simp [QueueCall.exec, QueueCall.spec, Corosched.pop, hcode, ofQueue, hl]
      · simpa [QueueCall.spec, hl] using hs
    | cons c l =>
      obtain ⟨q', hcode, hrep, hclear, hentry, hmap⟩ := hs.represents.popFirst hl
      refine ⟨({ s with queue := q' }).note (.pop h c), ?_, ?_⟩
      · simp [QueueCall.exec, QueueCall.spec, Corosched.pop, hcode, ofQueue, hl]
      · simp only [QueueCall.spec, hl]
        exact hs.taken hl hrep hclear hentry hmap

/-- `pop` returns nil exactly when `empty` says so. -/
theorem InStep.pop_nil_iff (hs : InStep M s D) (h : SchedId) :
    ∃ s' c, pop s h = .ok (s', c) ∧ (c = none ↔ empty s h = true) := by
  rw [empty, isEmpty_spec hs.represents]
  cases hl : D.list h with
  | nil => exact ⟨s, none, by simp [pop, popFirst_nil hs.represents hl, ofQueue], by simp⟩
  | cons c l =>
    obtain ⟨q', hcode, -⟩ := hs.represents.popFirst hl
    exact ⟨({ s with queue := q' }).note (.pop h c), some c, by simp [pop, hcode, ofQueue], by simp⟩

/-- A popped coroutine may be inserted again, at either end of either queue. -/
theorem InStep.legal_again (hs : InStep M s D) {c : Addr} (hc : c ∈ D.popped) (h : SchedId) :
    (QueueCall.insertTail h c).Legal M D ∧ (QueueCall.insertHead h c).Legal M D := by
  obtain ⟨hclear, hout⟩ := hs.popped c hc
  have hM : M c := by
    by_contra hn
    rw [(hs.mapped c).mpr hn] at hclear
    cases hclear
  exact ⟨⟨hM, hout⟩, ⟨hM, hout⟩⟩

/-! ## 4. Runs of calls -/

/-- **The queue operations refine double-ended lists.**  From `TAILQ_INIT` of both queues on any
heap, after every step of every run of legal calls the answers are those of the lists, the heap
holds the lists, `pop` returns nil exactly when `empty` is true, and what was popped may be inserted
again. -/
theorem queues_refine (s : State) (is : List QueueCall)
    (hl : Object.Legal QueueCall.spec (QueueCall.Legal s.queue.Mapped) .init is) :
    ∀ js, js <+: is → ∃ s', Object.calls QueueCall.exec (initQueues s) js
        = .ok (s', (Object.answers QueueCall.spec .init js).2) ∧
      HoldsDeques s' (Object.answers QueueCall.spec .init js).1 ∧
      (∀ h, ∃ s'' c, pop s' h = .ok (s'', c) ∧ (c = none ↔ empty s' h = true)) ∧
      ∀ c ∈ (Object.answers QueueCall.spec .init js).1.popped, ∀ h,
        (QueueCall.insertTail h c).Legal s.queue.Mapped (Object.answers QueueCall.spec .init js).1 ∧
        (QueueCall.insertHead h c).Legal s.queue.Mapped
          (Object.answers QueueCall.spec .init js).1 := by
  rintro js ⟨ks, rfl⟩
  obtain ⟨s', hcode, hs'⟩ := Object.refines (fun s D i hs hi => QueueCall.exec_spec i hs hi)
    (inStep_init s) hl.of_append
  exact ⟨s', hcode, hs'.toHoldsDeques, hs'.pop_nil_iff, fun c hc h => hs'.legal_again hc h⟩

/-- A coroutine whose links hold stale pointers goes through the master's queue into the other. -/
theorem queues_refine_moved :
    ∃ s' L, Object.calls QueueCall.exec (initQueues { boot none with
        queue := ⟨fun _ => none, fun _ => none, fun c => some ⟨some c, none⟩⟩ })
        [.insertTail .master ⟨16, by decide⟩, .pop .master, .insertHead .parallel ⟨16, by decide⟩]
        = .ok (s', [.void, .coro (some ⟨16, by decide⟩), .void]) ∧
      Represents s'.queue L ∧ L .master = [] ∧ L .parallel = [⟨16, by decide⟩] := by
  obtain ⟨s', hcode, hs', -⟩ := queues_refine { boot none with
      queue := ⟨fun _ => none, fun _ => none, fun c => some ⟨some c, none⟩⟩ }
    [.insertTail .master ⟨16, by decide⟩, .pop .master, .insertHead .parallel ⟨16, by decide⟩]
    (by simp [Object.Legal, QueueCall.Legal, QueueCall.spec, Deques.init, Heap.Mapped])
    _ (List.prefix_refl _)
  exact ⟨s', _, hcode, hs'.represents, rfl, rfl⟩

end Corosched
