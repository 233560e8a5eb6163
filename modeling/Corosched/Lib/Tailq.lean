/-
# Tail queues over a shared heap

The intrusive doubly linked queue of `<sys/queue.h>`: a head holds a pointer to the first element
and the address of the last `next` field, an element holds its successor and the address of the
field that points to it.  Several heads (`H`) may queue the same kind of element (`P`), an element
has one pair of links, and a removal clears them.

The operations are total on any heap, well formed or not: writing through a null address or into
an element that is not there is an error.  `Represents q L` says that the heads represent the
disjoint, duplicate-free lists `L`, and `Queues q L` also that the links of every other element
are null.  The lemmas of section 4 say what each operation does to these lists.
-/
import Mathlib.Data.List.Nodup
import Mathlib.Logic.Function.Basic
import Mathlib.Tactic.Common

namespace Tailq

/-! ## 1. The heap -/

/-- The address of a pointer field: a head's `tqh_first`, or an element's `tqe_next`. -/
inductive Slot (H P : Type)
  | first (h : H)
  | next (p : P)
  deriving DecidableEq

/-- The links of an element. -/
structure Entry (H P : Type) where
  tqe_next : Option P
  tqe_prev : Option (Slot H P)

/-- The links of a fresh or removed element. -/
def Entry.clear {H P : Type} : Entry H P := ⟨none, none⟩

/-- All heads and all elements; `entry p` is `none` where there is no element. -/
structure Heap (H P : Type) where
  tqh_first : H → Option P
  tqh_last : H → Option (Slot H P)
  entry : P → Option (Entry H P)

/-- Why an operation has no defined result. -/
inductive Bad
  | null
  | unmapped
  deriving DecidableEq

namespace Heap

variable {H P : Type} [DecidableEq H] [DecidableEq P]

/-- An element to read or write through a pointer. -/
def get (q : Heap H P) (p : P) : Except Bad (Entry H P) :=
  match q.entry p with
  | none => throw .unmapped
  | some e => pure e

def setEntry (q : Heap H P) (p : P) (e : Entry H P) : Heap H P :=
  { q with entry := Function.update q.entry p (some e) }

def setFirst (q : Heap H P) (h : H) (v : Option P) : Heap H P :=
  { q with tqh_first := Function.update q.tqh_first h v }

def setLast (q : Heap H P) (h : H) (v : Option (Slot H P)) : Heap H P :=
  { q with tqh_last := Function.update q.tqh_last h v }

/-- `p->tqe_next = v`. -/
def setNext (q : Heap H P) (p : P) (v : Option P) : Except Bad (Heap H P) := do
  let e ← q.get p
  pure (q.setEntry p { e with tqe_next := v })

/-- `p->tqe_prev = v`. -/
def setPrev (q : Heap H P) (p : P) (v : Option (Slot H P)) : Except Bad (Heap H P) := do
  let e ← q.get p
  pure (q.setEntry p { e with tqe_prev := v })

/-- `*a = v`, for the address `a` of a pointer field. -/
def store (q : Heap H P) (a : Option (Slot H P)) (v : Option P) : Except Bad (Heap H P) :=
  match a with
  | none => throw .null
  | some (.first h) => pure (q.setFirst h v)
  | some (.next p) => q.setNext p v

/-! ## 2. The operations -/

/-- `TAILQ_INIT`. -/
def init (q : Heap H P) (h : H) : Heap H P := (q.setFirst h none).setLast h (some (.first h))

/-- `TAILQ_EMPTY`. -/
def isEmpty (q : Heap H P) (h : H) : Bool := (q.tqh_first h).isNone

/-- `TAILQ_INSERT_HEAD`. -/
def insertHead (q : Heap H P) (h : H) (elm : P) : Except Bad (Heap H P) := do
  let q ← q.setNext elm (q.tqh_first h)
  let q ← match q.tqh_first h with
    | some f => q.setPrev f (some (.next elm))
    | none => pure (q.setLast h (some (.next elm)))
  let q := q.setFirst h (some elm)
  q.setPrev elm (some (.first h))

/-- `TAILQ_INSERT_TAIL`. -/
def insertTail (q : Heap H P) (h : H) (elm : P) : Except Bad (Heap H P) := do
  let q ← q.setNext elm none
  let q ← q.setPrev elm (q.tqh_last h)
  let q ← q.store (q.tqh_last h) (some elm)
  pure (q.setLast h (some (.next elm)))

/-- `TAILQ_REMOVE`, which clears the links of the element. -/
def remove (q : Heap H P) (h : H) (elm : P) : Except Bad (Heap H P) := do
  let e ← q.get elm
  let q ← match e.tqe_next with
    | some n => q.setPrev n e.tqe_prev
    | none => pure (q.setLast h e.tqe_prev)
  let e ← q.get elm
  let q ← q.store e.tqe_prev e.tqe_next
  let q ← q.setNext elm none
  q.setPrev elm none

/-- The first element, removed; `none` if there is none. -/
def popFirst (q : Heap H P) (h : H) : Except Bad (Heap H P × Option P) :=
  match q.tqh_first h with
  | none => pure (q, none)
  | some p => do
    let q ← q.remove h p
    pure (q, some p)

/-- A new element appears, with its links cleared. -/
def map (q : Heap H P) (p : P) : Heap H P := q.setEntry p .clear

/-- An element disappears. -/
def unmap (q : Heap H P) (p : P) : Heap H P :=
  { q with entry := Function.update q.entry p none }

/-- The element is there. -/
def Mapped (q : Heap H P) (p : P) : Prop := q.entry p ≠ none

/-- What a pointer field holds. -/
def val (q : Heap H P) : Slot H P → Option P
  | .first h => q.tqh_first h
  | .next p => (q.entry p).bind Entry.tqe_next

/-- The back link of an element. -/
def prev (q : Heap H P) (p : P) : Option (Slot H P) := (q.entry p).bind Entry.tqe_prev

end Heap

/-! ## 3. What the heads represent -/

variable {H P : Type}

/-- The links from the field `s` through the elements of `l` to the field `e`, forwards and
backwards. -/
def Seg (q : Heap H P) : Slot H P → List P → Slot H P → Prop
  | s, [], e => s = e
  | s, p :: l, e => q.val s = some p ∧ q.prev p = some s ∧ Seg q (.next p) l e

/-- The field after the last element. -/
def lastSlot (h : H) (l : List P) : Slot H P :=
  match l.getLast? with
  | none => .first h
  | some p => .next p

/-- **The heads represent the lists `L`.**  Forward links, back links and `tqh_last` agree, the
lists are disjoint and without duplicates, and an element in none of them has null links. -/
structure Queues (q : Heap H P) (L : H → List P) : Prop where
  seg : ∀ h, Seg q (.first h) (L h) (lastSlot h (L h))
  stop : ∀ h, q.val (lastSlot h (L h)) = none
  last : ∀ h, q.tqh_last h = some (lastSlot h (L h))
  nodup : ∀ h, (L h).Nodup
  disjoint : ∀ h h' p, p ∈ L h → p ∈ L h' → h = h'
  clear : ∀ p e, q.entry p = some e → (∀ h, p ∉ L h) → e = .clear

/-- The heads represent the lists `L`, and an element in none of them may hold any links. -/
structure Represents (q : Heap H P) (L : H → List P) : Prop where
  seg : ∀ h, Seg q (.first h) (L h) (lastSlot h (L h))
  stop : ∀ h, q.val (lastSlot h (L h)) = none
  last : ∀ h, q.tqh_last h = some (lastSlot h (L h))
  nodup : ∀ h, (L h).Nodup
  disjoint : ∀ h h' p, p ∈ L h → p ∈ L h' → h = h'

theorem Queues.represents {q : Heap H P} {L : H → List P} (hq : Queues q L) : Represents q L :=
  ⟨hq.seg, hq.stop, hq.last, hq.nodup, hq.disjoint⟩

theorem Represents.queues {q : Heap H P} {L : H → List P} (hq : Represents q L)
    (clear : ∀ p e, q.entry p = some e → (∀ h, p ∉ L h) → e = .clear) : Queues q L :=
  ⟨hq.seg, hq.stop, hq.last, hq.nodup, hq.disjoint, clear⟩

/-- The elements a walk from the head along the forward links meets, on any heap. -/
inductive Linked (q : Heap H P) (h : H) : P → Prop
  | first {p : P} (hp : q.tqh_first h = some p) : Linked q h p
  | next {p r : P} (hp : Linked q h p) (hr : q.val (.next p) = some r) : Linked q h r

/-- The links determine the list. -/
theorem Seg.unique {q : Heap H P} {s e e' : Slot H P} {l l' : List P} (h : Seg q s l e)
    (he : q.val e = none) (h' : Seg q s l' e') (he' : q.val e' = none) : l = l' := by
  induction l generalizing s l' with
  | nil =>
    cases l' with
    | nil => rfl
    | cons p l' =>
      have hs : s = e := h
      exact absurd ((hs ▸ he).symm.trans h'.1) (by simp)
  | cons p l ih =>
    cases l' with
    | nil =>
      have hs : s = e' := h'
      exact absurd ((hs ▸ he').symm.trans h.1) (by simp)
    | cons p' l' =>
      obtain rfl : p = p' := Option.some.inj (h.1.symm.trans h'.1)
      rw [ih h.2.2 h'.2.2]

theorem Queues.unique {q : Heap H P} {L L' : H → List P} (hq : Queues q L) (hq' : Queues q L') :
    L = L' :=
  funext fun h => (hq.seg h).unique (hq.stop h) (hq'.seg h) (hq'.stop h)

theorem Seg.append {q : Heap H P} {s m e : Slot H P} {l₁ l₂ : List P} (h₁ : Seg q s l₁ m)
    (h₂ : Seg q m l₂ e) : Seg q s (l₁ ++ l₂) e := by
  induction l₁ generalizing s with
  | nil => simp only [Seg] at h₁; subst h₁; exact h₂
  | cons p l ih => exact ⟨h₁.1, h₁.2.1, ih h₁.2.2⟩

/-- **A segment does not see a write elsewhere**: it reads the back links of its elements and
every field but the one it ends at. -/
theorem Seg.congr {q q' : Heap H P} {s e : Slot H P} {l : List P} (h : Seg q s l e)
    (hs : l ≠ [] → q'.val s = q.val s)
    (hv : ∀ p ∈ l, .next p ≠ e → q'.val (.next p) = q.val (.next p))
    (hp : ∀ p ∈ l, q'.prev p = q.prev p) (hnd : l.Nodup) (hse : ∀ p ∈ l, s ≠ .next p) :
    Seg q' s l e := by
  induction l generalizing s with
  | nil => exact h
  | cons p l ih =>
    obtain ⟨h₁, h₂, h₃⟩ := h
    rw [List.nodup_cons] at hnd
    refine ⟨(hs (by simp)).trans h₁, (hp p (by simp)).trans h₂, ih h₃ ?_ ?_ ?_ hnd.2 ?_⟩
    · intro hl
      refine hv p (by simp) ?_
      rintro rfl
      obtain ⟨r, l, rfl⟩ := List.exists_cons_of_ne_nil hl
      -- a nonempty segment does not end where it starts
      have key : ∀ {l : List P} {x y : P}, Seg q (.next x) (y :: l) (.next p) → p ∈ y :: l := by
        intro l
        induction l with
        | nil =>
          rintro x y ⟨-, -, h⟩
          simp only [Seg, Slot.next.injEq] at h
          simp [h]
        | cons z l ih =>
          rintro x y ⟨-, -, h⟩
          exact List.mem_cons_of_mem y (ih h)
      exact hnd.1 (key h₃)
    · exact fun q hq => hv q (List.mem_cons_of_mem p hq)
    · exact fun q hq => hp q (List.mem_cons_of_mem p hq)
    · rintro q hq hpq
      injection hpq with hpq
      exact hnd.1 (hpq ▸ hq)

/-- **The first element of a segment gets another field before it.** -/
theorem Seg.rehang {q q' : Heap H P} {s s' e : Slot H P} {l : List P} (h : Seg q s l e)
    (hl : l ≠ []) (hs : q'.val s' = l.head?) (hhead : ∀ p, l.head? = some p → q'.prev p = some s')
    (hv : ∀ p ∈ l, q'.val (.next p) = q.val (.next p))
    (hp : ∀ p ∈ l, l.head? ≠ some p → q'.prev p = q.prev p) (hnd : l.Nodup) : Seg q' s' l e := by
  cases l with
  | nil => exact absurd rfl hl
  | cons a l =>
    obtain ⟨-, -, hrest⟩ := h
    obtain ⟨hal, hnd'⟩ := List.nodup_cons.mp hnd
    refine ⟨hs, hhead a rfl, hrest.congr (fun _ => hv a List.mem_cons_self) (fun r hr _ => ?_)
      (fun r hr => ?_) hnd' ?_⟩
    · exact hv r (List.mem_cons_of_mem a hr)
    · refine hp r (List.mem_cons_of_mem a hr) ?_
      rintro ⟨rfl⟩
      exact hal hr
    · rintro r hr ⟨rfl⟩
      exact hal hr

@[simp] theorem lastSlot_nil (h : H) : lastSlot h ([] : List P) = .first h := rfl

@[simp] theorem lastSlot_append (h : H) (l : List P) (p : P) :
    lastSlot h (l ++ [p]) = .next p := by simp [lastSlot]

theorem lastSlot_cons (h : H) (p : P) (l : List P) :
    lastSlot h (p :: l) = .next p ∧ l = [] ∨ l ≠ [] ∧ lastSlot h (p :: l) = lastSlot h l := by
  cases l with
  | nil => exact Or.inl ⟨rfl, rfl⟩
  | cons r l => exact Or.inr ⟨by simp, by simp [lastSlot, List.getLast?_cons_cons]⟩

theorem lastSlot_eq_next {h : H} {l : List P} {p : P} (he : lastSlot h l = .next p) : p ∈ l := by
  rw [lastSlot] at he
  cases hl : l.getLast? with
  | none => rw [hl] at he; simp at he
  | some r =>
    rw [hl] at he
    simp only [Slot.next.injEq] at he
    subst he
    exact List.mem_of_getLast? hl

theorem lastSlot_eq_first {h h' : H} {l : List P} (he : lastSlot h l = .first h') :
    h = h' ∧ l = [] := by
  rw [lastSlot] at he
  cases hl : l.getLast? with
  | none =>
    rw [hl] at he
    simp only [Slot.first.injEq] at he
    exact ⟨he, by simpa using hl⟩
  | some r => rw [hl] at he; simp at he

/-! ## 4. What the operations do to the lists -/

section Spec

variable {q : Heap H P} {L : H → List P} {h : H} {p : P} {l : List P}

namespace Heap

section

variable [DecidableEq P]

@[simp] theorem setEntry_first (e : Entry H P) : (q.setEntry p e).tqh_first = q.tqh_first := rfl
@[simp] theorem setEntry_last (e : Entry H P) : (q.setEntry p e).tqh_last = q.tqh_last := rfl

theorem setEntry_entry (e : Entry H P) (r : P) :
    (q.setEntry p e).entry r = if r = p then some e else q.entry r := by
  simp [setEntry, Function.update_apply]

theorem setEntry_prev (e : Entry H P) (r : P) :
    (q.setEntry p e).prev r = if r = p then e.tqe_prev else q.prev r := by
  by_cases hr : r = p <;> simp [prev, setEntry_entry, hr]

end

section

variable [DecidableEq H]

@[simp] theorem setFirst_last (v : Option P) : (q.setFirst h v).tqh_last = q.tqh_last := rfl
@[simp] theorem setFirst_entry (v : Option P) : (q.setFirst h v).entry = q.entry := rfl
@[simp] theorem setLast_first (v : Option (Slot H P)) : (q.setLast h v).tqh_first = q.tqh_first :=
  rfl
@[simp] theorem setLast_entry (v : Option (Slot H P)) : (q.setLast h v).entry = q.entry := rfl

theorem setFirst_first (v : Option P) (h' : H) :
    (q.setFirst h v).tqh_first h' = if h' = h then v else q.tqh_first h' := by
  simp [setFirst, Function.update_apply]

theorem setLast_last (v : Option (Slot H P)) (h' : H) :
    (q.setLast h v).tqh_last h' = if h' = h then v else q.tqh_last h' := by
  simp [setLast, Function.update_apply]

@[simp] theorem setFirst_prev (v : Option P) : (q.setFirst h v).prev = q.prev := rfl
@[simp] theorem setLast_prev (v : Option (Slot H P)) : (q.setLast h v).prev = q.prev := rfl

@[simp] theorem setLast_val (v : Option (Slot H P)) : (q.setLast h v).val = q.val := by
  ext1 x
  cases x <;> rfl

end

section

variable [DecidableEq H] [DecidableEq P]

theorem setEntry_val (e : Entry H P) (x : Slot H P) :
    (q.setEntry p e).val x = if x = .next p then e.tqe_next else q.val x := by
  cases x with
  | first h => rfl
  | next r => by_cases hr : r = p <;> simp [val, setEntry_entry, hr]

theorem setFirst_val (v : Option P) (x : Slot H P) :
    (q.setFirst h v).val x = if x = .first h then v else q.val x := by
  cases x with
  | first h' => by_cases hh : h' = h <;> simp [val, setFirst_first, hh]
  | next r => rfl

end

theorem entry_of_prev {s : Slot H P} (hp : q.prev p = some s) :
    ∃ e, q.entry p = some e ∧ e.tqe_prev = some s := by
  rw [prev] at hp
  cases he : q.entry p with
  | none => simp [he] at hp
  | some e => exact ⟨e, rfl, by simpa [he] using hp⟩

end Heap

theorem Seg.mem_prev {s e : Slot H P} (hs : Seg q s l e) (hp : p ∈ l) : ∃ t, q.prev p = some t := by
  induction l generalizing s with
  | nil => simp at hp
  | cons r l ih =>
    rcases List.mem_cons.mp hp with rfl | hp
    · exact ⟨s, hs.2.1⟩
    · exact ih hs.2.2 hp

/-- A queued element is there. -/
theorem Represents.mapped (hq : Represents q L) (hp : p ∈ L h) : ∃ e, q.entry p = some e := by
  obtain ⟨t, ht⟩ := (hq.seg h).mem_prev hp
  obtain ⟨e, he, -⟩ := Heap.entry_of_prev ht
  exact ⟨e, he⟩

theorem Represents.first (hq : Represents q L) (h : H) : q.tqh_first h = (L h).head? := by
  have hseg := hq.seg h
  have hstop := hq.stop h
  cases hl : L h with
  | nil => rw [hl] at hstop; exact hstop
  | cons p l => rw [hl] at hseg; exact hseg.1

/-- The first element is linked to the second. -/
theorem Represents.next (hq : Represents q L) (hl : L h = p :: l) : q.val (.next p) = l.head? := by
  have hseg := hq.seg h
  have hstop := hq.stop h
  rw [hl] at hseg hstop
  obtain ⟨-, -, hrest⟩ := hseg
  cases l with
  | nil => exact hstop
  | cons r l => exact hrest.1

/-- **What a walk from the head meets is the list.** -/
theorem Represents.linked_iff (hq : Represents q L) : Linked q h p ↔ p ∈ L h := by
  have key : ∀ {l : List P} {s : Slot H P}, Seg q s l (lastSlot h (L h)) →
      (∀ r, q.val s = some r → r ∈ l) ∧ ∀ r t, r ∈ l → q.val (.next r) = some t → t ∈ l := by
    intro l
    induction l with
    | nil =>
      intro s hs
      simp only [Seg] at hs
      refine ⟨fun r hr => ?_, by simp⟩
      rw [hs, hq.stop h] at hr
      exact absurd hr (by simp)
    | cons a l ih =>
      rintro s ⟨h₁, -, h₃⟩
      obtain ⟨ih₁, ih₂⟩ := ih h₃
      refine ⟨fun r hr => ?_, fun r t hr ht => ?_⟩
      · rw [h₁] at hr
        simp [Option.some.inj hr]
      · rcases List.mem_cons.mp hr with rfl | hr
        · exact List.mem_cons_of_mem _ (ih₁ t ht)
        · exact List.mem_cons_of_mem _ (ih₂ r t hr ht)
  have walk : ∀ {l : List P} {s e : Slot H P}, Seg q s l e →
      (∀ r, q.val s = some r → Linked q h r) → ∀ r ∈ l, Linked q h r := by
    intro l
    induction l with
    | nil => simp
    | cons a l ih =>
      rintro s e ⟨h₁, -, h₃⟩ hs r hr
      have ha := hs a h₁
      rcases List.mem_cons.mp hr with rfl | hr
      · exact ha
      · exact ih h₃ (fun t ht => .next ha ht) r hr
  constructor
  · intro hl
    induction hl with
    | first hp => exact (key (hq.seg h)).1 _ hp
    | next _ hr ih => exact (key (hq.seg h)).2 _ _ ih hr
  · exact fun hp => walk (hq.seg h) (fun r hr => .first hr) p hp

/-- `TAILQ_EMPTY` says whether the list is empty. -/
theorem isEmpty_spec (hq : Represents q L) (h : H) : q.isEmpty h = (L h).isEmpty := by
  rw [Heap.isEmpty, hq.first h]
  cases L h <;> rfl

variable [DecidableEq H]

/-- The lists after one of them has changed are disjoint if the new one has only its old elements
and elements that were in none. -/
theorem disjoint_update (hd : ∀ h h' p, p ∈ L h → p ∈ L h' → h = h')
    (hl : ∀ r ∈ l, r ∈ L h ∨ ∀ h', r ∉ L h') (h₁ h₂ : H) (r : P)
    (h₁r : r ∈ Function.update L h l h₁) (h₂r : r ∈ Function.update L h l h₂) : h₁ = h₂ := by
  have key : ∀ {h₁ : H}, r ∈ Function.update L h l h₁ → r ∈ L h₁ ∨ (h₁ = h ∧ ∀ h', r ∉ L h') := by
    intro h₁ hr
    by_cases hh : h₁ = h
    · subst hh
      rw [Function.update_self] at hr
      exact (hl r hr).imp_right fun e => ⟨rfl, e⟩
    · rw [Function.update_of_ne hh] at hr
      exact Or.inl hr
  rcases key h₁r with hr₁ | ⟨hh₁, hr₁⟩ <;> rcases key h₂r with hr₂ | ⟨hh₂, hr₂⟩
  · exact hd _ _ _ hr₁ hr₂
  · exact absurd hr₁ (hr₂ _)
  · exact absurd hr₂ (hr₁ _)
  · rw [hh₁, hh₂]

/-- An element that is neither in the new list nor in another is in none. -/
theorem notMem_update (hl : p ∉ l) (hout : ∀ h', h' ≠ h → p ∉ L h') (h' : H) :
    p ∉ Function.update L h l h' := by
  by_cases hh : h' = h
  · subst hh
    rwa [Function.update_self]
  · rw [Function.update_of_ne hh]
    exact hout h' hh

/-- The first element of a list is in none once it is taken away. -/
theorem Represents.notMem_rest (hq : Represents q L) (hl : L h = p :: l) (h' : H) :
    p ∉ Function.update L h l h' := by
  have hnd := hq.nodup h
  rw [hl, List.nodup_cons] at hnd
  refine notMem_update hnd.1 (fun h'' hh hp => hh ?_) h'
  exact hq.disjoint _ _ _ hp (hl ▸ List.mem_cons_self)

/-- **One list changes.**  If the head `h` now represents `l` and the heads and elements of the
other lists are as they were, the heads represent the lists with `l` at `h`. -/
theorem Represents.update {q' : Heap H P} (hq : Represents q L)
    (hseg : Seg q' (.first h) l (lastSlot h l)) (hstop : q'.val (lastSlot h l) = none)
    (hlast : q'.tqh_last h = some (lastSlot h l)) (hnd : l.Nodup)
    (hl : ∀ r ∈ l, r ∈ L h ∨ ∀ h', r ∉ L h')
    (hfirst : ∀ h', h' ≠ h → q'.tqh_first h' = q.tqh_first h' ∧ q'.tqh_last h' = q.tqh_last h')
    (hentry : ∀ h', h' ≠ h → ∀ r ∈ L h', q'.entry r = q.entry r) :
    Represents q' (Function.update L h l) := by
  have hval : ∀ h', h' ≠ h → ∀ r ∈ L h', q'.val (.next r) = q.val (.next r) := by
    intro h' hh r hr
    simp only [Heap.val, hentry h' hh r hr]
  refine ⟨fun h' => ?_, fun h' => ?_, fun h' => ?_, fun h' => ?_,
    disjoint_update hq.disjoint hl⟩
  · by_cases hh : h' = h
    · subst hh; rwa [Function.update_self]
    · rw [Function.update_of_ne hh]
      refine (hq.seg h').congr (fun _ => (hfirst h' hh).1) (fun r hr _ => hval h' hh r hr)
        (fun r hr => ?_) (hq.nodup h') (by simp)
      simp only [Heap.prev, hentry h' hh r hr]
  · by_cases hh : h' = h
    · subst hh; rwa [Function.update_self]
    · rw [Function.update_of_ne hh, ← hq.stop h']
      cases he : lastSlot h' (L h') with
      | first h'' =>
        obtain ⟨rfl, -⟩ := lastSlot_eq_first he
        exact (hfirst h' hh).1
      | next r => exact hval h' hh r (lastSlot_eq_next he)
  · by_cases hh : h' = h
    · subst hh; rwa [Function.update_self]
    · rw [Function.update_of_ne hh, (hfirst h' hh).2, hq.last h']
  · by_cases hh : h' = h
    · subst hh; rwa [Function.update_self]
    · rw [Function.update_of_ne hh]
      exact hq.nodup h'

/-- The elements of no list keep null links if the others than `p` keep theirs. -/
theorem Queues.of_frame {q' : Heap H P} (hq : Queues q L)
    (hq' : Represents q' (Function.update L h l)) (hl : ∀ r ∈ L h, r ∈ l ∨ r = p)
    (hp : p ∈ l ∨ q'.entry p = some .clear)
    (hentry : ∀ r, r ≠ p → (∀ h', r ∉ L h') → q'.entry r = q.entry r) :
    Queues q' (Function.update L h l) := by
  refine hq'.queues fun r e her hr => ?_
  have hrl : r ∉ l := by simpa using hr h
  by_cases hrp : r = p
  · subst hrp
    exact (Option.some.inj ((hp.resolve_left hrl).symm.trans her)).symm
  · have hout : ∀ h', r ∉ L h' := by
      intro h' hrh
      by_cases hh : h' = h
      · subst hh
        exact (hl r hrh).elim hrl hrp
      · exact hr h' (by rwa [Function.update_of_ne hh])
    exact hq.clear r e (hentry r hrp hout ▸ her) hout

variable [DecidableEq P]

omit [DecidableEq H] [DecidableEq P] in
/-- The last field of one list is in no other. -/
theorem ne_lastSlot {r : P} {h' : H} (hq : Represents q L) (hr : r ∈ L h') (hh : h' ≠ h) :
    lastSlot h (L h) ≠ .next r := fun he => hh (hq.disjoint _ _ _ hr (lastSlot_eq_next he))

/-- What an insertion at the tail writes. -/
theorem insertTail_writes (hq : Represents q L) (h : H) {e : Entry H P} (he : q.entry p = some e)
    (hp : ∀ h', p ∉ L h') :
    ∃ q', q.insertTail h p = .ok q' ∧
      (∀ x, q'.val x = if x = lastSlot h (L h) then some p else if x = .next p then none
        else q.val x) ∧
      (∀ r, q'.prev r = if r = p then some (lastSlot h (L h)) else q.prev r) ∧
      (∀ h', q'.tqh_last h' = if h' = h then some (.next p) else q.tqh_last h') ∧
      (∀ r, r ≠ p → lastSlot h (L h) ≠ .next r → q'.entry r = q.entry r) ∧
      ∀ r, q'.entry r = none ↔ q.entry r = none := by
  cases ha : lastSlot h (L h) with
  | first h' =>
    obtain ⟨rfl, hl⟩ := lastSlot_eq_first ha
    refine ⟨(((q.setEntry p ⟨none, e.tqe_prev⟩).setEntry p ⟨none, some (.first h)⟩).setFirst h
      (some p)).setLast h (some (.next p)), ?_, ?_, ?_, ?_, ?_, ?_⟩
    · simp [Heap.insertTail, Heap.setNext, Heap.setPrev, Heap.store, Heap.get, he, hq.last h, ha,
        Heap.setEntry_entry, pure, Except.pure, bind, Except.bind]
    · intro x
      simp only [Heap.setLast_val, Heap.setFirst_val, Heap.setEntry_val]
      grind
    · intro r
      simp only [Heap.setLast_prev, Heap.setFirst_prev, Heap.setEntry_prev]
      grind
    · intro h'
      simp [Heap.setLast_last]
    · intro r hr _
      simp [Heap.setEntry_entry, hr]
    · intro r
      by_cases hr : r = p <;> simp [Heap.setEntry_entry, hr, he]
  | next t =>
    have ht : t ∈ L h := lastSlot_eq_next ha
    have htp : t ≠ p := by rintro rfl; exact hp h ht
    obtain ⟨et, het⟩ := hq.mapped ht
    have hprev : q.prev t = et.tqe_prev := by simp [Heap.prev, het]
    refine ⟨(((q.setEntry p ⟨none, e.tqe_prev⟩).setEntry p ⟨none, some (.next t)⟩).setEntry t
      ⟨some p, et.tqe_prev⟩).setLast h (some (.next p)), ?_, ?_, ?_, ?_, ?_, ?_⟩
    · simp [Heap.insertTail, Heap.setNext, Heap.setPrev, Heap.store, Heap.get, he, hq.last h, ha,
        Heap.setEntry_entry, htp, het, pure, Except.pure, bind, Except.bind]
    · intro x
      simp only [Heap.setLast_val, Heap.setEntry_val]
      grind
    · intro r
      simp only [Heap.setLast_prev, Heap.setEntry_prev]
      grind
    · intro h'
      simp [Heap.setLast_last]
    · intro r hr hrt
      have : r ≠ t := by rintro rfl; exact hrt rfl
      simp [Heap.setEntry_entry, hr, this]
    · intro r
      by_cases hr : r = t
      · subst hr; simp [Heap.setEntry_entry, het]
      · by_cases hr' : r = p <;> simp [Heap.setEntry_entry, hr, hr', he, Ne.symm htp]

omit [DecidableEq H] [DecidableEq P] in
theorem Heap.first_of_val {q' : Heap H P} (hv : q'.val (.first h) = q.val (.first h)) :
    q'.tqh_first h = q.tqh_first h := hv

/-- **An insertion at the tail appends.** -/
theorem Represents.insertTail (hq : Represents q L) (h : H) {e : Entry H P}
    (he : q.entry p = some e) (hp : ∀ h', p ∉ L h') :
    ∃ q', q.insertTail h p = .ok q' ∧ Represents q' (Function.update L h (L h ++ [p])) ∧
      (∀ r, r ≠ p → (∀ h', r ∉ L h') → q'.entry r = q.entry r) ∧
      ∀ r, q'.entry r = none ↔ q.entry r = none := by
  obtain ⟨q', hcode, hval, hprev, hlast, hentry, hmap⟩ := insertTail_writes hq h he hp
  have hne : ∀ {h'} {r}, r ∈ L h' → r ≠ p := by rintro h' r hr rfl; exact hp h' hr
  refine ⟨q', hcode, hq.update ?_ ?_ ?_ ?_ ?_ ?_ ?_, fun r hr hout => ?_, hmap⟩
  · -- the old segment is untouched; the new element follows the old last field
    rw [lastSlot_append]
    have hold : Seg q' (.first h) (L h) (lastSlot h (L h)) := by
      refine (hq.seg h).congr (fun hl => ?_) (fun r hr hre => ?_) (fun r hr => ?_) (hq.nodup h)
        (by simp)
      · rw [hval, if_neg (fun hf => hl (lastSlot_eq_first hf.symm).2), if_neg (by simp)]
      · rw [hval, if_neg hre, if_neg (by simpa using hne hr)]
      · rw [hprev, if_neg (hne hr)]
    exact hold.append ⟨by rw [hval, if_pos rfl], by rw [hprev, if_pos rfl], rfl⟩
  · rw [lastSlot_append, hval, if_neg (fun hl => hp _ (lastSlot_eq_next hl.symm)), if_pos rfl]
  · rw [lastSlot_append, hlast, if_pos rfl]
  · rw [List.nodup_append]
    refine ⟨hq.nodup _, by simp, ?_⟩
    rintro r hr r' hr' rfl
    exact hne hr (by simpa using hr')
  · intro r hr
    rcases List.mem_append.mp hr with hr | hr
    · exact Or.inl hr
    · rw [List.mem_singleton.mp hr]
      exact Or.inr hp
  · intro h' hh
    refine ⟨Heap.first_of_val ?_, by rw [hlast, if_neg hh]⟩
    rw [hval, if_neg (fun hf => hh (lastSlot_eq_first hf.symm).1.symm), if_neg (by simp)]
  · exact fun h' hh r hr => hentry r (hne hr) (ne_lastSlot hq hr hh)
  · exact hentry r hr fun hl => hout h (lastSlot_eq_next hl)

/-- The same where every element of no list has null links. -/
theorem insertTail_spec (hq : Queues q L) (h : H) {e : Entry H P} (he : q.entry p = some e)
    (hp : ∀ h', p ∉ L h') :
    ∃ q', q.insertTail h p = .ok q' ∧ Queues q' (Function.update L h (L h ++ [p])) ∧
      ∀ r, q'.entry r = none ↔ q.entry r = none := by
  obtain ⟨q', hcode, hq', hentry, hmap⟩ := hq.represents.insertTail h he hp
  exact ⟨q', hcode, hq.of_frame hq' (fun r hr => Or.inl (List.mem_append_left [p] hr))
    (Or.inl (List.mem_append_right (L h) List.mem_cons_self)) hentry, hmap⟩

/-- **An insertion at the tail of the first element** leaves it linked to itself, if it is alone,
and otherwise cuts off what follows it. -/
theorem insertTail_first (hq : Represents q L) (hl : L h = p :: l) :
    ∃ q', q.insertTail h p = .ok q' ∧ q'.val (.next p) ≠ l.head? := by
  obtain ⟨e, he⟩ := hq.mapped (h := h) (p := p) (hl ▸ List.mem_cons_self)
  have hnd := hq.nodup h
  have hlast := hq.last h
  rw [hl] at hnd hlast
  obtain ⟨hp, -⟩ := List.nodup_cons.mp hnd
  rcases lastSlot_cons h p l with ⟨hslot, rfl⟩ | ⟨hne, hslot⟩
  · rw [hslot] at hlast
    refine ⟨(((q.setEntry p ⟨none, e.tqe_prev⟩).setEntry p ⟨none, some (.next p)⟩).setEntry p
      ⟨some p, some (.next p)⟩).setLast h (some (.next p)), ?_, ?_⟩
    · simp [Heap.insertTail, Heap.setNext, Heap.setPrev, Heap.store, Heap.get, he, hlast,
        Heap.setEntry_entry, pure, Except.pure, bind, Except.bind]
    · simp [Heap.val, Heap.setEntry_entry]
  · rw [hslot] at hlast
    cases ha : lastSlot h l with
    | first h' => exact absurd (lastSlot_eq_first ha).2 hne
    | next t =>
      rw [ha] at hlast
      have ht : t ∈ l := lastSlot_eq_next ha
      have htp : t ≠ p := by
        rintro rfl
        exact hp ht
      obtain ⟨et, het⟩ := hq.mapped (h := h) (p := t) (hl ▸ List.mem_cons_of_mem p ht)
      refine ⟨(((q.setEntry p ⟨none, e.tqe_prev⟩).setEntry p ⟨none, some (.next t)⟩).setEntry t
        ⟨some p, et.tqe_prev⟩).setLast h (some (.next p)), ?_, ?_⟩
      · simp [Heap.insertTail, Heap.setNext, Heap.setPrev, Heap.store, Heap.get, he, hlast,
          Heap.setEntry_entry, htp, het, pure, Except.pure, bind, Except.bind]
      · obtain ⟨r, l, rfl⟩ := List.exists_cons_of_ne_nil hne
        simp [Heap.val, Heap.setEntry_entry, Ne.symm htp]

/-- What an insertion at the head writes. -/
theorem insertHead_writes (hq : Represents q L) (h : H) {e : Entry H P} (he : q.entry p = some e)
    (hp : ∀ h', p ∉ L h') :
    ∃ q', q.insertHead h p = .ok q' ∧
      (∀ x, q'.val x = if x = .first h then some p else if x = .next p then (L h).head?
        else q.val x) ∧
      (∀ r, q'.prev r = if r = p then some (.first h) else if (L h).head? = some r
        then some (.next p) else q.prev r) ∧
      (∀ h', q'.tqh_last h' = if h' = h then some (lastSlot h (p :: L h)) else q.tqh_last h') ∧
      (∀ r, r ≠ p → (L h).head? ≠ some r → q'.entry r = q.entry r) ∧
      ∀ r, q'.entry r = none ↔ q.entry r = none := by
  have hfirst := hq.first h
  have hlast := hq.last h
  cases hl : L h with
  | nil =>
    -- an empty queue: the head's two fields and the element's links
    rw [hl, List.head?_nil] at hfirst
    refine ⟨(((q.setEntry p ⟨none, e.tqe_prev⟩).setLast h (some (.next p))).setFirst h
      (some p)).setEntry p ⟨none, some (.first h)⟩, ?_, ?_, ?_, ?_, ?_, ?_⟩
    · simp [Heap.insertHead, Heap.setNext, Heap.setPrev, Heap.get, he, hfirst,
        Heap.setEntry_entry, pure, Except.pure, bind, Except.bind]
    · intro x
      simp only [Heap.setLast_val, Heap.setFirst_val, Heap.setEntry_val, List.head?_nil]
      grind
    · intro r
      simp only [Heap.setLast_prev, Heap.setFirst_prev, Heap.setEntry_prev, List.head?_nil]
      grind
    · intro h'
      simp [Heap.setLast_last, lastSlot]
    · intro r hr _
      simp [Heap.setEntry_entry, hr]
    · intro r
      by_cases hr : r = p <;> simp [Heap.setEntry_entry, hr, he]
  | cons f l =>
    -- the old first element gets a new back link
    rw [hl, List.head?_cons] at hfirst
    have hfin : f ∈ L h := hl ▸ List.mem_cons_self
    have hfp : f ≠ p := by
      rintro rfl
      exact hp h hfin
    obtain ⟨ef, hef⟩ := hq.mapped hfin
    have hval : q.val (.next f) = ef.tqe_next := by simp [Heap.val, hef]
    refine ⟨(((q.setEntry p ⟨some f, e.tqe_prev⟩).setEntry f ⟨ef.tqe_next,
      some (.next p)⟩).setFirst h (some p)).setEntry p ⟨some f, some (.first h)⟩, ?_, ?_, ?_, ?_,
      ?_, ?_⟩
    · simp [Heap.insertHead, Heap.setNext, Heap.setPrev, Heap.get, he, hfirst,
        Heap.setEntry_entry, hfp, hef, Ne.symm hfp, pure, Except.pure, bind, Except.bind]
    · intro x
      simp only [Heap.setFirst_val, Heap.setEntry_val, List.head?_cons]
      grind
    · intro r
      simp only [Heap.setFirst_prev, Heap.setEntry_prev, List.head?_cons]
      grind
    · intro h'
      have hls : lastSlot h (p :: f :: l) = lastSlot h (L h) := by
        simp [lastSlot, hl, List.getLast?_cons_cons]
      by_cases hh : h' = h
      · simp [hh, hls, hlast]
      · simp [hh]
    · intro r hr hrf
      have hrf' : r ≠ f := by
        rintro rfl
        exact hrf rfl
      simp [Heap.setEntry_entry, hr, hrf']
    · intro r
      by_cases hr : r = p
      · simp [Heap.setEntry_entry, hr, he]
      · by_cases hr' : r = f <;> simp [Heap.setEntry_entry, hr, hr', hfp, hef]

/-- **An insertion at the head prepends.** -/
theorem Represents.insertHead (hq : Represents q L) (h : H) {e : Entry H P}
    (he : q.entry p = some e) (hp : ∀ h', p ∉ L h') :
    ∃ q', q.insertHead h p = .ok q' ∧ Represents q' (Function.update L h (p :: L h)) ∧
      (∀ r, r ≠ p → (∀ h', r ∉ L h') → q'.entry r = q.entry r) ∧
      ∀ r, q'.entry r = none ↔ q.entry r = none := by
  obtain ⟨q', hcode, hval, hprev, hlast, hentry, hmap⟩ := insertHead_writes hq h he hp
  have hne : ∀ {h'} {r}, r ∈ L h' → r ≠ p := by rintro h' r hr rfl; exact hp h' hr
  refine ⟨q', hcode, hq.update ?_ ?_ ?_ ?_ ?_ ?_ ?_, fun r hr hout => ?_, hmap⟩
  · refine ⟨by rw [hval, if_pos rfl], by rw [hprev, if_pos rfl], ?_⟩
    rcases lastSlot_cons h p (L h) with ⟨hslot, hl⟩ | ⟨hl, hslot⟩
    · rw [hslot, hl]
      rfl
    · rw [hslot]
      refine (hq.seg h).rehang hl ?_ (fun r hr => ?_) (fun r hr => ?_) (fun r hr hrh => ?_)
        (hq.nodup h)
      · rw [hval, if_neg (by simp), if_pos rfl]
      · rw [hprev, if_neg (hne (List.mem_of_mem_head? hr)), if_pos hr]
      · rw [hval, if_neg (by simp), if_neg (by simpa using hne hr)]
      · rw [hprev, if_neg (hne hr), if_neg hrh]
  · rcases lastSlot_cons h p (L h) with ⟨hslot, hl⟩ | ⟨hl, hslot⟩
    · rw [hslot, hval, if_neg (by simp), if_pos rfl, hl]
      rfl
    · rw [hslot, hval, if_neg (fun hf => hl (lastSlot_eq_first hf).2),
        if_neg (fun hn => hp h (lastSlot_eq_next hn)), hq.stop]
  · rw [hlast, if_pos rfl]
  · exact List.nodup_cons.mpr ⟨hp h, hq.nodup h⟩
  · intro r hr
    rcases List.mem_cons.mp hr with rfl | hr
    · exact Or.inr hp
    · exact Or.inl hr
  · intro h' hh
    refine ⟨Heap.first_of_val ?_, by rw [hlast, if_neg hh]⟩
    rw [hval, if_neg (by simpa using hh), if_neg (by simp)]
  · intro h' hh r hr
    refine hentry r (hne hr) fun hrh => hh (hq.disjoint _ _ _ hr ?_)
    exact List.mem_of_mem_head? hrh
  · exact hentry r hr fun hrh => hout h (List.mem_of_mem_head? hrh)

/-- The same where every element of no list has null links. -/
theorem insertHead_spec (hq : Queues q L) (h : H) {e : Entry H P} (he : q.entry p = some e)
    (hp : ∀ h', p ∉ L h') :
    ∃ q', q.insertHead h p = .ok q' ∧ Queues q' (Function.update L h (p :: L h)) ∧
      ∀ r, q'.entry r = none ↔ q.entry r = none := by
  obtain ⟨q', hcode, hq', hentry, hmap⟩ := hq.represents.insertHead h he hp
  exact ⟨q', hcode, hq.of_frame hq' (fun r hr => Or.inl (List.mem_cons_of_mem p hr))
    (Or.inl List.mem_cons_self) hentry, hmap⟩

/-- An empty queue gives nothing. -/
theorem popFirst_nil (hq : Represents q L) (hl : L h = []) : q.popFirst h = .ok (q, none) := by
  simp [Heap.popFirst, hq.first h, hl, pure, Except.pure]

/-- What a pop writes. -/
theorem popFirst_writes (hq : Represents q L) (hl : L h = p :: l) :
    ∃ q', q.popFirst h = .ok (q', some p) ∧
      (∀ x, q'.val x = if x = .first h then l.head? else if x = .next p then none
        else q.val x) ∧
      (∀ r, r ≠ p → q'.prev r = if l.head? = some r then some (.first h) else q.prev r) ∧
      (∀ h', q'.tqh_last h' = if h' = h then some (lastSlot h l) else q.tqh_last h') ∧
      q'.entry p = some .clear ∧
      (∀ r, r ≠ p → l.head? ≠ some r → q'.entry r = q.entry r) ∧
      ∀ r, q'.entry r = none ↔ q.entry r = none := by
  have hfirst := hq.first h
  have hseg := hq.seg h
  have hlast := hq.last h
  have hnext := hq.next hl
  have hnd := hq.nodup h
  rw [hl] at hfirst hseg hlast hnd
  obtain ⟨-, hprev, hrest⟩ := hseg
  obtain ⟨e, he, hep⟩ := Heap.entry_of_prev hprev
  have hen : e.tqe_next = l.head? := by simpa [Heap.val, he] using hnext
  rw [List.head?_cons] at hfirst
  cases l with
  | nil =>
    -- the only element: the head is as initialised
    rw [List.head?_nil] at hen
    refine ⟨((((q.setLast h (some (.first h))).setFirst h none).setEntry p
      ⟨none, some (.first h)⟩).setEntry p ⟨none, none⟩), ?_, ?_, ?_, ?_, ?_, ?_, ?_⟩
    · simp [Heap.popFirst, hfirst, Heap.remove, Heap.get, he, hen, hep, Heap.store, Heap.setNext,
        Heap.setPrev, Heap.setEntry_entry, pure, Except.pure, bind, Except.bind]
    · intro x
      simp only [Heap.setLast_val, Heap.setFirst_val, Heap.setEntry_val, List.head?_nil]
      grind
    · intro r hr
      simp [Heap.setEntry_prev, hr]
    · intro h'
      simp [Heap.setLast_last]
    · simp [Heap.setEntry_entry, Entry.clear]
    · intro r hr _
      simp [Heap.setEntry_entry, hr]
    · intro r
      by_cases hr : r = p <;> simp [Heap.setEntry_entry, hr, he]
  | cons n l =>
    -- the second element becomes the first
    obtain ⟨-, hpn, -⟩ := hrest
    obtain ⟨en, hen', henp⟩ := Heap.entry_of_prev hpn
    have hval : q.val (.next n) = en.tqe_next := by simp [Heap.val, hen']
    have hnp : n ≠ p := by
      rintro rfl
      simp at hnd
    rw [List.head?_cons] at hen
    refine ⟨((((q.setEntry n ⟨en.tqe_next, some (.first h)⟩).setFirst h (some n)).setEntry p
      ⟨none, some (.first h)⟩).setEntry p ⟨none, none⟩), ?_, ?_, ?_, ?_, ?_, ?_, ?_⟩
    · simp [Heap.popFirst, hfirst, Heap.remove, Heap.get, he, hen, hep, hen', Heap.store,
        Heap.setNext, Heap.setPrev, Heap.setEntry_entry, Ne.symm hnp, pure, Except.pure, bind,
        Except.bind]
    · intro x
      simp only [Heap.setFirst_val, Heap.setEntry_val, List.head?_cons]
      grind
    · intro r hr
      simp only [Heap.setFirst_prev, Heap.setEntry_prev, List.head?_cons]
      grind
    · intro h'
      have hls : lastSlot h (p :: n :: l) = lastSlot h (n :: l) := by
        simp [lastSlot, List.getLast?_cons_cons]
      by_cases hh : h' = h
      · simp [hh, ← hls, hlast]
      · simp [hh]
    · simp [Heap.setEntry_entry, Entry.clear]
    · intro r hr hrn
      have hrn' : r ≠ n := by
        rintro rfl
        exact hrn rfl
      simp [Heap.setEntry_entry, hr, hrn']
    · intro r
      by_cases hr : r = p
      · simp [Heap.setEntry_entry, hr, he]
      · by_cases hr' : r = n <;> simp [Heap.setEntry_entry, hr, hr', hnp, hen']

/-- **A pop takes the first element** and clears its links. -/
theorem Represents.popFirst (hq : Represents q L) (hl : L h = p :: l) :
    ∃ q', q.popFirst h = .ok (q', some p) ∧ Represents q' (Function.update L h l) ∧
      q'.entry p = some .clear ∧
      (∀ r, r ≠ p → (∀ h', r ∉ L h') → q'.entry r = q.entry r) ∧
      ∀ r, q'.entry r = none ↔ q.entry r = none := by
  obtain ⟨q', hcode, hval, hprev, hlast, hclear, hentry, hmap⟩ := popFirst_writes hq hl
  have hseg := hq.seg h
  have hstop := hq.stop h
  have hnd := hq.nodup h
  rw [hl] at hseg hstop hnd
  obtain ⟨-, -, hrest⟩ := hseg
  obtain ⟨hpl, hnd'⟩ := List.nodup_cons.mp hnd
  have hne : ∀ {r}, r ∈ l → r ≠ p := by rintro r hr rfl; exact hpl hr
  have hin : ∀ {h'}, p ∈ L h' → h' = h := fun hp => hq.disjoint _ _ _ hp (hl ▸ List.mem_cons_self)
  refine ⟨q', hcode, hq.update ?_ ?_ ?_ hnd' ?_ ?_ ?_, hclear, fun r hrp hout => ?_, hmap⟩
  · rcases lastSlot_cons h p l with ⟨-, rfl⟩ | ⟨hl', hslot⟩
    · rfl
    · rw [hslot] at hrest
      refine hrest.rehang hl' ?_ (fun r hr => ?_) (fun r hr => ?_) (fun r hr hrh => ?_) hnd'
      · rw [hval, if_pos rfl]
      · rw [hprev r (hne (List.mem_of_mem_head? hr)), if_pos hr]
      · rw [hval, if_neg (by simp), if_neg (by simpa using hne hr)]
      · rw [hprev r (hne hr), if_neg hrh]
  · rcases lastSlot_cons h p l with ⟨-, rfl⟩ | ⟨hl', hslot⟩
    · rw [lastSlot_nil, hval, if_pos rfl, List.head?_nil]
    · rw [hslot] at hstop
      rw [hval, if_neg (fun hf => hl' (lastSlot_eq_first hf).2),
        if_neg (fun hn => hpl (lastSlot_eq_next hn)), hstop]
  · rw [hlast, if_pos rfl]
  · exact fun r hr => Or.inl (hl ▸ List.mem_cons_of_mem p hr)
  · intro h' hh
    refine ⟨Heap.first_of_val ?_, by rw [hlast, if_neg hh]⟩
    rw [hval, if_neg (by simpa using hh), if_neg (by simp)]
  · intro h' hh r hr
    refine hentry r ?_ fun hrh => hh (hq.disjoint _ _ _ hr ?_)
    · rintro rfl
      exact hh (hin hr)
    · exact hl ▸ List.mem_cons_of_mem p (List.mem_of_mem_head? hrh)
  · refine hentry r hrp fun hrh => hout h ?_
    exact hl ▸ List.mem_cons_of_mem p (List.mem_of_mem_head? hrh)

/-- The same where every element of no list has null links. -/
theorem popFirst_cons (hq : Queues q L) (hl : L h = p :: l) :
    ∃ q', q.popFirst h = .ok (q', some p) ∧ Queues q' (Function.update L h l) ∧
      ∀ r, q'.entry r = none ↔ q.entry r = none := by
  obtain ⟨q', hcode, hq', hclear, hentry, hmap⟩ := hq.represents.popFirst hl
  refine ⟨q', hcode, hq.of_frame hq' (fun r hr => ?_) (Or.inr hclear) hentry, hmap⟩
  rw [hl, List.mem_cons] at hr
  exact hr.symm

omit [DecidableEq H] in
/-- A new element is in no list. -/
theorem map_spec (hq : Queues q L) (hp : q.entry p = none) : Queues (q.map p) L := by
  have hne : ∀ {h'} {r}, r ∈ L h' → r ≠ p := by
    rintro h' r hr rfl
    obtain ⟨e, he⟩ := hq.represents.mapped hr
    rw [he] at hp
    exact absurd hp (by simp)
  have hval : ∀ x, x ≠ .next p → (q.map p).val x = q.val x := by
    intro x hx
    cases x with
    | first h => rfl
    | next r =>
      have hr : r ≠ p := by rintro rfl; exact hx rfl
      simp [Heap.val, Heap.map, Heap.setEntry_entry, hr]
  have hlast : ∀ h, lastSlot h (L h) ≠ .next p := by
    intro h he
    exact hne (lastSlot_eq_next he) rfl
  refine ⟨fun h => ?_, fun h => ?_, hq.last, hq.nodup, hq.disjoint, ?_⟩
  · refine (hq.seg h).congr (fun _ => rfl) (fun r hr _ => hval _ (by simpa using hne hr))
      (fun r hr => ?_) (hq.nodup h) (by simp)
    simp [Heap.prev, Heap.map, Heap.setEntry_entry, hne hr]
  · rw [hval _ (hlast h), hq.stop h]
  · intro r er her hr
    by_cases hrp : r = p
    · subst hrp
      simpa [Heap.map, Heap.setEntry_entry] using her.symm
    · simp only [Heap.map, Heap.setEntry_entry, hrp, if_false] at her
      exact hq.clear r er her hr

omit [DecidableEq H] in
/-- An element that is in no list may disappear. -/
theorem unmap_spec (hq : Queues q L) (hp : ∀ h, p ∉ L h) : Queues (q.unmap p) L := by
  have hne : ∀ {h'} {r}, r ∈ L h' → r ≠ p := by rintro h' r hr rfl; exact hp h' hr
  have hent : ∀ r, r ≠ p → (q.unmap p).entry r = q.entry r :=
    fun r hr => Function.update_of_ne hr _ _
  refine ⟨fun h => ?_, fun h => ?_, hq.last, hq.nodup, hq.disjoint, ?_⟩
  · refine (hq.seg h).congr (fun _ => rfl) (fun r hr _ => ?_) (fun r hr => ?_) (hq.nodup h)
      (by simp)
    · simp only [Heap.val, hent r (hne hr)]
    · simp only [Heap.prev, hent r (hne hr)]
  · rw [← hq.stop h]
    cases hl : lastSlot h (L h) with
    | first h' => rfl
    | next r => simp only [Heap.val, hent r (hne (lastSlot_eq_next hl))]
  · intro r er her hr
    by_cases hrp : r = p
    · subst hrp
      simp [Heap.unmap] at her
    · rw [hent r hrp] at her
      exact hq.clear r er her hr

end Spec

end Tailq
