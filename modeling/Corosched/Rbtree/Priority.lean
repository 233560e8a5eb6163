/-
# The tree as a queue ordered by key

`rbtree_insert` goes right where the keys are equal, and no rotation changes the order of the nodes
from left to right.  So after every legal history the nodes stand by key and, where keys are equal,
in the order they were inserted, and `rbtree_min` returns the one that was inserted first among
those with the least key.
-/
import Corosched.Lib.Prio
import Corosched.Rbtree.Membership

namespace Corosched

open RbZip

variable {P D : Type} [DecidableEq P] {m : Mem P D} {s : P} {tree : Rbtree P} {T : RbTree P}

/-! ## 1. The order from left to right -/

/-- An operation as an event of the queue. -/
def TreeOp.ev : TreeOp P D → Prio.Ev P Int
  | .insert p f => .put p f.key
  | .delete p => .drop p

/-- The tree holds the entries `l`, from left to right. -/
structure Entries (m : Mem P D) (T : RbTree P) (l : List (P × Int)) : Prop where
  nodes : T.toList = l.map Prod.fst
  keys : ∀ e ∈ l, m.key e.1 = e.2

omit [DecidableEq P] in
/-- Where the nodes fall apart, the entries do. -/
theorem Entries.split {l : List (P × Int)} {A B : List P} (h : Entries m T l)
    (hT : T.toList = A ++ B) :
    ∃ A' B', l = A' ++ B' ∧ A'.map Prod.fst = A ∧ B'.map Prod.fst = B := by
  obtain ⟨A', B', rfl, hA, hB⟩ := List.map_eq_append_iff.mp (h.nodes.symm.trans hT)
  exact ⟨A', B', rfl, hA, hB⟩

/-- **An insertion** puts the node where the queue puts the entry. -/
theorem rbtreeInsert_entries {l : List (P × Int)} {p : P} (h : RbOk m tree s T) (hl : Entries m T l)
    (hp : p ∉ T.toList) (hps : p ≠ s) (f : NodeFields P D) (fuel : Nat)
    (hfuel : T.toList.length < fuel) :
    ∃ m' tree' T', rbtreeInsert fuel (setNode m p f) tree p = .ok (m', tree') ∧
      RbOk m' tree' s T' ∧ Entries m' T' (Prio.put l p f.key) := by
  obtain ⟨m', tree', T', A, B, hcode, hok, hT, hT', hkey, -, hA, hB⟩ :=
    rbtreeInsert_place (h.setNode hp hps f) hp hps fuel hfuel
  obtain ⟨A', B', rfl, rfl, rfl⟩ := hl.split hT
  have hself : (setNode m p f).key p = f.key := by simp [setNode]
  have hkeys : ∀ e ∈ A' ++ B', (setNode m p f).key e.1 = e.2 := by
    intro e he
    have hep : e.1 ≠ p := by
      rintro rfl
      exact hp (hl.nodes ▸ List.mem_map_of_mem he)
    exact (Function.update_of_ne hep f.key m.key).trans (hl.keys e he)
  have hput : Prio.put (A' ++ B') p f.key = A' ++ (p, f.key) :: B' := by
    refine Prio.put_eq (fun e he => ?_) fun e he => ?_
    · have := hA e.1 (List.mem_map_of_mem he)
      rwa [hself, hkeys e (List.mem_append_left _ he)] at this
    · have := hB e.1 (List.mem_map_of_mem he)
      rwa [hself, hkeys e (List.mem_append_right _ he)] at this
  refine ⟨m', tree', T', hcode, hok, ?_, fun e he => ?_⟩
  · rw [hT', hput, List.map_append, List.map_cons]
  · rw [hkey]
    rw [hput, List.mem_append, List.mem_cons] at he
    rcases he with he | rfl | he
    · exact hkeys e (List.mem_append_left _ he)
    · exact hself
    · exact hkeys e (List.mem_append_right _ he)

/-- **A deletion** takes out the entry. -/
theorem rbtreeDelete_entries {l : List (P × Int)} {p : P} (h : RbOk m tree s T) (hl : Entries m T l)
    (hp : p ∈ T.toList) (fuel : Nat) (hfuel : T.toList.length < fuel) :
    ∃ m' tree' T', rbtreeDelete fuel m tree p = .ok (m', tree') ∧ RbOk m' tree' s T' ∧
      Entries m' T' (Prio.drop l p) := by
  obtain ⟨m', tree', T', A, B, hcode, hok, hT, hT', hkey, -⟩ := rbtreeDelete_spec h hp fuel hfuel
  obtain ⟨A', B', rfl, rfl, hB⟩ := hl.split hT
  obtain ⟨e, B', rfl, rfl, rfl⟩ := List.map_eq_cons_iff.mp hB
  have hnd := h.nodup
  rw [hl.nodes] at hnd
  have hdrop := Prio.drop_eq hnd
  refine ⟨m', tree', T', hcode, hok, ?_, fun x hx => ?_⟩
  · rw [hT', hdrop, List.map_append]
  · rw [hdrop] at hx
    have hxe : x.1 ≠ e.1 := by
      intro he
      rw [List.map_append, List.map_cons, List.nodup_middle, List.nodup_cons, ← List.map_append]
        at hnd
      exact hnd.1 (he ▸ List.mem_map_of_mem hx)
    rw [hkey, Function.update_of_ne hxe]
    refine hl.keys x ?_
    rw [List.mem_append, List.mem_cons]
    rw [List.mem_append] at hx
    exact hx.imp_right Or.inr

/-! ## 2. Whole histories -/

/-- One legal operation does to the entries what its event does to the queue. -/
theorem TreeOp.apply_lists {live : Finset P} {evs : List (Prio.Ev P Int)} {l : List (P × Int)}
    (h : RbOk m tree s T) (hmem : ∀ p, p ∈ T.toList ↔ p ∈ live) (hlog : Prio.Log evs l)
    (hl : Entries m T l) {o : TreeOp P D} (ho : o.Legal s live) {fuel : Nat}
    (hfuel : T.toList.length < fuel) :
    ∃ m' tree' T' l', o.apply fuel (m, tree) = .ok (m', tree') ∧ RbOk m' tree' s T' ∧
      Prio.Log (evs ++ [o.ev]) l' ∧ Entries m' T' l' ∧ ∀ p, p ∈ T'.toList ↔ p ∈ o.after live := by
  cases o with
  | insert p f =>
    have hp : p ∉ T.toList := fun hm => ho.1 ((hmem p).mp hm)
    have hout : ∀ e ∈ l, e.1 ≠ p := by
      rintro e he rfl
      exact hp (hl.nodes ▸ List.mem_map_of_mem he)
    obtain ⟨m', tree', T', hcode, hok, hl'⟩ := rbtreeInsert_entries h hl hp ho.2 f fuel hfuel
    refine ⟨m', tree', T', _, hcode, hok, hlog.put hout, hl', fun q => ?_⟩
    rw [hl'.nodes, Prio.mem_put, ← hl.nodes, hmem, TreeOp.after, Finset.mem_union,
      Finset.mem_singleton]
  | delete p =>
    obtain ⟨m', tree', T', hcode, hok, hl'⟩ :=
      rbtreeDelete_entries h hl ((hmem p).mpr ho) fuel hfuel
    refine ⟨m', tree', T', _, hcode, hok, hlog.drop, hl', fun q => ?_⟩
    rw [hl'.nodes, Prio.mem_drop, ← hl.nodes, hmem, TreeOp.after, Finset.mem_erase]

/-- **After every legal history** the memory holds a valid tree of the entries of the queue. -/
theorem TreeRun.lists {ops : List (TreeOp P D)} {x : Except Fault (Mem P D × Rbtree P)}
    {live : Finset P} (h : TreeRun m s ops x live) :
    ∃ m' tree' T l, x = .ok (m', tree') ∧ RbOk m' tree' s T ∧
      Prio.Log (ops.map TreeOp.ev) l ∧ Entries m' T l ∧ ∀ p, p ∈ T.toList ↔ p ∈ live := by
  induction h with
  | nil =>
    exact ⟨_, _, .nil, [], rfl, rbtreeInit_spec m s, .nil, ⟨rfl, by simp⟩, by simp⟩
  | @snoc ops x live o fuel run legal enough ih =>
    obtain ⟨m', tree', T, l, rfl, hok, hlog, hl, hmem⟩ := ih
    have hlen : T.toList.length < fuel := by
      have hcard : T.toList.toFinset = live := by
        ext p
        rw [List.mem_toFinset, hmem]
      rwa [← List.toFinset_card_of_nodup hok.nodup, hcard]
    rw [List.map_append, List.map_singleton]
    obtain ⟨m'', tree'', T', l', hcode, hrest⟩ :=
      TreeOp.apply_lists hok hmem hlog hl legal hlen
    exact ⟨m'', tree'', T', l', hcode, hrest⟩

/-- **`rbtree_min`** on a valid tree returns its first node. -/
theorem rbtreeMin_spec (h : RbOk m tree s T) (fuel : Nat) (hfuel : T.toList.length ≤ fuel) :
    rbtreeMin fuel m tree = .ok T.toList.head? := by
  rw [rbtreeMin, h.root, h.sentinel]
  by_cases hT : T = .nil
  · subst hT
    exact if_pos rfl
  · have hroot : some (ptr s T) ≠ some s := by
      intro he
      exact h.fresh (Option.some.inj he ▸ ptr_mem hT)
    obtain ⟨c, y, r, spine, hcode, hplug, hbefore⟩ := rbtreeNodeMin_spec h.zip hT fuel hfuel
    rw [if_neg hroot, hcode, hplug, toList_plug, hbefore]
    rfl

/-- **The tree serves the entries `l` of the history `ops`.** -/
structure Serves (m : Mem P D) (tree : Rbtree P) (s : P) (ops : List (TreeOp P D))
    (l : List (P × Int)) : Prop where
  /-- The nodes from left to right. -/
  inorder : Inorder m s tree.root (l.map Prod.fst)
  entries : ∀ p k, (p, k) ∈ l ↔ contents ops p = some k
  keys : ∀ e ∈ l, m.key e.1 = e.2
  ordered : l.Pairwise (Prio.Before (ops.map TreeOp.ev))
  min : ∀ fuel, l.length ≤ fuel → rbtreeMin fuel m tree = .ok (l.head?.map Prod.fst)

/-- **The tree is a queue ordered by key.**  After every legal history the nodes from left to right
are those inserted and not deleted, by key and, where keys are equal, in the order they were
inserted; and `rbtree_min` returns the first of them, or null if there is none. -/
theorem tree_serves_in_order {ops : List (TreeOp P D)} {x : Except Fault (Mem P D × Rbtree P)}
    {live : Finset P} (h : TreeRun m s ops x live) :
    ∃ m' tree' l, x = .ok (m', tree') ∧ Serves m' tree' s ops l := by
  obtain ⟨m', tree', T, l, rfl, hok, hlog, hl, hmem⟩ := h.lists
  obtain ⟨m'', tree'', T'', heq, -, hmem'', hin⟩ := h.contents
  obtain ⟨rfl, rfl⟩ := Prod.mk.inj (Except.ok.inj heq)
  refine ⟨m', tree', l, rfl, ?_, fun p k => ?_, hl.keys, hlog.ordered, fun fuel hfuel => ?_⟩
  · rw [hok.root, ← hl.nodes]
    exact holds_inorder hok.zip.tree hok.fresh
  · rw [hin, hmem'', ← hmem, hl.nodes]
    constructor
    · intro he
      exact ⟨List.mem_map_of_mem he, hl.keys (p, k) he⟩
    · rintro ⟨hp, hk⟩
      obtain ⟨e, he, rfl⟩ := List.mem_map.mp hp
      rwa [← hk, hl.keys e he]
  · have hlen : T.toList.length ≤ fuel := by rwa [hl.nodes, List.length_map]
    rw [rbtreeMin_spec hok fuel hlen, hl.nodes, List.head?_map]

/-- Two nodes with equal keys. -/
theorem tree_serves_equal :
    ∃ m tree l, ((Except.ok (rbtreeInit (⟨fun _ _ => none, fun _ => none, fun _ => 0,
        fun _ => none, fun _ => true⟩ : Mem Nat Unit) 0) >>= fun y =>
        (TreeOp.insert 7 ⟨fun _ => none, none, 5, none, true⟩).apply 1 y) >>= fun y =>
        (TreeOp.insert 2 ⟨fun _ => none, none, 5, none, true⟩).apply 2 y) = .ok (m, tree) ∧
      Serves m tree 0 [TreeOp.insert 7 ⟨fun _ => none, none, 5, (none : Option Unit), true⟩,
        .insert 2 ⟨fun _ => none, none, 5, none, true⟩] l := by
  have hrun := ((TreeRun.nil (m := ⟨fun _ _ => none, fun _ => none, fun _ => 0, fun _ => none,
      fun _ => true⟩) (s := 0) (P := Nat) (D := Unit)).snoc
    (o := .insert 7 ⟨fun _ => none, none, 5, none, true⟩) (by simp [TreeOp.Legal])
    (show _ < 1 by decide)).snoc (o := .insert 2 ⟨fun _ => none, none, 5, none, true⟩)
    (by simp [TreeOp.Legal, TreeOp.after]) (show _ < 2 by decide)
  exact tree_serves_in_order hrun

end Corosched
