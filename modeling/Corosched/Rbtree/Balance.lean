/-
# The tree over whole histories

Any sequence of insertions of fresh nodes, with whatever keys, and of deletions leaves a balanced
search tree in memory.  `Balanced` says so about the links, colours and keys themselves; a lookup
then sees at most one node per level and the sentinel.
-/
import Corosched.Rbtree.Lookup
import Mathlib.Data.Finset.Card

namespace Corosched

open RbZip

variable {P D : Type}

/-! ## 1. Operations -/

/-- The contents of a node: the caller of `rbtree_insert` has chosen the key and the data, the
rest is what happens to be there. -/
structure NodeFields (P D : Type) where
  child : Dir → Option P
  parent : Option P
  key : Int
  data : Option D
  red : Bool

/-- The fields of a node are overwritten. -/
def setNode [DecidableEq P] (m : Mem P D) (p : P) (f : NodeFields P D) : Mem P D :=
  { child := fun d q => if q = p then f.child d else m.child d q
    parent := Function.update m.parent p f.parent
    key := Function.update m.key p f.key
    data := Function.update m.data p f.data
    red := Function.update m.red p f.red }

/-- One operation on the tree. -/
inductive TreeOp (P D : Type)
  /-- `rbtree_insert` of the node `p` with these contents -/
  | insert (p : P) (f : NodeFields P D)
  /-- `rbtree_delete` of the node `p` -/
  | delete (p : P)

section Ops

variable [DecidableEq P]

/-- The tree after one operation. -/
def TreeOp.apply (fuel : Nat) (x : Mem P D × Rbtree P) :
    TreeOp P D → Except Fault (Mem P D × Rbtree P)
  | .insert p f => rbtreeInsert fuel (setNode x.1 p f) x.2 p
  | .delete p => rbtreeDelete fuel x.1 x.2 p

/-- The nodes of the tree after one operation. -/
def TreeOp.after (live : Finset P) : TreeOp P D → Finset P
  | .insert p _ => {p} ∪ live
  | .delete p => live.erase p

/-- The keys in memory after one operation: `rbtree_delete` ends in `rbtree_node_init`. -/
def TreeOp.keyAfter (key : P → Int) : TreeOp P D → P → Int
  | .insert p f => Function.update key p f.key
  | .delete p => Function.update key p 0

/-- An insertion is of a node that is not in the tree, a deletion of one that is. -/
def TreeOp.Legal (s : P) (live : Finset P) : TreeOp P D → Prop
  | .insert p _ => p ∉ live ∧ p ≠ s
  | .delete p => p ∈ live

/-- `TreeRun m s ops x live`: from `rbtree_init` with the sentinel `s` on memory `m`, the
operations `ops` were legal where they were made and led to `x`, with the nodes `live` in the
tree.  The budget of each operation is any number above the number of nodes. -/
inductive TreeRun (m : Mem P D) (s : P) :
    List (TreeOp P D) → Except Fault (Mem P D × Rbtree P) → Finset P → Prop
  | nil : TreeRun m s [] (.ok (rbtreeInit m s)) ∅
  | snoc {ops : List (TreeOp P D)} {x : Except Fault (Mem P D × Rbtree P)} {live : Finset P}
      {o : TreeOp P D} {fuel : Nat} (run : TreeRun m s ops x live) (legal : o.Legal s live)
      (enough : live.card < fuel) :
      TreeRun m s (ops ++ [o]) (x >>= fun y => o.apply fuel y) (o.after live)

end Ops

/-! ## 2. What the memory holds -/

/-- The nodes reached from a pointer without passing the sentinel, from left to right. -/
inductive Inorder (m : Mem P D) (s : P) : Option P → List P → Prop
  | sentinel : Inorder m s (some s) []
  | node {p : P} {A B : List P} (hp : p ≠ s) (left : Inorder m s (m.child .left p) A)
      (right : Inorder m s (m.child .right p) B) : Inorder m s (some p) (A ++ p :: B)

/-- A path from a pointer down to the sentinel has `n` black nodes. -/
inductive BlackPath (m : Mem P D) (s : P) : Option P → Nat → Prop
  | sentinel : BlackPath m s (some s) 0
  | red {p : P} {n : Nat} (d : Dir) (hp : p ≠ s) (hred : m.red p = true)
      (path : BlackPath m s (m.child d p) n) : BlackPath m s (some p) n
  | black {p : P} {n : Nat} (d : Dir) (hp : p ≠ s) (hred : m.red p = false)
      (path : BlackPath m s (m.child d p) n) : BlackPath m s (some p) (n + 1)

/-- `rbtree_lookup`, with the number of nodes it examines. -/
def rbtreeLookupCount (m : Mem P D) (key : Int) : Nat → Option P → Except Fault (Option P × Nat)
  | 0, _ => throw .diverge
  | n + 1, node =>
    match node with
    | none => pure (none, 0)
    | some p =>
      if m.key p = key then pure (some p, 1)
      else do
        let (r, k) ← rbtreeLookupCount m key n (m.child (if m.key p > key then .left else .right) p)
        pure (r, k + 1)

/-- **A balanced search tree in memory**, with the nodes `live`. -/
structure Balanced (m : Mem P D) (tree : Rbtree P) (s : P) (live : Finset P) : Prop where
  inorder : ∃ l, Inorder m s tree.root l ∧ l.Nodup ∧ (∀ p, p ∈ l ↔ p ∈ live) ∧
    l.Pairwise fun p q => m.key p ≤ m.key q
  root_black : ∃ p, tree.root = some p ∧ m.red p = false
  sentinel_black : m.red s = false
  sentinel_child : ∀ d, m.child d s = none
  red_child : ∀ p ∈ live, m.red p = true → ∀ d q, m.child d p = some q → m.red q = false
  black_height : ∃ n, ∀ k, BlackPath m s tree.root k → k = n
  parent : ∀ p ∈ live, ∀ d q, m.child d p = some q → q ≠ s → m.parent q = some p
  lookup : ∀ key fuel, 2 * Nat.log2 (live.card + 1) + 1 < fuel → ∃ r k,
    rbtreeLookup fuel m tree key = .ok r ∧
      rbtreeLookupCount m key fuel tree.root = .ok (r, k) ∧
      k ≤ 2 * Nat.log2 (live.card + 1) + 1

/-! ## 3. From the tree to the memory -/

variable {m m' : Mem P D} {s p : P} {t : RbTree P} {n : Nat}

theorem holds_inorder (h : Holds m s t) (hs : s ∉ t.toList) :
    Inorder m s (some (ptr s t)) t.toList := by
  induction t with
  | nil => exact .sentinel
  | node c l p r ihl ihr =>
    obtain ⟨-, hl, hr, -, -, hlh, hrh⟩ := h
    simp only [RbTree.toList, List.mem_append, List.mem_cons, not_or] at hs
    refine .node (Ne.symm hs.2.1) ?_ ?_
    · exact hl ▸ ihl hlh hs.1
    · exact hr ▸ ihr hrh hs.2.2

/-- **All paths have the black height.** -/
theorem holds_blackPath (h : Holds m s t) (hs : s ∉ t.toList) (hrb : RB t n) {k : Nat}
    (hk : BlackPath m s (some (ptr s t)) k) : k = n := by
  induction t generalizing n k with
  | nil =>
    rw [RB_nil] at hrb
    cases hk with
    | sentinel => exact hrb.symm
    | red _ hp => exact absurd rfl hp
    | black _ hp => exact absurd rfl hp
  | node c l p r ihl ihr =>
    obtain ⟨hc, hl, hr, -, -, hlh, hrh⟩ := h
    simp only [RbTree.toList, List.mem_append, List.mem_cons, not_or] at hs
    have hside : ∀ {d n' k'}, RB l n' → RB r n' → BlackPath m s (m.child d p) k' → k' = n' := by
      intro d n' k' hbl hbr hpath
      cases d with
      | left => exact ihl hlh hs.1 hbl (hl ▸ hpath)
      | right => exact ihr hrh hs.2.2 hbr (hr ▸ hpath)
    generalize he : some (ptr s (.node c l p r)) = q at hk
    cases hk with
    | sentinel => exact absurd (Option.some.inj he) (Ne.symm hs.2.1)
    | red d hp hred path =>
      obtain rfl := Option.some.inj he
      have hc' : c = true := hc.symm.trans hred
      subst hc'
      exact hside hrb.2.2.1 hrb.2.2.2 path
    | black d hp hred path =>
      obtain rfl := Option.some.inj he
      have hc' : c = false := hc.symm.trans hred
      subst hc'
      obtain ⟨n', rfl, hbl, hbr⟩ := hrb
      rw [hside hbl hbr path]

/-- The count goes with the lookup. -/
theorem rbtreeLookupCount_fst (m : Mem P D) (key : Int) (fuel : Nat) (node : Option P) :
    (rbtreeLookupCount m key fuel node).map Prod.fst = rbtreeLookupFrom m key fuel node := by
  induction fuel generalizing node with
  | zero => rfl
  | succ fuel ih =>
    cases node with
    | none => rfl
    | some p =>
      rw [rbtreeLookupCount, rbtreeLookupFrom]
      split
      · rfl
      · split
        all_goals
          rw [← ih]
          cases rbtreeLookupCount m key fuel _ <;> rfl

/-- **A lookup examines one node per level and the sentinel.** -/
theorem rbtreeLookupCount_le (h : Holds m s t) (hsc : ∀ d, m.child d s = none) (key : Int)
    (fuel : Nat) (hfuel : t.height + 2 ≤ fuel) :
    ∃ r k, rbtreeLookupCount m key fuel (some (ptr s t)) = .ok (r, k) ∧ k ≤ t.height + 1 := by
  induction t generalizing fuel with
  | nil =>
    obtain ⟨fuel, rfl⟩ : ∃ n, fuel = n + 2 :=
      ⟨fuel - 2, by simp only [RbTree.height] at hfuel; omega⟩
    by_cases hk : m.key s = key
    · exact ⟨some s, 1, by simp [rbtreeLookupCount, hk], by simp [RbTree.height]⟩
    · exact ⟨none, 1, by simp [rbtreeLookupCount, hk, hsc], by simp [RbTree.height]⟩
  | node c l p r ihl ihr =>
    simp only [RbTree.height] at hfuel ⊢
    obtain ⟨fuel, rfl⟩ : ∃ n, fuel = n + 1 := ⟨fuel - 1, by omega⟩
    obtain ⟨-, hl, hr, -, -, hlh, hrh⟩ := h
    by_cases hk : m.key p = key
    · exact ⟨some p, 1, by simp [rbtreeLookupCount, hk], by omega⟩
    · by_cases hgt : m.key p > key
      · obtain ⟨res, k, hcode, hle⟩ := ihl hlh fuel (by omega)
        exact ⟨res, k + 1, by simp [rbtreeLookupCount, hk, hgt, hl, hcode], by omega⟩
      · obtain ⟨res, k, hcode, hle⟩ := ihr hrh fuel (by omega)
        exact ⟨res, k + 1, by simp [rbtreeLookupCount, hk, hgt, hr, hcode], by omega⟩

section Runs

variable [DecidableEq P] {tree : Rbtree P} {T : RbTree P} {live : Finset P}

/-- **What a valid tree says about the memory.** -/
theorem RbOk.balanced (h : RbOk m tree s T) (hmem : ∀ p, p ∈ T.toList ↔ p ∈ live) :
    Balanced m tree s live := by
  have hcard : T.toList.length = live.card := by
    rw [← List.toFinset_card_of_nodup h.nodup]
    congr 1
    ext p
    rw [List.mem_toFinset, hmem]
  -- the focus on a node of the tree
  have hnode : ∀ p ∈ live, ∃ c l r k n, Zip m s (ptr s T) (.node c l p r) k ∧
      RB (.node c l p r) n := by
    intro p hp
    obtain ⟨c, l, r, k, hT⟩ := exists_plug ((hmem p).mpr hp)
    obtain ⟨N, hN⟩ := h.valid.fits
    obtain ⟨n, hn, -⟩ := Fits.refocus (hT ▸ hN)
    have hz := h.zip
    rw [hT] at hz ⊢
    exact ⟨c, l, r, k, n, zip_plug_iff.mp hz, hn⟩
  obtain ⟨hred, n, hn⟩ := h.valid
  refine ⟨⟨T.toList, ?_, h.nodup, hmem, h.sorted⟩, ⟨ptr s T, h.root, ?_⟩, h.zip.sent_red,
    h.zip.sent_child, ?_, ⟨n, fun k hk => ?_⟩, ?_, fun key fuel hfuel => ?_⟩
  · exact h.root ▸ holds_inorder h.zip.tree h.fresh
  · exact h.zip.red_ptr.trans hred
  · intro p hp hpr d q hq
    obtain ⟨c, l, r, k, n', hz, hrb⟩ := hnode p hp
    have hc : c = true := hz.tree.1.symm.trans hpr
    subst hc
    obtain ⟨-, hl, hr, -, -, -, -⟩ := hz.tree
    cases d with
    | left =>
      obtain rfl := Option.some.inj (hl.symm.trans hq)
      exact (zip_join_iff (d := .left).mp hz).red_ptr.trans hrb.1
    | right =>
      obtain rfl := Option.some.inj (hr.symm.trans hq)
      exact (zip_join_iff (d := .right).mp hz).red_ptr.trans hrb.2.1
  · exact holds_blackPath h.zip.tree h.fresh hn (h.root ▸ hk)
  · intro p hp d q hq hqs
    obtain ⟨c, l, r, k, n', hz, -⟩ := hnode p hp
    obtain ⟨-, hl, hr, hul, hur, -, -⟩ := hz.tree
    cases d with
    | left =>
      obtain rfl := Option.some.inj (hl.symm.trans hq)
      cases l with
      | nil => exact absurd rfl hqs
      | node => exact hul
    | right =>
      obtain rfl := Option.some.inj (hr.symm.trans hq)
      cases r with
      | nil => exact absurd rfl hqs
      | node => exact hur
  · have hheight := h.valid.height_le
    rw [hcard] at hheight
    obtain ⟨r, k, hcode, hle⟩ :=
      rbtreeLookupCount_le h.zip.tree h.zip.sent_child key fuel (by omega)
    rw [← h.root] at hcode
    refine ⟨r, k, ?_, hcode, by omega⟩
    rw [rbtreeLookup, ← rbtreeLookupCount_fst, hcode]
    rfl

/-- Writing to a node outside the tree does not touch the tree. -/
theorem RbOk.setNode (h : RbOk m tree s T) (hp : p ∉ T.toList) (hps : p ≠ s)
    (f : NodeFields P D) : RbOk (setNode m p f) tree s T := by
  have hne : ∀ q ∈ T.toList, q ≠ p := by
    rintro q hq rfl
    exact hp hq
  have hz := h.zip
  refine ⟨h.sentinel, h.root, ⟨?_, trivial, ?_, hz.root_eq, hz.nodup, hz.fresh, fun d => ?_, ?_⟩,
    h.valid, h.sorted.imp_of_mem fun hq hr hle => ?_, ?_, ?_⟩
  · refine hz.tree.congr (fun q hq d => if_neg (hne q hq)) (fun q hq => ?_) fun q hq => ?_
    · exact Function.update_of_ne (hne q hq) _ _
    · exact Function.update_of_ne (hne q (mem_of_mem_inner hq)) _ _
  · cases T <;> trivial
  · exact (if_neg hps.symm).trans (hz.sent_child d)
  · exact (Function.update_of_ne hps.symm _ _).trans hz.sent_red
  · simpa only [Corosched.setNode, Function.update_of_ne (hne _ hq),
      Function.update_of_ne (hne _ hr)] using hle
  · exact (Function.update_of_ne hps.symm _ _).trans h.sent_key
  · exact (Function.update_of_ne hps.symm _ _).trans h.sent_data

/-- One legal operation ends without a fault and leaves a valid tree of the right nodes. -/
theorem TreeOp.apply_spec (h : RbOk m tree s T) (hmem : ∀ p, p ∈ T.toList ↔ p ∈ live)
    {o : TreeOp P D} (ho : o.Legal s live) {fuel : Nat} (hfuel : live.card < fuel) :
    ∃ m' tree' T', o.apply fuel (m, tree) = .ok (m', tree') ∧ RbOk m' tree' s T' ∧
      (∀ p, p ∈ T'.toList ↔ p ∈ o.after live) ∧ m'.key = o.keyAfter m.key := by
  have hlen : T.toList.length < fuel := by
    have hcard : T.toList.toFinset = live := by
      ext p
      rw [List.mem_toFinset, hmem]
    rw [← List.toFinset_card_of_nodup h.nodup, hcard]
    exact hfuel
  cases o with
  | insert p f =>
    have hp : p ∉ T.toList := fun hm => ho.1 ((hmem p).mp hm)
    obtain ⟨m', tree', T', A, B, hcode, hok, hT, hT', hkey, -⟩ :=
      rbtreeInsert_spec (h.setNode hp ho.2 f) hp ho.2 fuel hlen
    refine ⟨m', tree', T', hcode, hok, fun q => ?_, hkey⟩
    rw [TreeOp.after, Finset.mem_union, Finset.mem_singleton, ← hmem, hT', hT]
    simp only [List.mem_append, List.mem_cons]
    tauto
  | delete p =>
    obtain ⟨m', tree', T', A, B, hcode, hok, hT, hT', hkey, -⟩ :=
      rbtreeDelete_spec h ((hmem p).mpr ho) fuel hlen
    refine ⟨m', tree', T', hcode, hok, fun q => ?_, hkey⟩
    have hnd := h.nodup
    rw [hT, List.nodup_middle, List.nodup_cons] at hnd
    rw [TreeOp.after, Finset.mem_erase, ← hmem, hT', hT]
    simp only [List.mem_append, List.mem_cons] at hnd ⊢
    constructor
    · intro hq
      refine ⟨?_, by tauto⟩
      rintro rfl
      exact hnd.1 hq
    · tauto

theorem TreeRun.rbOk {ops : List (TreeOp P D)} {x : Except Fault (Mem P D × Rbtree P)}
    (h : TreeRun m s ops x live) : ∃ m' tree' T, x = .ok (m', tree') ∧ RbOk m' tree' s T ∧
      ∀ p, p ∈ T.toList ↔ p ∈ live := by
  induction h with
  | nil => exact ⟨_, _, .nil, rfl, rbtreeInit_spec m s, by simp⟩
  | snoc _ legal enough ih =>
    obtain ⟨m', tree', T, rfl, hok, hmem⟩ := ih
    obtain ⟨m', tree', T, hcode, hok, hmem, -⟩ := TreeOp.apply_spec hok hmem legal enough
    exact ⟨m', tree', T, hcode, hok, hmem⟩

/-- **The tree stays balanced.**  After every legal history no operation has failed or run on, and
the memory holds a balanced search tree of the nodes inserted and not deleted. -/
theorem tree_balanced {ops : List (TreeOp P D)} {x : Except Fault (Mem P D × Rbtree P)}
    (h : TreeRun m s ops x live) :
    ∃ m' tree', x = .ok (m', tree') ∧ s ∉ live ∧ Balanced m' tree' s live := by
  obtain ⟨m', tree', T, rfl, hok, hmem⟩ := h.rbOk
  exact ⟨m', tree', rfl, fun hs => hok.fresh ((hmem s).mpr hs), hok.balanced hmem⟩

end Runs

/-- Two nodes with equal keys inserted and the first deleted. -/
theorem tree_balanced_equal :
    ∃ m tree, (((Except.ok (rbtreeInit (⟨fun _ _ => none, fun _ => none, fun _ => 0, fun _ => none,
        fun _ => true⟩ : Mem Nat Unit) 0) >>= fun y =>
        (TreeOp.insert 1 ⟨fun _ => none, none, 5, none, true⟩).apply 1 y) >>= fun y =>
        (TreeOp.insert 2 ⟨fun _ => some 1, some 7, 5, none, false⟩).apply 2 y) >>= fun y =>
        (TreeOp.delete 1).apply 3 y) = .ok (m, tree) ∧ 0 ∉ ({2} : Finset Nat) ∧
      Balanced m tree 0 {2} := by
  have hrun := ((TreeRun.nil (m := ⟨fun _ _ => none, fun _ => none, fun _ => 0, fun _ => none,
      fun _ => true⟩) (s := 0) (P := Nat) (D := Unit)).snoc
    (o := .insert 1 ⟨fun _ => none, none, 5, none, true⟩) (by simp [TreeOp.Legal])
    (show _ < 1 by decide)).snoc (o := .insert 2 ⟨fun _ => some 1, some 7, 5, none, false⟩)
    (by simp [TreeOp.Legal, TreeOp.after]) (show _ < 2 by decide) |>.snoc (o := .delete 1)
    (by simp [TreeOp.Legal, TreeOp.after]) (show _ < 3 by decide)
  exact tree_balanced hrun

end Corosched
