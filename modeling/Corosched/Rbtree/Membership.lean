/-
# `rbtree_lookup` over whole histories

A history of insertions and deletions fixes, without a tree, which nodes are in the tree and under
which key: the map `contents`.  `Agrees` says that a lookup answers from that map.  It does for
every key but one: the loop of `rbtree_lookup` ends on null and not on the sentinel, so a lookup of
`0` that finds no node returns the sentinel.
-/
import Corosched.Rbtree.Balance

namespace Corosched

open RbZip

variable {P D : Type} {m : Mem P D} {s : P}

/-! ## 1. What a history puts in the tree -/

section Contents

variable [DecidableEq P]

/-- The keys of the nodes in the tree after one more operation. -/
def TreeOp.track (keys : P → Option Int) : TreeOp P D → P → Option Int
  | .insert p f => Function.update keys p (some f.key)
  | .delete p => Function.update keys p none

/-- The nodes inserted and not deleted, with the keys they were inserted with. -/
def contents (ops : List (TreeOp P D)) : P → Option Int :=
  ops.foldl TreeOp.track fun _ => none

theorem contents_concat (ops : List (TreeOp P D)) (o : TreeOp P D) :
    contents (ops ++ [o]) = o.track (contents ops) := by
  simp [contents]

/-- One operation keeps the map and the memory in step. -/
theorem TreeOp.track_iff {live : Finset P} {key : P → Int} {keys : P → Option Int}
    (h : ∀ p k, keys p = some k ↔ p ∈ live ∧ key p = k) (o : TreeOp P D) (p : P) (k : Int) :
    o.track keys p = some k ↔ p ∈ o.after live ∧ o.keyAfter key p = k := by
  cases o with
  | insert q f =>
    by_cases hp : p = q
    · subst hp
      simp [TreeOp.track, TreeOp.after, TreeOp.keyAfter]
    · simp [TreeOp.track, TreeOp.after, TreeOp.keyAfter, hp, h]
  | delete q =>
    by_cases hp : p = q
    · subst hp
      simp [TreeOp.track, TreeOp.after]
    · simp [TreeOp.track, TreeOp.after, TreeOp.keyAfter, hp, h]

/-- **The memory holds the contents**: after every legal history there is a valid tree of just
these nodes, each with its key. -/
theorem TreeRun.contents {ops : List (TreeOp P D)} {x : Except Fault (Mem P D × Rbtree P)}
    {live : Finset P} (h : TreeRun m s ops x live) :
    ∃ m' tree' T, x = .ok (m', tree') ∧ RbOk m' tree' s T ∧ (∀ p, p ∈ T.toList ↔ p ∈ live) ∧
      ∀ p k, Corosched.contents ops p = some k ↔ p ∈ T.toList ∧ m'.key p = k := by
  induction h with
  | nil =>
    refine ⟨_, _, .nil, rfl, rbtreeInit_spec m s, by simp, ?_⟩
    simp [Corosched.contents, RbTree.toList]
  | @snoc ops x live o fuel run legal enough ih =>
    obtain ⟨m', tree', T, rfl, hok, hmem, hkeys⟩ := ih
    obtain ⟨m'', tree'', T', hcode, hok', hmem', hkey⟩ := TreeOp.apply_spec hok hmem legal enough
    refine ⟨m'', tree'', T', hcode, hok', hmem', fun p k => ?_⟩
    have hlive : ∀ p k, Corosched.contents ops p = some k ↔ p ∈ live ∧ m'.key p = k := by
      intro p k
      rw [hkeys, hmem]
    rw [contents_concat, hkey, hmem']
    exact TreeOp.track_iff hlive o p k

end Contents

/-! ## 2. What a lookup returns -/

/-- A lookup that has ended ends the same with a larger budget. -/
theorem rbtreeLookupFrom_mono {key : Int} {fuel fuel' : Nat} {node r : Option P}
    (h : rbtreeLookupFrom m key fuel node = .ok r) (hle : fuel ≤ fuel') :
    rbtreeLookupFrom m key fuel' node = .ok r := by
  induction fuel generalizing fuel' node with
  | zero => cases h
  | succ fuel ih =>
    obtain ⟨fuel', rfl⟩ : ∃ n, fuel' = n + 1 := ⟨fuel' - 1, by omega⟩
    cases node with
    | none => exact h
    | some p =>
      rw [rbtreeLookupFrom] at h ⊢
      split_ifs at h ⊢ with heq hgt
      · exact h
      · exact ih h (by omega)
      · exact ih h (by omega)

/-- The lookup ends with `r`, whatever budget above some number it has. -/
def LooksUp (m : Mem P D) (tree : Rbtree P) (key : Int) (r : Option P) : Prop :=
  ∃ n, ∀ fuel, n ≤ fuel → rbtreeLookup fuel m tree key = .ok r

theorem LooksUp.unique {tree : Rbtree P} {key : Int} {r r' : Option P}
    (h : LooksUp m tree key r) (h' : LooksUp m tree key r') : r = r' := by
  obtain ⟨n, hn⟩ := h
  obtain ⟨n', hn'⟩ := h'
  have := (hn (n + n') (by omega)).symm.trans (hn' (n + n') (by omega))
  exact Except.ok.inj this

/-- On a valid tree every lookup ends. -/
theorem RbOk.looksUp {tree : Rbtree P} {T : RbTree P} (h : RbOk m tree s T) (key : Int) :
    ∃ r, LooksUp m tree key r ∧ Found m s T key r := by
  obtain ⟨r, hcode, hfound⟩ := rbtreeLookup_spec h key (T.height + 2) le_rfl
  exact ⟨r, ⟨T.height + 2, fun fuel hle => rbtreeLookupFrom_mono hcode hle⟩, hfound⟩

/-! ## 3. Lookup against the contents -/

/-- **A lookup of `key` answers from the map `keys`**: it ends, and returns a node under that key
if there is one, null if there is none, and the sentinel never. -/
def Agrees (m : Mem P D) (tree : Rbtree P) (s : P) (keys : P → Option Int) (key : Int) : Prop :=
  ∃ r, LooksUp m tree key r ∧ r ≠ some s ∧
    match r with
    | some p => keys p = some key
    | none => ∀ p, keys p ≠ some key

/-- **`rbtree_lookup` against membership.**  After every legal history a lookup of `key` answers
from the contents exactly if `key` is not `0` or some node in the tree has key `0`. -/
theorem lookup_agrees [DecidableEq P] {ops : List (TreeOp P D)}
    {x : Except Fault (Mem P D × Rbtree P)} {live : Finset P} (h : TreeRun m s ops x live)
    (key : Int) :
    ∃ m' tree', x = .ok (m', tree') ∧
      (Agrees m' tree' s (contents ops) key ↔ key ≠ 0 ∨ ∃ p, contents ops p = some 0) := by
  obtain ⟨m', tree', T, rfl, hok, -, hin⟩ := h.contents
  refine ⟨m', tree', rfl, ?_⟩
  obtain ⟨r, hlook, hfound⟩ := hok.looksUp key
  cases hfound with
  | @node p mem eq =>
    constructor
    · intro _
      by_cases hk : key = 0
      · exact Or.inr ⟨p, (hin p 0).mpr ⟨mem, eq.trans hk⟩⟩
      · exact Or.inl hk
    · intro _
      refine ⟨some p, hlook, ?_, (hin p key).mpr ⟨mem, eq⟩⟩
      rintro ⟨⟩
      exact hok.fresh mem
  | sentinel absent zero =>
    subst zero
    constructor
    · rintro ⟨r, hr, hne, -⟩
      exact absurd (hr.unique hlook) hne
    · rintro (hk | ⟨p, hp⟩)
      · exact absurd rfl hk
      · obtain ⟨hp, hk⟩ := (hin p 0).mp hp
        exact absurd hk (absent p hp)
  | absent absent ne =>
    constructor
    · intro _
      exact Or.inl ne
    · intro _
      refine ⟨none, hlook, by simp, fun p hp => ?_⟩
      obtain ⟨hp, hk⟩ := (hin p key).mp hp
      exact absent p hp hk

/-- Key `0` looked up where a node carries it. -/
theorem lookup_agrees_zero :
    ∃ m tree, (Except.ok (rbtreeInit (⟨fun _ _ => none, fun _ => none, fun _ => 0, fun _ => none,
        fun _ => true⟩ : Mem Nat Unit) 0) >>= fun y =>
        (TreeOp.insert 1 ⟨fun _ => none, none, 0, none, true⟩).apply 1 y) = .ok (m, tree) ∧
      (Agrees m tree 0 (contents [TreeOp.insert 1 ⟨fun _ => none, none, 0, (none : Option Unit),
        true⟩]) 0 ↔ (0 : Int) ≠ 0 ∨ ∃ p, contents [TreeOp.insert 1 ⟨fun _ => none, none, 0,
        (none : Option Unit), true⟩] p = some 0) := by
  have hrun := (TreeRun.nil (m := ⟨fun _ _ => none, fun _ => none, fun _ => 0, fun _ => none,
      fun _ => true⟩) (s := 0) (P := Nat) (D := Unit)).snoc
    (o := .insert 1 ⟨fun _ => none, none, 0, none, true⟩) (by simp [TreeOp.Legal])
    (show _ < 1 by decide)
  exact lookup_agrees hrun 0

/-- One node with key `5`, and the lookup of `0` goes left to the sentinel. -/
theorem lookup_finds_sentinel :
    ∃ m tree, TreeRun (⟨fun _ _ => none, fun _ => none, fun _ => 0, fun _ => none,
        fun _ => true⟩ : Mem Nat Unit) 0 [.insert 1 ⟨fun _ => none, none, 5, none, true⟩]
        (.ok (m, tree)) ({1} ∪ ∅) ∧
      LooksUp m tree 0 (some 0) ∧
      ¬ Agrees m tree 0 (contents [TreeOp.insert 1 ⟨fun _ => none, none, 5,
        (none : Option Unit), true⟩]) 0 := by
  have hrun := (TreeRun.nil (m := ⟨fun _ _ => none, fun _ => none, fun _ => 0, fun _ => none,
      fun _ => true⟩) (s := 0) (P := Nat) (D := Unit)).snoc
    (o := .insert 1 ⟨fun _ => none, none, 5, none, true⟩) (by simp [TreeOp.Legal])
    (show _ < 1 by decide)
  have hlook : ∀ fuel, 2 ≤ fuel → rbtreeLookup fuel (insertNode (setNode (rbtreeInit (⟨fun _ _ =>
      none, fun _ => none, fun _ => 0, fun _ => none, fun _ => true⟩ : Mem Nat Unit) 0).1 1
      ⟨fun _ => none, none, 5, none, true⟩) (some 0) none 1 false) ⟨some 1, some 0⟩ 0
      = .ok (some 0) := by
    intro fuel hle
    obtain ⟨fuel, rfl⟩ : ∃ n, fuel = n + 2 := ⟨fuel - 2, by omega⟩
    rfl
  refine ⟨_, _, hrun, ⟨2, hlook⟩, ?_⟩
  rintro ⟨r, hr, hne, -⟩
  exact hne (hr.unique ⟨2, hlook⟩)

end Corosched
