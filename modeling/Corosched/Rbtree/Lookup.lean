/-
# `rbtree_lookup` against membership

The loop of `rbtree_lookup` runs until its pointer is null, so it also visits the sentinel, whose
key is `0` from `rbtree_node_init`.  A key that some node carries is found; any other key gives
null, except `0`, for which the sentinel itself is returned.
-/
import Corosched.Rbtree.Delete

namespace Corosched

open RbZip

variable {P D : Type} {m : Mem P D} {s : P} {t : RbTree P}

/-- What a lookup of `key` in a subtree returns. -/
inductive Found (m : Mem P D) (s : P) (t : RbTree P) (key : Int) : Option P → Prop
  | node {p : P} (mem : p ∈ t.toList) (eq : m.key p = key) : Found m s t key (some p)
  | sentinel (absent : ∀ p ∈ t.toList, m.key p ≠ key) (zero : key = 0) : Found m s t key (some s)
  | absent (absent : ∀ p ∈ t.toList, m.key p ≠ key) (ne : key ≠ 0) : Found m s t key none

/-- A lookup that went into one subtree of a node speaks for the node, if the key is on that
side. -/
theorem Found.of_side {u : RbTree P} {key : Int} {r : Option P} (h : Found m s u key r)
    (hsub : ∀ p ∈ u.toList, p ∈ t.toList)
    (hside : ∀ p ∈ t.toList, p ∉ u.toList → m.key p ≠ key) : Found m s t key r := by
  have habs : (∀ p ∈ u.toList, m.key p ≠ key) → ∀ p ∈ t.toList, m.key p ≠ key := by
    intro hu p hp
    by_cases hpu : p ∈ u.toList
    · exact hu p hpu
    · exact hside p hp hpu
  cases h with
  | node mem eq => exact .node (hsub _ mem) eq
  | sentinel absent zero => exact .sentinel (habs absent) zero
  | absent absent ne => exact .absent (habs absent) ne

/-- **The loop of `rbtree_lookup`**, over the tree it stands on: one iteration per level, one for
the sentinel and one for null. -/
theorem rbtreeLookupFrom_spec (key : Int) (h : Holds m s t)
    (hsc : ∀ d, m.child d s = none) (hsk : m.key s = 0)
    (hsort : t.toList.Pairwise (fun p q => m.key p ≤ m.key q)) (fuel : Nat)
    (hfuel : t.height + 2 ≤ fuel) :
    ∃ r, rbtreeLookupFrom m key fuel (some (ptr s t)) = .ok r ∧ Found m s t key r := by
  induction t generalizing fuel with
  | nil =>
    obtain ⟨fuel, rfl⟩ : ∃ n, fuel = n + 2 :=
      ⟨fuel - 2, by simp only [RbTree.height] at hfuel; omega⟩
    by_cases hk : key = 0
    · exact ⟨some s, by simp [rbtreeLookupFrom, hsk, hk], .sentinel (by simp) hk⟩
    · refine ⟨none, ?_, .absent (by simp) hk⟩
      by_cases hlt : (0 : Int) > key <;>
        simp [rbtreeLookupFrom, hsk, Ne.symm hk, hlt, hsc]
  | node c l p r ihl ihr =>
    simp only [RbTree.height] at hfuel
    obtain ⟨fuel, rfl⟩ : ∃ n, fuel = n + 1 := ⟨fuel - 1, by omega⟩
    obtain ⟨-, hl, hr, -, -, hlh, hrh⟩ := h
    simp only [RbTree.toList, List.pairwise_append, List.pairwise_cons, List.mem_cons] at hsort
    obtain ⟨hls, ⟨hpr, hrs⟩, hlp⟩ := hsort
    by_cases heq : m.key p = key
    · exact ⟨some p, by simp [rbtreeLookupFrom, heq], .node (by simp [RbTree.toList]) heq⟩
    by_cases hgt : m.key p > key
    · obtain ⟨res, hcode, hres⟩ := ihl hlh hls fuel (by omega)
      refine ⟨res, by simp [rbtreeLookupFrom, heq, hgt, hl, hcode],
        hres.of_side (fun q hq => by simp [RbTree.toList, hq]) ?_⟩
      intro q hq hql
      simp only [RbTree.toList, List.mem_append, List.mem_cons] at hq
      rcases hq with hq | rfl | hq
      · exact absurd hq hql
      · exact heq
      · have := hpr q hq
        omega
    · obtain ⟨res, hcode, hres⟩ := ihr hrh hrs fuel (by omega)
      refine ⟨res, by simp [rbtreeLookupFrom, heq, hgt, hr, hcode],
        hres.of_side (fun q hq => by simp [RbTree.toList, hq]) ?_⟩
      intro q hq hqr
      simp only [RbTree.toList, List.mem_append, List.mem_cons] at hq
      rcases hq with hq | rfl | hq
      · have := hlp q hq p (Or.inl rfl)
        omega
      · exact heq
      · exact absurd hq hqr

/-- **`rbtree_lookup`** on a valid tree. -/
theorem rbtreeLookup_spec {tree : Rbtree P} {T : RbTree P} (h : RbOk m tree s T) (key : Int)
    (fuel : Nat) (hfuel : T.height + 2 ≤ fuel) :
    ∃ r, rbtreeLookup fuel m tree key = .ok r ∧ Found m s T key r := by
  rw [rbtreeLookup, h.root]
  exact rbtreeLookupFrom_spec key h.zip.tree h.zip.sent_child h.sent_key h.sorted fuel hfuel

end Corosched
