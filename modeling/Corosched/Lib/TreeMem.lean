/-
# Parent-linked trees in memory

The memory model is one function per field of a node, so a write to one field leaves the other
fields untouched by definition.  `Zip m s root t k` says that the memory holds the tree `t` at
the focus and the context `k` above it, that an absent child is the shared sentinel `s`, that
every parent link except the root's own is right, and that the sentinel still has the null
children and the black colour it was set up with.

The root's parent link is deliberately left open: a deletion may leave it stale.
-/
import Corosched.Lib.Zip
import Mathlib.Logic.Function.Basic

namespace RbZip

/-! ## 1. Memory -/

/-- The node fields of a tree in memory.  `none` is the null pointer. -/
structure Mem (P D : Type) where
  child : Dir → P → Option P
  parent : P → Option P
  key : P → Int
  data : P → Option D
  red : P → Bool

variable {P D : Type} [DecidableEq P]

namespace Mem

/-- Write one child link. -/
def setChild (m : Mem P D) (d : Dir) (p : P) (v : Option P) : Mem P D :=
  { m with child := fun e q => if e = d ∧ q = p then v else m.child e q }

/-- Write one parent link. -/
def setParent (m : Mem P D) (p : P) (v : Option P) : Mem P D :=
  { m with parent := Function.update m.parent p v }

/-- Write one colour. -/
def setRed (m : Mem P D) (p : P) (c : Bool) : Mem P D :=
  { m with red := Function.update m.red p c }

variable (m : Mem P D) (d e : Dir) (p q : P) (v : Option P) (c : Bool)

@[simp] theorem setChild_same : (m.setChild d p v).child d p = v := by simp [setChild]
theorem setChild_child : (m.setChild d p v).child e q = if e = d ∧ q = p then v else m.child e q :=
  rfl
@[simp] theorem setChild_parent : (m.setChild d p v).parent = m.parent := rfl
@[simp] theorem setChild_key : (m.setChild d p v).key = m.key := rfl
@[simp] theorem setChild_data : (m.setChild d p v).data = m.data := rfl
@[simp] theorem setChild_red : (m.setChild d p v).red = m.red := rfl

@[simp] theorem setParent_child : (m.setParent p v).child = m.child := rfl
@[simp] theorem setParent_same : (m.setParent p v).parent p = v := by simp [setParent]
theorem setParent_parent : (m.setParent p v).parent q = if q = p then v else m.parent q := by
  simp [setParent, Function.update_apply]
@[simp] theorem setParent_key : (m.setParent p v).key = m.key := rfl
@[simp] theorem setParent_data : (m.setParent p v).data = m.data := rfl
@[simp] theorem setParent_red : (m.setParent p v).red = m.red := rfl

@[simp] theorem setRed_child : (m.setRed p c).child = m.child := rfl
@[simp] theorem setRed_parent : (m.setRed p c).parent = m.parent := rfl
@[simp] theorem setRed_key : (m.setRed p c).key = m.key := rfl
@[simp] theorem setRed_data : (m.setRed p c).data = m.data := rfl
@[simp] theorem setRed_same : (m.setRed p c).red p = c := by simp [setRed]
theorem setRed_red : (m.setRed p c).red q = if q = p then c else m.red q := by
  simp [setRed, Function.update_apply]

end Mem

/-! ## 2. Memory that holds a tree -/

/-- The pointer to a tree: its root, or the sentinel. -/
def ptr (s : P) : RbTree P → P
  | .nil => s
  | .node _ _ p _ => p

omit [DecidableEq P] in
@[simp] theorem ptr_nil (s : P) : ptr s (.nil : RbTree P) = s := rfl
omit [DecidableEq P] in
@[simp] theorem ptr_node (s : P) (c : Bool) (l r : RbTree P) (p : P) :
    ptr s (.node c l p r) = p := rfl
omit [DecidableEq P] in
@[simp] theorem ptr_join (s : P) (d : Dir) (c : Bool) (a b : RbTree P) (p : P) :
    ptr s (.join d c a p b) = p := by cases d <;> rfl

omit [DecidableEq P] in
@[simp] theorem ptr_attach (s : P) (f : Frame P) (t : RbTree P) : ptr s (f.attach t) = f.p :=
  ptr_join _ _ _ _ _ _

omit [DecidableEq P] in
theorem ptr_ne {s : P} {t : RbTree P} {x : P} (hx : x ∉ t.toList) (hs : x ≠ s) :
    x ≠ ptr s t := by
  cases t with
  | nil => exact hs
  | node c l p r => intro h; exact hx (by simp [RbTree.toList, h, ptr])

/-- The root of `t`, if there is one, has parent `p`. -/
def Under (m : Mem P D) (p : P) : RbTree P → Prop
  | .nil => True
  | .node _ _ q _ => m.parent q = some p

omit [DecidableEq P] in
@[simp] theorem under_nil (m : Mem P D) (p : P) : Under m p .nil := trivial
omit [DecidableEq P] in
@[simp] theorem under_join {m : Mem P D} {p q : P} {d : Dir} {c : Bool} {a b : RbTree P} :
    Under m p (.join d c a q b) ↔ m.parent q = some p := by cases d <;> rfl

/-- The memory holds `t`: colours, child links, and the parent links below its root. -/
def Holds (m : Mem P D) (s : P) : RbTree P → Prop
  | .nil => True
  | .node c l p r =>
    m.red p = c ∧ m.child .left p = some (ptr s l) ∧ m.child .right p = some (ptr s r) ∧
      Under m p l ∧ Under m p r ∧ Holds m s l ∧ Holds m s r

omit [DecidableEq P] in
@[simp] theorem holds_nil (m : Mem P D) (s : P) : Holds m s .nil := trivial

omit [DecidableEq P] in
theorem holds_join {m : Mem P D} {s : P} {d : Dir} {c : Bool} {a b : RbTree P} {p : P} :
    Holds m s (.join d c a p b) ↔
      m.red p = c ∧ m.child d p = some (ptr s a) ∧ m.child d.other p = some (ptr s b) ∧
        Under m p a ∧ Under m p b ∧ Holds m s a ∧ Holds m s b := by
  cases d
  · exact Iff.rfl
  · simp only [RbTree.join, Holds, Dir.other]; tauto

/-- `p` has the parent its context asks for; at the root nothing is asked. -/
def UnderCtx (m : Mem P D) (p : P) : Ctx P → Prop
  | [] => True
  | f :: _ => m.parent p = some f.p

/-- The memory holds the context `k` around a hole that the pointer `h` fills. -/
def HoldsCtx (m : Mem P D) (s : P) : P → Ctx P → Prop
  | _, [] => True
  | h, f :: up =>
    m.red f.p = f.red ∧ m.child f.dir f.p = some h ∧ m.child f.dir.other f.p = some (ptr s f.sib) ∧
      Under m f.p f.sib ∧ Holds m s f.sib ∧ UnderCtx m f.p up ∧ HoldsCtx m s f.p up

/-- The root of `t`, if there is one, has the parent the context asks for. -/
def Fitted (m : Mem P D) (k : Ctx P) : RbTree P → Prop
  | .nil => True
  | .node _ _ q _ => UnderCtx m q k

/-- The pointer to the whole tree, seen from the focus. -/
def top (s : P) : RbTree P → Ctx P → P
  | t, [] => ptr s t
  | _, [f] => f.p
  | t, _ :: g :: up => top s t (g :: up)

/-! ## 3. Frame rules: what does not see a write -/

omit [DecidableEq P] in
theorem Under.congr {m m' : Mem P D} {p : P} {t : RbTree P} (h : Under m p t)
    (hp : ∀ q ∈ t.toList, m'.parent q = m.parent q) : Under m' p t := by
  cases t with
  | nil => trivial
  | node c l q r => exact (hp q (by simp [RbTree.toList])).trans h

/-- The labels below the root. -/
def inner : RbTree P → List P
  | .nil => []
  | .node _ l _ r => l.toList ++ r.toList

omit [DecidableEq P] in
theorem mem_of_mem_inner {t : RbTree P} {q : P} (h : q ∈ inner t) : q ∈ t.toList := by
  cases t with
  | nil => simp [inner] at h
  | node c l p r =>
    simp only [inner, List.mem_append] at h
    simp only [RbTree.toList, List.mem_append, List.mem_cons]
    tauto

omit [DecidableEq P] in
theorem ne_ptr_of_mem_inner {s q : P} {t : RbTree P} (hnd : t.toList.Nodup) (hq : q ∈ inner t) :
    q ≠ ptr s t := by
  cases t with
  | nil => simp [inner] at hq
  | node c l p r =>
    rintro rfl
    simp only [inner, RbTree.toList, List.nodup_append, List.nodup_cons, List.mem_append,
      List.mem_cons] at hq hnd
    rcases hq with hq | hq
    · exact hnd.2.2 _ hq _ (Or.inl rfl) rfl
    · exact hnd.2.1.1 hq

omit [DecidableEq P] in
/-- **A tree does not see a write outside it**, nor one to its root's own parent link. -/
theorem Holds.congr {m m' : Mem P D} {s : P} {t : RbTree P} (h : Holds m s t)
    (hc : ∀ q ∈ t.toList, ∀ d, m'.child d q = m.child d q)
    (hr : ∀ q ∈ t.toList, m'.red q = m.red q)
    (hp : ∀ q ∈ inner t, m'.parent q = m.parent q) : Holds m' s t := by
  induction t with
  | nil => trivial
  | node c l p r ihl ihr =>
    obtain ⟨h1, h2, h3, h4, h5, h6, h7⟩ := h
    have hm : p ∈ (RbTree.node c l p r).toList := by simp [RbTree.toList]
    have hl : ∀ q ∈ l.toList, q ∈ (RbTree.node c l p r).toList := by simp [RbTree.toList]; tauto
    have hrr : ∀ q ∈ r.toList, q ∈ (RbTree.node c l p r).toList := by simp [RbTree.toList]; tauto
    refine ⟨by rw [hr p hm, h1], by rw [hc p hm, h2], by rw [hc p hm, h3], h4.congr ?_,
      h5.congr ?_, ihl h6 (fun q hq => hc q (hl q hq)) (fun q hq => hr q (hl q hq)) ?_,
      ihr h7 (fun q hq => hc q (hrr q hq)) (fun q hq => hr q (hrr q hq)) ?_⟩
    · exact fun q hq => hp q (by simp [inner, hq])
    · exact fun q hq => hp q (by simp [inner, hq])
    · exact fun q hq => hp q (by simp [inner, mem_of_mem_inner hq])
    · exact fun q hq => hp q (by simp [inner, mem_of_mem_inner hq])

omit [DecidableEq P] in
theorem UnderCtx.congr {m m' : Mem P D} {p : P} {k : Ctx P} (h : UnderCtx m p k)
    (hp : m'.parent p = m.parent p) : UnderCtx m' p k := by
  cases k with
  | nil => trivial
  | cons f up => exact hp.trans h

omit [DecidableEq P] in
theorem HoldsCtx.congr {m m' : Mem P D} {s h : P} {k : Ctx P} (hk : HoldsCtx m s h k)
    (hc : ∀ q ∈ Ctx.labels k, ∀ d, m'.child d q = m.child d q)
    (hr : ∀ q ∈ Ctx.labels k, m'.red q = m.red q)
    (hp : ∀ q ∈ Ctx.labels k, m'.parent q = m.parent q) : HoldsCtx m' s h k := by
  induction k generalizing h with
  | nil => trivial
  | cons f up ih =>
    simp only [Ctx.labels_cons, List.mem_cons, List.mem_append] at hc hr hp
    obtain ⟨h1, h2, h3, h4, h5, h6, h7⟩ := hk
    refine ⟨?_, ?_, ?_, ?_, ?_, ?_, ?_⟩
    · rw [hr f.p (Or.inl rfl), h1]
    · rw [hc f.p (Or.inl rfl), h2]
    · rw [hc f.p (Or.inl rfl), h3]
    · exact h4.congr (fun q hq => hp q (Or.inr (Or.inl hq)))
    · exact h5.congr (fun q hq => hc q (Or.inr (Or.inl hq)))
        (fun q hq => hr q (Or.inr (Or.inl hq)))
        (fun q hq => hp q (Or.inr (Or.inl (mem_of_mem_inner hq))))
    · exact h6.congr (hp f.p (Or.inl rfl))
    · exact ih h7 (fun q hq => hc q (Or.inr (Or.inr hq)))
        (fun q hq => hr q (Or.inr (Or.inr hq))) (fun q hq => hp q (Or.inr (Or.inr hq)))

omit [DecidableEq P] in
/-- **A context around another hole.**  Replacing what fills the hole is one write to the
innermost frame; the rest of the context does not see it. -/
theorem HoldsCtx.refill {m m' : Mem P D} {s h h' : P} {k : Ctx P} (hk : HoldsCtx m s h k)
    (hhole : ∀ f up, k = f :: up → m'.child f.dir f.p = some h')
    (hc : ∀ q ∈ Ctx.labels k, ∀ d, (∀ f up, k = f :: up → ¬ (d = f.dir ∧ q = f.p)) →
      m'.child d q = m.child d q)
    (hr : ∀ q ∈ Ctx.labels k, m'.red q = m.red q)
    (hp : ∀ q ∈ Ctx.labels k, m'.parent q = m.parent q)
    (hnd : (Ctx.labels k).Nodup) : HoldsCtx m' s h' k := by
  cases k with
  | nil => trivial
  | cons f up =>
    simp only [Ctx.labels_cons, List.mem_cons, List.mem_append, List.nodup_cons, not_or]
      at hc hr hp hnd
    obtain ⟨h1, h2, h3, h4, h5, h6, h7⟩ := hk
    have hc' : ∀ q d, (q ∈ f.sib.toList ∨ q ∈ Ctx.labels up) → m'.child d q = m.child d q := by
      intro q d hq
      refine hc q (Or.inr hq) d ?_
      rintro g up' hg ⟨-, rfl⟩
      simp only [List.cons.injEq] at hg
      obtain ⟨rfl, rfl⟩ := hg
      rcases hq with hq | hq
      · exact hnd.1.1 hq
      · exact hnd.1.2 hq
    refine ⟨?_, hhole f up rfl, ?_, ?_, ?_, ?_, ?_⟩
    · rw [hr f.p (Or.inl rfl), h1]
    · rw [hc f.p (Or.inl rfl), h3]
      rintro g up' hg ⟨hd, -⟩
      simp only [List.cons.injEq] at hg
      rw [← hg.1] at hd
      exact f.dir.other_ne hd
    · exact h4.congr (fun q hq => hp q (Or.inr (Or.inl hq)))
    · exact h5.congr (fun q hq d => hc' q d (Or.inl hq))
        (fun q hq => hr q (Or.inr (Or.inl hq)))
        (fun q hq => hp q (Or.inr (Or.inl (mem_of_mem_inner hq))))
    · exact h6.congr (hp f.p (Or.inl rfl))
    · exact h7.congr (fun q hq d => hc' q d (Or.inr hq))
        (fun q hq => hr q (Or.inr (Or.inr hq))) (fun q hq => hp q (Or.inr (Or.inr hq)))

/-! ## 4. The focus in memory -/

/-- **The memory holds the tree `t` at the focus and the context `k` around it.** -/
structure Zip (m : Mem P D) (s root : P) (t : RbTree P) (k : Ctx P) : Prop where
  tree : Holds m s t
  ctx : HoldsCtx m s (ptr s t) k
  fitted : Fitted m k t
  root_eq : root = top s t k
  nodup : (t.toList ++ Ctx.labels k).Nodup
  fresh : s ∉ t.toList ++ Ctx.labels k
  sent_child : ∀ d, m.child d s = none
  sent_red : m.red s = false

omit [DecidableEq P] in
@[simp] theorem fitted_join {m : Mem P D} {k : Ctx P} {d : Dir} {c : Bool} {a b : RbTree P}
    {p : P} :
    Fitted m k (.join d c a p b) ↔ UnderCtx m p k := by cases d <;> rfl

omit [DecidableEq P] in
theorem fitted_cons {m : Mem P D} {f : Frame P} {k : Ctx P} {t : RbTree P} :
    Fitted m (f :: k) t ↔ Under m f.p t := by cases t <;> rfl

omit [DecidableEq P] in
@[simp] theorem top_nil (s : P) (t : RbTree P) : top s t [] = ptr s t := rfl

omit [DecidableEq P] in
/-- Under a nonempty context the pointer to the whole does not depend on the focus. -/
theorem top_congr (s : P) (t t' : RbTree P) (f : Frame P) (k : Ctx P) :
    top s t (f :: k) = top s t' (f :: k) := by
  induction k generalizing f with
  | nil => rfl
  | cons g up ih => exact ih g

omit [DecidableEq P] in
theorem top_attach (s : P) (t : RbTree P) (f : Frame P) (k : Ctx P) :
    top s (f.attach t) k = top s t (f :: k) := by
  cases k with
  | nil => simp [top, Frame.attach]
  | cons g up =>
    exact top_congr _ _ _ _ _

omit [DecidableEq P] in
theorem top_mem {s : P} {t : RbTree P} {f : Frame P} {k : Ctx P} :
    top s t (f :: k) ∈ Ctx.labels (f :: k) := by
  induction k generalizing f with
  | nil => simp [top]
  | cons g up ih =>
    rw [Ctx.labels_cons, List.mem_cons, List.mem_append]
    exact Or.inr (Or.inr ih)

omit [DecidableEq P] in
theorem labels_join_perm (d : Dir) (c : Bool) (a b : RbTree P) (x : P) (k : Ctx P) :
    ((RbTree.join d c a x b).toList ++ Ctx.labels k).Perm
      (x :: (a.toList ++ (b.toList ++ Ctx.labels k))) := by
  have := (RbTree.toList_join_perm d c a b x).append_right (Ctx.labels k)
  simpa using this

omit [DecidableEq P] in
/-- The labels seen from a focus do not depend on where it stands. -/
theorem labels_attach_perm (t : RbTree P) (f : Frame P) (k : Ctx P) :
    ((f.attach t).toList ++ Ctx.labels k).Perm (t.toList ++ Ctx.labels (f :: k)) := by
  refine (labels_join_perm f.dir f.red t f.sib f.p k).trans ?_
  rw [Ctx.labels_cons]
  exact List.perm_middle.symm

omit [DecidableEq P] in
/-- **Moving the focus** changes nothing in memory. -/
theorem zip_attach_iff {m : Mem P D} {s root : P} {t : RbTree P} {f : Frame P} {k : Ctx P} :
    Zip m s root (f.attach t) k ↔ Zip m s root t (f :: k) := by
  have hp := labels_attach_perm t f k
  constructor
  · intro h
    obtain ⟨h1, h2, h3, h4, h5, h6, h7⟩ := holds_join.mp h.tree
    have hc : HoldsCtx m s f.p k := by have := h.ctx; rwa [Frame.attach, ptr_join] at this
    have hu : UnderCtx m f.p k := by have := h.fitted; rwa [Frame.attach, fitted_join] at this
    refine ⟨h6, ⟨h1, h2, h3, h5, h7, hu, hc⟩, fitted_cons.mpr h4, ?_, hp.nodup_iff.mp h.nodup, ?_,
      h.sent_child, h.sent_red⟩
    · rw [h.root_eq, top_attach]
    · exact fun hm => h.fresh (hp.mem_iff.mpr hm)
  · intro h
    obtain ⟨h1, h2, h3, h5, h7, h8, h9⟩ := h.ctx
    have h4 := fitted_cons.mp h.fitted
    refine ⟨holds_join.mpr ⟨h1, h2, h3, h4, h5, h.tree, h7⟩, ?_, ?_, ?_, hp.nodup_iff.mpr h.nodup,
      ?_, h.sent_child, h.sent_red⟩
    · rw [Frame.attach, ptr_join]; exact h9
    · rw [Frame.attach, fitted_join]; exact h8
    · rw [h.root_eq, top_attach]
    · exact fun hm => h.fresh (hp.mem_iff.mp hm)

omit [DecidableEq P] in
theorem zip_join_iff {m : Mem P D} {s root : P} {d : Dir} {c : Bool} {a b : RbTree P} {p : P}
    {k : Ctx P} :
    Zip m s root (.join d c a p b) k ↔ Zip m s root a (⟨d, c, p, b⟩ :: k) :=
  zip_attach_iff (f := ⟨d, c, p, b⟩)

omit [DecidableEq P] in
theorem zip_append_iff {m : Mem P D} {s root : P} {t : RbTree P} {k₁ k₂ : Ctx P} :
    Zip m s root (plug t k₁) k₂ ↔ Zip m s root t (k₁ ++ k₂) := by
  induction k₁ generalizing t with
  | nil => exact Iff.rfl
  | cons f up ih => rw [plug_cons, ih, zip_attach_iff, List.cons_append]

omit [DecidableEq P] in
theorem zip_plug_iff {m : Mem P D} {s root : P} {t : RbTree P} {k : Ctx P} :
    Zip m s root (plug t k) [] ↔ Zip m s root t k := by
  rw [zip_append_iff, List.append_nil]

/-! ## 5. Reading and recolouring around the focus -/

section Focus

variable {m : Mem P D} {s root x : P} {d : Dir} {c : Bool} {t a b : RbTree P} {f g : Frame P}
  {k : Ctx P}

omit [DecidableEq P] in
/-- The same memory, seen from the sibling. -/
theorem zip_swap :
    Zip m s root t (f :: k) ↔ Zip m s root f.sib (⟨f.dir.other, f.red, f.p, t⟩ :: k) := by
  rw [← zip_attach_iff, ← zip_join_iff, RbTree.join_other, Frame.attach]

omit [DecidableEq P] in
theorem Zip.frame_red (h : Zip m s root t (f :: k)) : m.red f.p = f.red := h.ctx.1

omit [DecidableEq P] in
theorem Zip.frame_child (h : Zip m s root t (f :: k)) : m.child f.dir f.p = some (ptr s t) :=
  h.ctx.2.1

omit [DecidableEq P] in
theorem Zip.frame_sib (h : Zip m s root t (f :: k)) :
    m.child f.dir.other f.p = some (ptr s f.sib) := h.ctx.2.2.1

omit [DecidableEq P] in
theorem Zip.frame_parent (h : Zip m s root t (f :: g :: k)) : m.parent f.p = some g.p :=
  h.ctx.2.2.2.2.2.1

omit [DecidableEq P] in
theorem Zip.parent (h : Zip m s root (.join d c a x b) (f :: k)) : m.parent x = some f.p := by
  have := h.fitted
  rwa [fitted_join] at this

omit [DecidableEq P] in
theorem Zip.red (h : Zip m s root (.join d c a x b) k) : m.red x = c := (holds_join.mp h.tree).1

omit [DecidableEq P] in
theorem Zip.red_ptr (h : Zip m s root t k) : m.red (ptr s t) = t.red := by
  cases t with
  | nil => exact h.sent_red
  | node c l p r => exact h.tree.1

omit [DecidableEq P] in
theorem Zip.child (h : Zip m s root (.join d c a x b) k) : m.child d x = some (ptr s a) :=
  (holds_join.mp h.tree).2.1

omit [DecidableEq P] in
theorem Zip.child_other (h : Zip m s root (.join d c a x b) k) :
    m.child d.other x = some (ptr s b) := (holds_join.mp h.tree).2.2.1

omit [DecidableEq P] in
theorem ptr_mem {t : RbTree P} (ht : t ≠ .nil) : ptr s t ∈ t.toList := by
  cases t with
  | nil => exact absurd rfl ht
  | node c l p r => simp [RbTree.toList, ptr]

omit [DecidableEq P] in
/-- The focus and its sibling are different nodes, unless both are the sentinel. -/
theorem Zip.ptr_ne_sib (h : Zip m s root t (f :: k)) (hne : t ≠ .nil ∨ f.sib ≠ .nil) :
    ptr s t ≠ ptr s f.sib := by
  have hnd := h.nodup
  have hs := h.fresh
  simp only [Ctx.labels_cons, List.mem_append, List.mem_cons, not_or, List.nodup_append,
    List.nodup_cons] at hnd hs
  rcases hne with ht | hsib
  · have hmem := ptr_mem (s := s) ht
    refine ptr_ne (fun hm => ?_) (fun e => hs.1 (e ▸ hmem))
    exact hnd.2.2 _ hmem _ (Or.inr (Or.inl hm)) rfl
  · have hmem := ptr_mem (s := s) hsib
    have hsp : ptr s f.sib ≠ s := fun e => hs.2.2.1 (by rwa [e] at hmem)
    refine (ptr_ne (fun hm => ?_) hsp).symm
    exact hnd.2.2 _ hm _ (Or.inr (Or.inl hmem)) rfl

omit [DecidableEq P] in
/-- When `t'` comes into the focus, `root` is rewritten at the top only. -/
theorem Zip.replace_root (h : Zip m s root t k) (t' : RbTree P) :
    (if k.isEmpty then ptr s t' else root) = top s t' k := by
  cases k with
  | nil => simp
  | cons f up =>
    simp only [List.isEmpty_cons, Bool.false_eq_true, if_false]
    rw [h.root_eq]
    exact top_congr _ _ _ _ _

omit [DecidableEq P] in
theorem Zip.frame_ne_root (h : Zip m s root (.join d c a x b) (f :: k)) : x ≠ root := by
  rintro rfl
  have hnd := List.nodup_append.mp h.nodup
  exact hnd.2.2 x (by simp) x (h.root_eq ▸ top_mem) rfl

omit [DecidableEq P] in
/-- Only the root itself is pointed to by `root`. -/
theorem Zip.ptr_ne_root (h : Zip m s root t (f :: k)) : ptr s t ≠ root := by
  cases t with
  | nil =>
    rintro rfl
    have hmem : s ∈ Ctx.labels (f :: k) := by
      have := h.root_eq
      simp only [ptr_nil] at this
      rw [this]
      exact top_mem
    exact h.fresh (by simpa using hmem)
  | node c l p r =>
    have h' : Zip m s root (.join .left c l p r) (f :: k) := h
    exact h'.frame_ne_root

omit [DecidableEq P] in
/-- The labels of the node at the focus, of its subtrees and of its context are apart. -/
theorem Zip.apart (h : Zip m s root (.join d c a x b) k) :
    (x :: (a.toList ++ (b.toList ++ Ctx.labels k))).Nodup ∧
      s ∉ x :: (a.toList ++ (b.toList ++ Ctx.labels k)) := by
  have hperm := labels_join_perm d c a b x k
  exact ⟨hperm.nodup_iff.mp h.nodup, fun hm => h.fresh (hperm.mem_iff.mpr hm)⟩

/-- **Painting the node at the focus.** -/
theorem Zip.setRed (h : Zip m s root (.join d c a x b) k) (c' : Bool) :
    Zip (m.setRed x c') s root (.join d c' a x b) k := by
  have hperm : ((RbTree.join d c' a x b).toList ++ Ctx.labels k).Perm
      ((RbTree.join d c a x b).toList ++ Ctx.labels k) := by
    rw [RbTree.toList_paint d c' c]
  have hx := (List.nodup_cons.mp h.apart.1).1
  simp only [List.mem_append, not_or] at hx
  have hsx : s ≠ x := by rintro rfl; exact h.fresh (by simp)
  obtain ⟨h1, h2, h3, h4, h5, h6, h7⟩ := holds_join.mp h.tree
  have hout : ∀ {l : List P}, x ∉ l → ∀ q ∈ l, (m.setRed x c').red q = m.red q := by
    intro l hl q hq
    rw [Mem.setRed_red, if_neg (by rintro rfl; exact hl hq)]
  refine ⟨holds_join.mpr ⟨by simp, h2, h3, h4.congr (fun _ _ => rfl), h5.congr (fun _ _ => rfl),
    h6.congr (fun _ _ _ => rfl) (hout hx.1) (fun _ _ => rfl),
    h7.congr (fun _ _ _ => rfl) (hout hx.2.1) (fun _ _ => rfl)⟩, ?_, ?_, ?_,
    hperm.nodup_iff.mpr h.nodup, fun hm => h.fresh (hperm.mem_iff.mp hm), h.sent_child, ?_⟩
  · have := h.ctx
    rw [ptr_join] at this ⊢
    exact this.congr (fun _ _ _ => rfl) (hout hx.2.2) (fun _ _ => rfl)
  · have := h.fitted
    rw [fitted_join] at this ⊢
    exact this.congr rfl
  · rw [h.root_eq]
    cases k with
    | nil => simp
    | cons f up => exact top_congr _ _ _ _ _
  · rw [Mem.setRed_red, if_neg hsx, h.sent_red]

/-- Painting the parent of the focus. -/
theorem Zip.setRed_frame (h : Zip m s root t (f :: k)) (c' : Bool) :
    Zip (m.setRed f.p c') s root t (⟨f.dir, c', f.p, f.sib⟩ :: k) := by
  have h' : Zip m s root (.join f.dir f.red t f.p f.sib) k := zip_attach_iff.mpr h
  exact zip_join_iff.mp (h'.setRed c')

/-- Painting the sibling of the focus. -/
theorem Zip.setRed_sib (h : Zip m s root t (f :: k)) {e : Dir}
    (hsib : f.sib = .join e c a x b) (c' : Bool) :
    Zip (m.setRed x c') s root t (⟨f.dir, f.red, f.p, .join e c' a x b⟩ :: k) := by
  have h' := zip_swap.mp h
  rw [hsib] at h'
  have h'' := zip_swap.mp (h'.setRed c')
  simpa using h''

/-- Painting the child of the focus on side `d`. -/
theorem Zip.setRed_child {e : Dir} {c₁ : Bool} {a₁ a₂ : RbTree P} {y : P}
    (h : Zip m s root (.join d c (.join e c₁ a₁ y a₂) x b) k) (c' : Bool) :
    Zip (m.setRed y c') s root (.join d c (.join e c' a₁ y a₂) x b) k :=
  zip_join_iff.mpr ((zip_join_iff.mp h).setRed c')

/-- Painting the child of the focus on the other side. -/
theorem Zip.setRed_child_other {e : Dir} {c₁ : Bool} {b₁ b₂ : RbTree P} {y : P}
    (h : Zip m s root (.join d c a x (.join e c₁ b₁ y b₂)) k) (c' : Bool) :
    Zip (m.setRed y c') s root (.join d c a x (.join e c' b₁ y b₂)) k := by
  rw [← RbTree.join_other] at h ⊢
  exact h.setRed_child c'

end Focus

/-! ## 6. What a rotation leaves behind -/

section Rotation

variable {m m' : Mem P D} {s root x y : P} {d : Dir} {c₁ c₂ : Bool} {a b e : RbTree P} {k : Ctx P}

omit [DecidableEq P] in
/-- The labels of a rotation's two nodes and three subtrees, and of its context, are apart. -/
theorem Zip.rotation_apart (h : Zip m s root (.join d c₁ a x (.join d c₂ b y e)) k) :
    (x :: y :: (a.toList ++ (b.toList ++ (e.toList ++ Ctx.labels k)))).Nodup ∧
      s ∉ x :: y :: (a.toList ++ (b.toList ++ (e.toList ++ Ctx.labels k))) := by
  have hperm : ((RbTree.join d c₁ a x (.join d c₂ b y e)).toList ++ Ctx.labels k).Perm
      (x :: y :: (a.toList ++ (b.toList ++ (e.toList ++ Ctx.labels k)))) := by
    refine (labels_join_perm d c₁ a _ x k).trans (List.Perm.cons x ?_)
    exact ((labels_join_perm d c₂ b e y k).append_left _).trans List.perm_middle
  exact ⟨hperm.nodup_iff.mp h.nodup, fun hm => h.fresh (hperm.mem_iff.mpr hm)⟩

omit [DecidableEq P] in
/-- **The links a rotation rewrites are enough.**  Whatever memory has the five new links and
agrees elsewhere holds the rotated tree under the same context. -/
theorem Zip.rotate (h : Zip m s root (.join d c₁ a x (.join d c₂ b y e)) k)
    (hx : m'.child d.other x = some (ptr s b)) (hy : m'.child d y = some x)
    (hk : ∀ f up, k = f :: up → m'.child f.dir f.p = some y)
    (hc : ∀ g q, ¬ (g = d.other ∧ q = x) → ¬ (g = d ∧ q = y) →
      (∀ f up, k = f :: up → ¬ (g = f.dir ∧ q = f.p)) → m'.child g q = m.child g q)
    (hpx : m'.parent x = some y) (hpy : m'.parent y = m.parent x) (hpb : Under m' x b)
    (hp : ∀ q, q ≠ x → q ≠ y → q ≠ ptr s b → m'.parent q = m.parent q)
    (hr : m'.red = m.red) :
    Zip m' s (if k.isEmpty then y else root) (.join d c₂ (.join d c₁ a x b) y e) k := by
  obtain ⟨hnd, hs⟩ := h.rotation_apart
  simp only [List.nodup_cons, List.mem_cons, List.mem_append, not_or, List.nodup_append,
    List.mem_append] at hnd hs
  obtain ⟨⟨hxy, hxa, hxb, hxe, hxk⟩, ⟨hya, hyb, hye, hyk⟩, ha, ⟨hb, ⟨he, hkn, hek⟩, hbek⟩, habek⟩ :=
    hnd
  obtain ⟨hsx, hsy, hsa, hsb, hse, hsk⟩ := hs
  obtain ⟨h1, h2, -, h4, -, h6, h7⟩ := holds_join.mp h.tree
  obtain ⟨g1, -, g3, g4, g5, g6, g7⟩ := holds_join.mp h7
  have hhead : ∀ (f : Frame P) (up : Ctx P), k = f :: up → f.p ∈ Ctx.labels k := by
    rintro f up rfl; simp
  -- a node outside the rotation keeps its links
  have hout : ∀ q, q ≠ x → q ≠ y → q ∉ Ctx.labels k → ∀ g, m'.child g q = m.child g q := by
    intro q hqx hqy hqk g
    exact hc g q (fun e => hqx e.2) (fun e => hqy e.2)
      (fun f up hf e => hqk (e.2 ▸ hhead f up hf))
  have hmem : ∀ {t : RbTree P}, x ∉ t.toList → y ∉ t.toList → (∀ q ∈ t.toList, q ∉ Ctx.labels k) →
      ∀ q ∈ t.toList, ∀ g, m'.child g q = m.child g q := by
    intro t hx' hy' hk' q hq
    exact hout q (fun e => hx' (e ▸ hq)) (fun e => hy' (e ▸ hq)) (hk' q hq)
  have hak : ∀ q ∈ a.toList, q ∉ Ctx.labels k := fun q hq hk' =>
    habek q hq q (Or.inr (Or.inr hk')) rfl
  have hbk : ∀ q ∈ b.toList, q ∉ Ctx.labels k := fun q hq hk' => hbek q hq q (Or.inr hk') rfl
  have hek' : ∀ q ∈ e.toList, q ∉ Ctx.labels k := fun q hq hk' => hek q hq q hk' rfl
  -- only `x`, `y` and the root of `b` have a new parent
  have hpar : ∀ q, q ≠ x → q ≠ y → q ∉ b.toList → q ≠ s → m'.parent q = m.parent q := by
    intro q hqx hqy hqb hqs
    exact hp q hqx hqy (ptr_ne hqb hqs)
  have hpar' : ∀ {t : RbTree P}, x ∉ t.toList → y ∉ t.toList → (∀ q ∈ t.toList, q ∉ b.toList) →
      s ∉ t.toList → ∀ q ∈ t.toList, m'.parent q = m.parent q := by
    intro t hx' hy' hb' hs' q hq
    exact hpar q (fun e => hx' (e ▸ hq)) (fun e => hy' (e ▸ hq)) (hb' q hq) (fun e => hs' (e ▸ hq))
  have hpa := hpar' hxa hya (fun q hq hqb => habek q hq q (Or.inl hqb) rfl) hsa
  have hpe := hpar' hxe hye (fun q hq hqb => hbek q hqb q (Or.inl hq) rfl) hse
  have hpbi : ∀ q ∈ inner b, m'.parent q = m.parent q := by
    intro q hq
    have hqb := mem_of_mem_inner hq
    exact hp q (fun e => hxb (e ▸ hqb)) (fun e => hyb (e ▸ hqb)) (ne_ptr_of_mem_inner hb hq)
  have hpk : ∀ q ∈ Ctx.labels k, m'.parent q = m.parent q := by
    intro q hq
    exact hpar q (fun e => hxk (e ▸ hq)) (fun e => hyk (e ▸ hq)) (fun hqb => hbk q hqb hq)
      (fun e => hsk (e ▸ hq))
  -- the three subtrees, then the two nodes
  have hA : Holds m' s a := h6.congr (hmem hxa hya hak) (fun q _ => by rw [hr])
    (fun q hq => hpa q (mem_of_mem_inner hq))
  have hB : Holds m' s b := g6.congr (hmem hxb hyb hbk) (fun q _ => by rw [hr]) hpbi
  have hE : Holds m' s e := g7.congr (hmem hxe hye hek') (fun q _ => by rw [hr])
    (fun q hq => hpe q (mem_of_mem_inner hq))
  have hX : Holds m' s (.join d c₁ a x b) := by
    refine holds_join.mpr ⟨by rw [hr, h1], ?_, hx, h4.congr hpa, hpb, hA, hB⟩
    rw [hc d x (fun e => d.ne_other e.1) (fun e => hxy e.2)
      (fun f up hf e => hxk (e.2 ▸ hhead f up hf)), h2]
  have hperm : ((RbTree.join d c₂ (.join d c₁ a x b) y e).toList ++ Ctx.labels k).Perm
      ((RbTree.join d c₁ a x (.join d c₂ b y e)).toList ++ Ctx.labels k) := by
    rw [RbTree.toList_rotate]
  refine ⟨holds_join.mpr ⟨by rw [hr, g1], by rw [ptr_join]; exact hy, ?_, by rwa [under_join],
    g5.congr hpe, hX, hE⟩, ?_, ?_, ?_, hperm.nodup_iff.mpr h.nodup,
    fun hm => h.fresh (hperm.mem_iff.mp hm), ?_, by rw [hr, h.sent_red]⟩
  · rw [hc d.other y (fun e => hxy e.2.symm) (fun e => d.other_ne e.1)
      (fun f up hf e => hyk (e.2 ▸ hhead f up hf)), g3]
  · rw [ptr_join]
    refine (h.ctx).refill hk ?_ (fun q _ => by rw [hr]) hpk hkn
    exact fun q hq g hg => hc g q (fun e => hxk (e.2 ▸ hq)) (fun e => hyk (e.2 ▸ hq)) hg
  · have hfit := h.fitted
    rw [fitted_join] at hfit ⊢
    cases k with
    | nil => trivial
    | cons f up => exact hpy.trans hfit
  · simpa only [ptr_join] using h.replace_root (.join d c₂ (.join d c₁ a x b) y e)
  · intro g
    rw [hc g s (fun e => hsx e.2) (fun e => hsy e.2) (fun f up hf e => hsk (e.2 ▸ hhead f up hf)),
      h.sent_child]

end Rotation

/-! ## 7. What a removal and a replacement leave behind -/

section Removal

variable {m m' : Mem P D} {s root p y : P} {d : Dir} {c : Bool} {t a b : RbTree P} {f : Frame P}
  {k : Ctx P}

omit [DecidableEq P] in
/-- **A node with one child leaves.**  The parent points to the child and the child to the
parent; nothing is asked of the fields of the node that left. -/
theorem Zip.remove (h : Zip m s root (.join d c t p .nil) (f :: k))
    (hf : m'.child f.dir f.p = some (ptr s t))
    (hc : ∀ q g, q ≠ p → ¬ (g = f.dir ∧ q = f.p) → m'.child g q = m.child g q)
    (hr : ∀ q, q ≠ p → m'.red q = m.red q) (hu : Under m' f.p t)
    (hp : ∀ q, q ≠ p → q ≠ ptr s t → m'.parent q = m.parent q) : Zip m' s root t (f :: k) := by
  obtain ⟨hnd, hs⟩ := h.apart
  simp only [RbTree.toList_nil, List.nil_append, List.nodup_cons, List.mem_append, List.mem_cons,
    not_or] at hnd hs
  obtain ⟨⟨hpt, hpk⟩, hnd⟩ := hnd
  obtain ⟨hsp, hst, hsk⟩ := hs
  obtain ⟨htn, hkn, htk⟩ := List.nodup_append.mp hnd
  have hfk : f.p ∈ Ctx.labels (f :: k) := by simp
  obtain ⟨-, -, -, -, -, h6, -⟩ := holds_join.mp h.tree
  have hctx := h.ctx
  rw [ptr_join] at hctx
  have hqt : ∀ q ∈ t.toList, q ≠ p := by rintro q hq rfl; exact hpt hq
  have hqk : ∀ q ∈ Ctx.labels (f :: k), q ≠ p := by rintro q hq rfl; exact hpk hq
  refine ⟨h6.congr ?_ (fun q hq => hr q (hqt q hq)) ?_, ?_, fitted_cons.mpr hu, ?_, hnd,
    by simpa using ⟨hst, by simpa using hsk⟩, ?_, by rw [hr s hsp, h.sent_red]⟩
  · exact fun q hq g => hc q g (hqt q hq) (fun e => htk q hq f.p hfk e.2)
  · exact fun q hq => hp q (hqt q (mem_of_mem_inner hq)) (ne_ptr_of_mem_inner htn hq)
  · refine hctx.refill ?_ ?_ (fun q hq => hr q (hqk q hq)) ?_ hkn
    · rintro g up hg
      simp only [List.cons.injEq] at hg
      obtain ⟨rfl, rfl⟩ := hg
      exact hf
    · exact fun q hq g hg => hc q g (hqk q hq) (hg f k rfl)
    · intro q hq
      refine hp q (hqk q hq) (ptr_ne (fun hm => htk q hm q hq rfl) ?_)
      rintro rfl
      exact hsk hq
  · rw [h.root_eq]
    exact top_congr _ _ _ _ _
  · intro g
    rw [hc s g hsp (fun e => hsk (e.2 ▸ hfk)), h.sent_child]

/-- **The two writes that unlink a node** with one subtree, which moves up. -/
theorem Zip.unlink (h : Zip m s root (.join d c t p .nil) (f :: k)) :
    Zip ((m.setChild f.dir f.p (some (ptr s t))).setParent (ptr s t) (some f.p)) s root t
      (f :: k) := by
  refine h.remove (by simp) ?_ (fun _ _ => rfl) ?_ ?_
  · intro q g _ hq
    rw [Mem.setParent_child, Mem.setChild_child, if_neg hq]
  · cases t with
    | nil => trivial
    | node c' l' q r' => simp [Under]
  · intro q _ hq
    rw [Mem.setParent_parent, if_neg hq, Mem.setChild_parent]

omit [DecidableEq P] in
/-- **A node takes another one's place**: its links, its colour and the links to it. -/
theorem Zip.relabel (h : Zip m s root (.join d c a p b) k)
    (hy : y ∉ a.toList ∧ y ∉ b.toList ∧ y ∉ Ctx.labels k) (hys : y ≠ s)
    (hya : m'.child d y = some (ptr s a)) (hyb : m'.child d.other y = some (ptr s b))
    (hyr : m'.red y = c) (hyp : m'.parent y = m.parent p) (hua : Under m' y a)
    (hub : Under m' y b) (hk : ∀ f up, k = f :: up → m'.child f.dir f.p = some y)
    (hc : ∀ q g, q ≠ p → q ≠ y → (∀ f up, k = f :: up → ¬ (g = f.dir ∧ q = f.p)) →
      m'.child g q = m.child g q)
    (hr : ∀ q, q ≠ p → q ≠ y → m'.red q = m.red q)
    (hp : ∀ q, q ≠ p → q ≠ y → q ≠ ptr s a → q ≠ ptr s b → m'.parent q = m.parent q) :
    Zip m' s (if k.isEmpty then y else root) (.join d c a y b) k := by
  obtain ⟨hnd, hs⟩ := h.apart
  simp only [List.nodup_cons, List.mem_append, List.mem_cons, not_or] at hnd hs
  obtain ⟨⟨hpa, hpb, hpk⟩, hnd⟩ := hnd
  obtain ⟨hsp, hsa, hsb, hsk⟩ := hs
  obtain ⟨han, hbkn, habk⟩ := List.nodup_append.mp hnd
  obtain ⟨hbn, hkn, hbk⟩ := List.nodup_append.mp hbkn
  have hhead : ∀ (f : Frame P) (up : Ctx P), k = f :: up → f.p ∈ Ctx.labels k := by
    rintro f up rfl; simp
  obtain ⟨-, -, -, -, -, h6, h7⟩ := holds_join.mp h.tree
  have hne : ∀ {l : List P}, p ∉ l → y ∉ l → ∀ q ∈ l, q ≠ p ∧ q ≠ y := by
    intro l h₁ h₂ q hq
    exact ⟨by rintro rfl; exact h₁ hq, by rintro rfl; exact h₂ hq⟩
  have hna := hne hpa hy.1
  have hnb := hne hpb hy.2.1
  have hnk := hne hpk hy.2.2
  have hA : Holds m' s a := by
    refine h6.congr (fun q hq g => ?_) (fun q hq => hr q (hna q hq).1 (hna q hq).2) (fun q hq => ?_)
    · exact hc q g (hna q hq).1 (hna q hq).2
        (fun f up hf e => habk q hq f.p (List.mem_append_right _ (hhead f up hf)) e.2)
    · have hq' := mem_of_mem_inner hq
      refine hp q (hna q hq').1 (hna q hq').2 (ne_ptr_of_mem_inner han hq) (ptr_ne ?_ ?_)
      · exact fun hqb => habk q hq' q (List.mem_append_left _ hqb) rfl
      · rintro rfl; exact hsa hq'
  have hB : Holds m' s b := by
    refine h7.congr (fun q hq g => ?_) (fun q hq => hr q (hnb q hq).1 (hnb q hq).2) (fun q hq => ?_)
    · exact hc q g (hnb q hq).1 (hnb q hq).2
        (fun f up hf e => hbk q hq f.p (hhead f up hf) e.2)
    · have hq' := mem_of_mem_inner hq
      refine hp q (hnb q hq').1 (hnb q hq').2 (ptr_ne ?_ ?_) (ne_ptr_of_mem_inner hbn hq)
      · exact fun hqa => habk q hqa q (List.mem_append_left _ hq') rfl
      · rintro rfl; exact hsb hq'
  have hfit := h.fitted
  rw [fitted_join] at hfit
  have hctx := h.ctx
  rw [ptr_join] at hctx
  have hlab := labels_join_perm d c a b y k
  refine ⟨holds_join.mpr ⟨hyr, hya, hyb, hua, hub, hA, hB⟩, ?_, ?_, ?_, hlab.nodup_iff.mpr ?_,
    fun hm => ?_, ?_, ?_⟩
  · rw [ptr_join]
    refine hctx.refill hk (fun q hq g hg => hc q g (hnk q hq).1 (hnk q hq).2 hg)
      (fun q hq => hr q (hnk q hq).1 (hnk q hq).2) (fun q hq => ?_) hkn
    refine hp q (hnk q hq).1 (hnk q hq).2 (ptr_ne ?_ ?_) (ptr_ne ?_ ?_)
    · exact fun hqa => habk q hqa q (List.mem_append_right _ hq) rfl
    · rintro rfl; exact hsk hq
    · exact fun hqb => hbk q hqb q hq rfl
    · rintro rfl; exact hsk hq
  · rw [fitted_join]
    cases k with
    | nil => trivial
    | cons f up => exact hyp.trans hfit
  · simpa only [ptr_join] using h.replace_root (.join d c a y b)
  · simp only [List.nodup_cons, List.mem_append, not_or]
    exact ⟨hy, hnd⟩
  · have := hlab.mem_iff.mp hm
    simp only [List.mem_cons, List.mem_append] at this
    rcases this with hsy | hm | hm | hm
    · exact hys hsy.symm
    · exact hsa hm
    · exact hsb hm
    · exact hsk hm
  · intro g
    rw [hc s g hsp hys.symm (fun f up hf e => hsk (e.2 ▸ hhead f up hf)), h.sent_child]
  · rw [hr s hsp hys.symm, h.sent_red]

end Removal

end RbZip
