/-
# Rotations on a focused tree

`rotate` rewrites the links of two nodes, of the middle subtree's root and of the parent.
`rotate_spec` says what that is at the focus: the rotated tree under the same context, with
keys, data, colours and the sentinel's parent link untouched.
-/
import Corosched.Rbtree.Code

namespace Corosched

open RbZip

variable {P D : Type} [DecidableEq P]

/-- The fields a rotation does not write, and the sentinel's parent link. -/
structure SameRest (s : P) (m m' : Mem P D) : Prop where
  key : m'.key = m.key
  data : m'.data = m.data
  sentParent : m'.parent s = m.parent s

omit [DecidableEq P] in
theorem SameRest.refl (s : P) (m : Mem P D) : SameRest s m m := ⟨rfl, rfl, rfl⟩

omit [DecidableEq P] in
theorem SameRest.trans {s : P} {m m' m'' : Mem P D} (h : SameRest s m m')
    (h' : SameRest s m' m'') : SameRest s m m'' :=
  ⟨h'.key.trans h.key, h'.data.trans h.data, h'.sentParent.trans h.sentParent⟩

variable {m : Mem P D} {s root x y : P} {d : Dir} {c₁ c₂ : Bool} {a b e : RbTree P} {k : Ctx P}

/-- `if (t != sentinel) t->parent = p`: the root of the subtree, if it has one, gets its new
parent, and nothing else changes. -/
theorem reparent_spec (m : Mem P D) {s : P} (x : P) {t : RbTree P} (hs : s ∉ t.toList) :
    ∃ m', reparent m (some s) (some (ptr s t)) (some x) = .ok m' ∧
      m'.child = m.child ∧ m'.red = m.red ∧ SameRest s m m' ∧ Under m' x t ∧
      ∀ q, q ≠ ptr s t → m'.parent q = m.parent q := by
  cases t with
  | nil => exact ⟨m, by simp [reparent], rfl, rfl, .refl s m, trivial, fun _ _ => rfl⟩
  | node c l q r =>
    have hq : s ≠ q := by rintro rfl; simp [RbTree.toList] at hs
    refine ⟨m.setParent q (some x), by simp [reparent, ptr, hq.symm], rfl, rfl, ⟨rfl, rfl, ?_⟩,
      ?_, ?_⟩
    · rw [Mem.setParent_parent, if_neg hq]
    · simp [Under]
    · intro q' hq'
      exact (m.setParent_parent q q' _).trans (if_neg hq')

/-- The parent of `x`, or `*root`, now points to `y` instead. -/
theorem rehang_spec (m : Mem P D) {s root x : P} (y : P) {d : Dir} {k : Ctx P}
    (hroot : k.isEmpty = (x = root)) (hu : UnderCtx m x k) (hctx : HoldsCtx m s x k)
    (hxk : x ∉ Ctx.labels k) (hxs : x ≠ s) :
    ∃ m' root', rehang d m (some root) (some x) (some y) = .ok (m', some root') ∧
      root' = (if k.isEmpty then y else root) ∧
      m'.parent = m.parent ∧ m'.red = m.red ∧ m'.key = m.key ∧ m'.data = m.data ∧
      (∀ f up, k = f :: up → m'.child f.dir f.p = some y) ∧
      ∀ g q, (∀ f up, k = f :: up → ¬ (g = f.dir ∧ q = f.p)) → m'.child g q = m.child g q := by
  cases k with
  | nil =>
    have hx : x = root := by simpa using hroot
    exact ⟨m, y, by simp [rehang, hx], by simp, rfl, rfl, rfl, rfl, by simp, fun _ _ _ => rfl⟩
  | cons f up =>
    have hx : x ≠ root := by simpa using hroot
    obtain ⟨-, h2, h3, -⟩ := hctx
    have hpx : m.parent x = some f.p := hu
    have hsib : x ≠ ptr s f.sib := by
      refine ptr_ne (fun hm => hxk ?_) hxs
      simp [hm]
    refine ⟨m.setChild f.dir f.p (some y), root, ?_, by simp, rfl, rfl, rfl, rfl, ?_, ?_⟩
    · rcases d.eq_or_eq_other f.dir with rfl | rfl
      · simp [rehang, hx, hpx, h2]
      · have h3' : m.child f.dir.other f.p = some (ptr s f.sib) := h3
        simp [rehang, hx, hpx, h3', hsib]
    · rintro g up' hg
      simp only [List.cons.injEq] at hg
      obtain ⟨rfl, rfl⟩ := hg
      simp
    · intro g q hg
      rw [Mem.setChild_child, if_neg (hg f up rfl)]

omit [DecidableEq P] in
/-- The focus is at the root exactly when no frame is above it. -/
theorem zip_isEmpty_iff {m : Mem P D} {s root x : P} {d : Dir} {c : Bool} {a b : RbTree P}
    {k : Ctx P} (h : Zip m s root (.join d c a x b) k) : k.isEmpty = (x = root) := by
  cases k with
  | nil => have := h.root_eq; simp at this; simp [this]
  | cons f up =>
    have hx : x ≠ root := by
      rintro rfl
      have hmem : x ∈ Ctx.labels (f :: up) := h.root_eq ▸ top_mem
      have hnd := List.nodup_append.mp h.nodup
      exact hnd.2.2 x (by simp) x hmem rfl
    simp [hx]

omit [DecidableEq P] in
/-- `x == x->parent->left` finds the side the focus lies on. -/
theorem side_eq {m : Mem P D} {t : RbTree P} {f : Frame P} (h : Zip m s root t (f :: k))
    (hne : t ≠ .nil ∨ f.sib ≠ .nil) [DecidableEq P] :
    (if some (ptr s t) = m.child .left f.p then Dir.left else Dir.right) = f.dir := by
  cases hd : f.dir with
  | left =>
    have hc := h.frame_child
    rw [hd] at hc
    simp [hc]
  | right =>
    have hc := h.frame_sib
    rw [hd] at hc
    simp only [Dir.other] at hc
    simp [hc, h.ptr_ne_sib hne]

/-- **A rotation at the focus.** -/
theorem rotate_spec (h : Zip m s root (.join d c₁ a x (.join d c₂ b y e)) k) :
    ∃ m' root', rotate d m (some root) (some s) (some x) = .ok (m', some root') ∧
      Zip m' s root' (.join d c₂ (.join d c₁ a x b) y e) k ∧ SameRest s m m' ∧
      m'.red = m.red := by
  obtain ⟨hnd, hs⟩ := h.rotation_apart
  simp only [List.nodup_cons, List.mem_cons, List.mem_append, not_or] at hnd hs
  obtain ⟨⟨hxy, hxa, hxb, hxe, hxk⟩, ⟨hya, hyb, hye, hyk⟩, -⟩ := hnd
  obtain ⟨hsx, hsy, hsa, hsb, hse, hsk⟩ := hs
  obtain ⟨-, -, h3, -, h5, -, h7⟩ := holds_join.mp h.tree
  obtain ⟨-, g2, -⟩ := holds_join.mp h7
  rw [ptr_join] at h3
  rw [under_join] at h5
  have hctx := h.ctx
  rw [ptr_join] at hctx
  have hfit := h.fitted
  rw [fitted_join] at hfit
  -- the middle subtree moves under `x`
  obtain ⟨m₂, hm₂, hch₂, hred₂, hrest₂, hunder₂, hpar₂⟩ :=
    reparent_spec (m.setChild d.other x (some (ptr s b))) x hsb
  have hpx₂ : m₂.parent x = m.parent x := hpar₂ x (ptr_ne hxb (Ne.symm hsx))
  -- `y` gets the parent of `x`, and the parent of `x` gets `y`
  have hctx₃ : HoldsCtx (m₂.setParent y (m.parent x)) s x k := by
    refine hctx.congr ?_ (fun q _ => by simp [hred₂]) ?_
    · intro q hq g
      simp only [Mem.setParent_child, hch₂, Mem.setChild_child]
      rw [if_neg]
      rintro ⟨-, rfl⟩
      exact hxk hq
    · intro q hq
      rw [Mem.setParent_parent, if_neg (by rintro rfl; exact hyk hq)]
      refine hpar₂ q (ptr_ne ?_ (by rintro rfl; exact hsk hq))
      intro hqb
      have hnd' := h.rotation_apart.1
      simp only [List.nodup_cons, List.nodup_append, List.mem_append] at hnd'
      exact hnd'.2.2.2.1.2.2 q hqb q (Or.inr hq) rfl
  have hfit₃ : UnderCtx (m₂.setParent y (m.parent x)) x k := by
    refine hfit.congr ?_
    rw [Mem.setParent_parent, if_neg hxy, hpx₂]
  obtain ⟨m₄, root', hm₄, hroot', hpar₄, hred₄, hkey₄, hdata₄, hhole₄, hch₄⟩ :=
    rehang_spec (d := d) (m₂.setParent y (m.parent x)) y (zip_isEmpty_iff h) hfit₃ hctx₃ hxk
      (Ne.symm hsx)
  refine ⟨(m₄.setChild d y (some x)).setParent x (some y), root', ?_, ?_, ?_, ?_⟩
  · simp only [rotate, getChild_some, h3, ok_bind, g2, putChild_some, Mem.setChild_child,
      Dir.ne_other, false_and, if_false, hm₂, getParent_some, hpx₂, putParent_some, hm₄]
    rfl
  · rw [hroot']
    refine h.rotate ?_ ?_ ?_ ?_ ?_ ?_ ?_ ?_ ?_
    · -- the other child of `x`
      rw [Mem.setParent_child, Mem.setChild_child, if_neg (fun e => hxy e.2), hch₄]
      · simp [hch₂]
      · rintro f up rfl ⟨-, rfl⟩
        simp at hxk
    · simp
    · rintro f up rfl
      rw [Mem.setParent_child, Mem.setChild_child, if_neg]
      · exact hhole₄ f up rfl
      · rintro ⟨-, rfl⟩
        simp at hyk
    · intro g q h₁ h₂ h₃
      rw [Mem.setParent_child, Mem.setChild_child, if_neg h₂, hch₄ g q h₃, Mem.setParent_child,
        hch₂, Mem.setChild_child, if_neg h₁]
    · simp
    · rw [Mem.setParent_parent, if_neg (Ne.symm hxy), Mem.setChild_parent, hpar₄]
      simp
    · refine hunder₂.congr (fun q hq => ?_)
      rw [Mem.setParent_parent, if_neg (by rintro rfl; exact hxb hq), Mem.setChild_parent, hpar₄,
        Mem.setParent_parent, if_neg (by rintro rfl; exact hyb hq)]
    · intro q hqx hqy hqb
      rw [Mem.setParent_parent, if_neg hqx, Mem.setChild_parent, hpar₄, Mem.setParent_parent,
        if_neg hqy, hpar₂ q hqb, Mem.setChild_parent]
    · simp [hred₄, hred₂]
  · refine ⟨by simp [hkey₄, hrest₂.key], by simp [hdata₄, hrest₂.data], ?_⟩
    rw [Mem.setParent_parent, if_neg hsx, Mem.setChild_parent, hpar₄, Mem.setParent_parent,
      if_neg hsy, hrest₂.sentParent, Mem.setChild_parent]
  · simp [hred₄, hred₂]

end Corosched
