/-
# `rbtree_delete` removes exactly one node

Two nodes can leave their place.  A node with at most one child leaves itself; otherwise the
minimum `subst` of its right subtree leaves, and then takes the node's links and colour.  Either
way the focus is now on `temp`, the subtree that moved up: if a red node left, the whole still
fits, and if a black one left, the fixup loop starts from `Light`.
-/
import Corosched.Rbtree.DeleteFix

namespace Corosched

open RbZip

variable {P D : Type} [DecidableEq P]

variable {m : Mem P D} {s root p y : P} {d : Dir} {c cy : Bool} {t l r yr : RbTree P}
  {k spine : Ctx P}
  {n : Nat}

/-! ## 1. The node that leaves -/

/-- **`rbtree_node_min`** returns the leftmost node, which has no left child. -/
theorem rbtreeNodeMin_spec (h : Zip m s root t k) (hne : t ≠ .nil) (fuel : Nat)
    (hfuel : t.toList.length ≤ fuel) :
    ∃ cy y yr spine, rbtreeNodeMin m (some s) fuel (some (ptr s t)) = .ok (some y) ∧
      t = plug (.node cy .nil y yr) spine ∧ Ctx.before spine = [] := by
  induction t generalizing k fuel with
  | nil => exact absurd rfl hne
  | node c l p r ihl _ =>
    cases fuel with
    | zero => simp [RbTree.toList] at hfuel
    | succ fuel =>
      have hz : Zip m s root l (⟨.left, c, p, r⟩ :: k) := zip_join_iff (d := .left).mp h
      have hc : m.child .left p = some (ptr s l) := hz.frame_child
      by_cases hln : l = .nil
      · subst hln
        exact ⟨c, p, r, [], by simp [rbtreeNodeMin, hc], rfl, rfl⟩
      · have hlen : l.toList.length ≤ fuel := by
          simp only [RbTree.toList, List.length_append, List.length_cons] at hfuel
          omega
        obtain ⟨cy, y, yr, spine, hcode, hplug, hbef⟩ := ihl hz hln fuel hlen
        have hls : ptr s l ≠ s := fun e => by
          have := ptr_mem (s := s) hln
          rw [e] at this
          exact hz.fresh (List.mem_append_left _ this)
        refine ⟨cy, y, yr, spine ++ [⟨.left, c, p, r⟩], ?_, ?_, ?_⟩
        · simp [rbtreeNodeMin, hc, hls, hcode]
        · rw [plug_append, ← hplug]
          rfl
        · clear hplug hcode
          induction spine with
          | nil => rfl
          | cons f up ih =>
            obtain ⟨d, cf, q, sib⟩ := f
            cases d with
            | left => exact ih hbef
            | right => simp [Ctx.before] at hbef

omit [DecidableEq P] in
/-- A red node with one child leaves a tree that fits. -/
theorem fits_of_red (h : Fits (.join d true t p .nil) k n) : Fits t k n := by
  obtain ⟨ht, hk, -⟩ := h
  obtain ⟨htr, -, ht, -⟩ := RB_join_red.mp ht
  exact ⟨ht, hk, fun hr => by rw [htr] at hr; exact absurd hr (by simp)⟩

omit [DecidableEq P] in
/-- A black node with one child leaves a debt of one black node. -/
theorem light_of_black (h : Fits (.join d false t p .nil) k n) : Light t k 0 := by
  obtain ⟨ht, hk, -⟩ := h
  obtain ⟨n', rfl, ht, hn⟩ := RB_join_black.mp ht
  rw [RB_nil] at hn
  subst hn
  exact ⟨hk, fun _ => ht, ht.blacken⟩

/-! ## 2. Clearing the node that left -/

/-- `rbtree_node_init` on a node outside the tree. -/
theorem rbtreeNodeInit_zip (h : Zip m s root t k) (hp : p ∉ t.toList ++ Ctx.labels k)
    (hps : p ≠ s) :
    Zip (rbtreeNodeInit m p) s root t k := by
  rw [List.mem_append, not_or] at hp
  have hne : ∀ {l : List P}, p ∉ l → ∀ q ∈ l, q ≠ p := by
    rintro l hl q hq rfl
    exact hl hq
  have hc : ∀ q, q ≠ p → ∀ g, (rbtreeNodeInit m p).child g q = m.child g q :=
    fun q hq g => if_neg hq
  have hpar : ∀ q, q ≠ p → (rbtreeNodeInit m p).parent q = m.parent q :=
    fun q hq => Function.update_of_ne hq _ _
  refine ⟨h.tree.congr (fun q hq => hc q (hne hp.1 q hq)) (fun _ _ => rfl)
      (fun q hq => hpar q (hne hp.1 q (mem_of_mem_inner hq))),
    h.ctx.congr (fun q hq => hc q (hne hp.2 q hq)) (fun _ _ => rfl)
      (fun q hq => hpar q (hne hp.2 q hq)), ?_, h.root_eq, h.nodup, h.fresh, ?_, h.sent_red⟩
  · have hfit := h.fitted
    cases t with
    | nil => trivial
    | node c l q r => exact UnderCtx.congr hfit (hpar q (hne hp.1 q (by simp [RbTree.toList])))
  · exact fun g => (hc s hps.symm g).trans (h.sent_child g)

theorem ParentOk.nodeInit (h : ParentOk m s t k) (hp : p ∉ t.toList) (hps : p ≠ s) :
    ParentOk (rbtreeNodeInit m p) s t k := by
  intro f up hk
  exact (Function.update_of_ne (ptr_ne hp hps).symm _ _).trans (h f up hk)

/-! ## 3. After the removal -/

/-- **The end of `rbtree_delete`**: nothing to do when a red node left, the fixup loop when a
black one did. -/
theorem deleteRepair_spec (tree : Rbtree P) (red : Bool) (h : Zip m s root t k)
    (hp : ParentOk m s t k) (hred : red = true → ∃ n, Fits t k n)
    (hblack : red = false → ∃ n, Light t k n) (fuel : Nat) (hfuel : k.length < fuel) :
    ∃ m' root' T', (if red = true then pure (m, { tree with root := some root })
        else do
          let x ← deleteFix (some s) fuel m (some root) (some (ptr s t))
          pure (x.1, { tree with root := x.2 })) =
        Except.ok (m', ({ tree with root := some root' } : Rbtree P)) ∧
      Zip m' s root' T' [] ∧ Valid T' ∧ T'.toList = (plug t k).toList ∧
      m'.key = m.key ∧ m'.data = m.data := by
  cases red with
  | true =>
    obtain ⟨n, hfit⟩ := hred rfl
    exact ⟨m, root, plug t k, by simp, zip_plug_iff.mpr h, hfit.valid, rfl, rfl, rfl⟩
  | false =>
    obtain ⟨n, hl⟩ := hblack rfl
    have hf : (if t.red then 0 else k.length) < fuel := by split <;> omega
    obtain ⟨m', root', T', hcode, hz, hv, hlist, hkey, hdata⟩ := deleteFix_spec h hp hl fuel hf
    exact ⟨m', root', T', by simp [hcode], hz, hv, hlist, hkey, hdata⟩

/-- What `rbtree_delete` returns: the tree without `p`, and `p` cleared. -/
structure Deleted (m m' : Mem P D) (s p : P) (root' : P) (T T' : RbTree P) : Prop where
  zip : Zip m' s root' T' []
  valid : Valid T'
  split : ∃ A B, T.toList = A ++ p :: B ∧ T'.toList = A ++ B
  key : m'.key = Function.update m.key p 0
  data : m'.data = Function.update m.data p none

/-! ## 4. A node with at most one child -/

/-- `subst` is the node itself: its only subtree moves up. -/
theorem deleteOne_spec {tree : Rbtree P} (h : Zip m s root (.join d c t p .nil) k)
    (hfit : Fits (.join d c t p .nil) k n) (hsent : tree.sentinel = some s)
    (hroot : tree.root = some root) (fuel : Nat) (hfuel : k.length < fuel)
    (hchoose : deleteChoose fuel m (some s) p = .ok (some p, some (ptr s t))) :
    ∃ m' root' T', rbtreeDelete fuel m tree p = .ok (m', { tree with root := some root' }) ∧
      Deleted m m' s p root' (plug (.join d c t p .nil) k) T' := by
  obtain ⟨hnd, hs⟩ := h.apart
  simp only [RbTree.toList_nil, List.nil_append, List.nodup_cons, List.mem_cons, not_or,
    List.mem_append] at hnd hs
  obtain ⟨⟨hpt, hpk⟩, -⟩ := hnd
  obtain ⟨hsp, hst, hsk⟩ := hs
  have hsplit : ∀ t' : RbTree P, t'.toList = (plug t k).toList → ∃ A B,
      (plug (.join d c t p .nil) k).toList = A ++ p :: B ∧ t'.toList = A ++ B := by
    intro t' ht'
    rw [ht', toList_plug, toList_plug]
    cases d with
    | left =>
      exact ⟨Ctx.before k ++ t.toList, Ctx.after k, by simp [RbTree.join, RbTree.toList], by simp⟩
    | right =>
      exact ⟨Ctx.before k, t.toList ++ Ctx.after k, by simp [RbTree.join, RbTree.toList], by simp⟩
  obtain ⟨-, -, -, -, -, hht, -⟩ := holds_join.mp h.tree
  cases k with
  | nil =>
    -- the root leaves: its subtree becomes the tree, painted black
    have hr : root = p := by simpa using h.root_eq
    have hz₀ : Zip m s (ptr s t) t [] := by
      obtain ⟨hnd', -⟩ := List.nodup_append.mp (zip_join_iff.mp h).nodup
      exact ⟨hht, trivial, by cases t <;> trivial, rfl, by simpa using hnd', by simpa using hst,
        h.sent_child, h.sent_red⟩
    have hz₁ : Zip (m.setRed (ptr s t) false) s (ptr s t) t.blacken [] := by
      cases t with
      | nil =>
        refine ⟨trivial, trivial, trivial, rfl, by simp, by simp, hz₀.sent_child, by simp⟩
      | node c' l q r => exact (show Zip m s q (.join .left c' l q r) [] from hz₀).setRed false
    have hpb : p ∉ t.blacken.toList ++ Ctx.labels [] := by simpa using hpt
    refine ⟨_, ptr s t, t.blacken, ?_, rbtreeNodeInit_zip hz₁ hpb (Ne.symm hsp),
      ⟨RbTree.red_blacken t, ?_⟩,
      hsplit _ (RbTree.toList_blacken t), rfl, rfl⟩
    · simp [rbtreeDelete, hsent, hchoose, hroot, hr]
    · cases c with
      | true => exact absurd (hfit.2.2 (by simp)) (by simp [Ctx.red])
      | false =>
        have hl := light_of_black hfit
        cases htr : t.red with
        | true => exact ⟨1, hl.red htr⟩
        | false => exact ⟨0, by rw [RbTree.blacken_of_black htr]; exact hl.black htr⟩
  | cons f up =>
    have hpar : m.parent p = some f.p := h.parent
    have hred : m.red p = c := h.red
    have hne := h.frame_ne_root
    -- the two writes of the unlinking, then the node is cleared
    have hz₁ : Zip ((m.setChild f.dir f.p (some (ptr s t))).setParent (ptr s t) (some f.p)) s root t
        (f :: up) := h.unlink
    have hp₁ : ParentOk ((m.setChild f.dir f.p (some (ptr s t))).setParent (ptr s t) (some f.p)) s t
        (f :: up) := by
      intro g up' hg
      simp only [List.cons.injEq] at hg
      rw [← hg.1]
      simp
    have hp' : p ∉ t.toList ++ Ctx.labels (f :: up) := by
      rw [List.mem_append, not_or]; exact ⟨hpt, hpk⟩
    obtain ⟨m', root', T', hcode, hz, hv, hlist, hkey, hdata⟩ :=
      deleteRepair_spec tree c (rbtreeNodeInit_zip hz₁ hp' (Ne.symm hsp))
        (hp₁.nodeInit hpt (Ne.symm hsp)) (fun hc => ⟨n, fits_of_red (hc ▸ hfit)⟩)
        (fun hc => ⟨0, light_of_black (hc ▸ hfit)⟩) fuel hfuel
    refine ⟨m', root', T', ?_, hz, hv, hsplit T' hlist, hkey, hdata⟩
    have hside := side_eq h (Or.inl (RbTree.join_ne_nil _ _ _ _ _))
    rw [ptr_join] at hside
    rw [← hcode]
    simp only [rbtreeDelete, hsent, hchoose, ok_bind, hroot, Option.some.injEq, hne, if_false,
      rbtreeIsRed_some, hred, deleteUnlink, getParent_some, hpar, getChild_some, hside,
      putChild_some, deleteMove, if_true, Mem.setChild_parent, putParent_some, pure_eq_ok]

/-! ## 5. A node with two children -/

/-- **What pointed to `p` points to `y`.**  The memory is that of the tree with `p`, but for `y`,
which has got the links, the parent and the colour of `p`. -/
theorem takePlace_spec (m' : Mem P D) (h : Zip m s root (.node c l p r) k)
    (hy : y ∉ l.toList ∧ y ∉ r.toList ∧ y ∉ Ctx.labels k) (hyp : y ≠ p) (hys : y ≠ s)
    (hl : m'.child .left y = some (ptr s l)) (hr : m'.child .right y = some (ptr s r))
    (hred : m'.red y = c) (hpar : m'.parent y = m.parent p)
    (hchild : ∀ e q, q ≠ y → m'.child e q = m.child e q)
    (hcolor : ∀ q, q ≠ y → m'.red q = m.red q)
    (hparent : ∀ q, q ≠ y → q ≠ ptr s l → q ≠ ptr s r → m'.parent q = m.parent q) :
    ∃ m'' root', (do
        let (m, root) ← rehang .left m' (some root) (some p) (some y)
        let m ← reparent m (some s) (← getChild m .left (some y)) (some y)
        let m ← reparent m (some s) (← getChild m .right (some y)) (some y)
        pure (m, root)) = Except.ok (m'', some root') ∧
      Zip m'' s root' (.node c l y r) k ∧ SameRest s m' m'' := by
  have hz : Zip m s root (.join .left c l p r) k := h
  obtain ⟨hnd, hs⟩ := hz.apart
  simp only [List.nodup_cons, List.nodup_append, List.mem_append, List.mem_cons, not_or] at hnd hs
  obtain ⟨⟨hpl, hpr, hpk⟩, -, ⟨-, -, hrk⟩, hlrk⟩ := hnd
  obtain ⟨hsp, hsl, hsr, hsk⟩ := hs
  -- the context above sees none of the writes
  have hctx : HoldsCtx m' s p k := by
    refine h.ctx.congr (fun q hq e => ?_) (fun q hq => ?_) (fun q hq => ?_)
    all_goals have hqy : q ≠ y := fun e => hy.2.2 (e ▸ hq)
    · exact hchild e q hqy
    · exact hcolor q hqy
    · have hqs : q ≠ s := fun e => hsk (e ▸ hq)
      exact hparent q hqy (ptr_ne (fun hm => hlrk q hm q (Or.inr hq) rfl) hqs)
        (ptr_ne (fun hm => hrk q hm q hq rfl) hqs)
  have hup : UnderCtx m' p k :=
    UnderCtx.congr h.fitted
      (hparent p hyp.symm (ptr_ne hpl (Ne.symm hsp)) (ptr_ne hpr (Ne.symm hsp)))
  -- the three links to `y`
  obtain ⟨m₁, root', hm₁, hroot', hpar₁, hred₁, hkey₁, hdata₁, hhole₁, hch₁⟩ :=
    rehang_spec (d := .left) m' y (zip_isEmpty_iff hz) hup hctx hpk (Ne.symm hsp)
  have hyhead : ∀ e f up', k = f :: up' → ¬ (e = f.dir ∧ y = f.p) := by
    rintro e f up' rfl ⟨-, rfl⟩
    simp at hy
  have hl₁ : m₁.child .left y = some (ptr s l) := (hch₁ .left y (hyhead .left)).trans hl
  have hr₁ : m₁.child .right y = some (ptr s r) := (hch₁ .right y (hyhead .right)).trans hr
  obtain ⟨m₂, hm₂, hch₂, hred₂, hrest₂, hunder₂, hpar₂⟩ := reparent_spec m₁ y hsl
  obtain ⟨m₃, hm₃, hch₃, hred₃, hrest₃, hunder₃, hpar₃⟩ := reparent_spec m₂ y hsr
  have hpar' : ∀ q, q ≠ ptr s l → q ≠ ptr s r → m₃.parent q = m'.parent q := by
    intro q h₁ h₂
    rw [hpar₃ q h₂, hpar₂ q h₁, hpar₁]
  refine ⟨m₃, root', ?_, ?_, ?_⟩
  · simp only [hm₁, ok_bind, getChild_some, hl₁, hm₂, hch₂, hr₁, hm₃, pure_eq_ok]
  · have hz' : Zip m₃ s (if k.isEmpty then y else root) (.join .left c l y r) k := by
      refine hz.relabel hy hys ?_ ?_ ?_ ?_ ?_ hunder₃ ?_ ?_ ?_ ?_
      · rw [hch₃, hch₂, hl₁]
      · rw [hch₃, hch₂]
        exact hr₁
      · rw [hred₃, hred₂, hred₁, hred]
      · rw [hpar' y (ptr_ne hy.1 hys) (ptr_ne hy.2.1 hys), hpar]
      · refine hunder₂.congr fun q hq => hpar₃ q (ptr_ne (fun hm => ?_) ?_)
        · exact hlrk q hq q (Or.inl hm) rfl
        · rintro rfl
          exact hsl hq
      · intro f up' hk
        rw [hch₃, hch₂]
        exact hhole₁ f up' hk
      · intro q e _ hqy hhead
        rw [hch₃, hch₂, hch₁ e q hhead, hchild e q hqy]
      · intro q _ hqy
        rw [hred₃, hred₂, hred₁, hcolor q hqy]
      · intro q _ hqy hql hqr
        rw [hpar' q hql hqr, hparent q hqy hql hqr]
    exact hroot' ▸ hz'
  · exact SameRest.trans ⟨hkey₁, hdata₁, by rw [hpar₁]⟩ (hrest₂.trans hrest₃)

/-- **The splice.**  `y`, the minimum of the right subtree, has left its place to its own right
subtree `yr`; it now takes the place of `p`.  The focus stays on `yr`. -/
theorem deleteSplice_spec {g : Frame P} {up : Ctx P}
    (h : Zip m s root (.node cy .nil y yr) (spine ++ ⟨.right, c, p, l⟩ :: k))
    (hg : spine ++ ⟨.right, c, p, l⟩ :: k = g :: up) :
    ∃ m' root', deleteSplice (m.setChild g.dir g.p (some (ptr s yr))) (some root) (some s) p
        (some y) (some (ptr s yr)) = .ok (m', some root') ∧
      Zip m' s root' yr (spine ++ ⟨.right, c, y, l⟩ :: k) ∧
      ParentOk m' s yr (spine ++ ⟨.right, c, y, l⟩ :: k) ∧ m'.key = m.key ∧ m'.data = m.data := by
  have hzy : Zip m s root (.join .right cy yr y .nil) (g :: up) := hg ▸ h
  have hgy : m.parent y = some g.p := hzy.parent
  -- the memory in which `y` has only left its place
  have hv : Zip ((m.setChild g.dir g.p (some (ptr s yr))).setParent (ptr s yr) (some g.p)) s root
      (.join .left c l p (plug yr spine)) k := by
    have hz := hzy.unlink
    rw [← hg, ← zip_append_iff] at hz
    exact (zip_join_iff (d := .right)).mpr hz
  -- who is apart from whom
  obtain ⟨hyout, hsout⟩ := hzy.apart
  rw [← hg] at hyout hsout
  simp only [RbTree.toList_nil, List.nil_append, Ctx.labels, List.flatMap_append,
    List.flatMap_cons, List.cons_append, List.nodup_cons, List.nodup_append, List.mem_append,
    List.mem_cons, not_or] at hyout hsout
  obtain ⟨⟨hyyr, hysp, hyp, hyl, hyk⟩, -, ⟨-, -, hspa⟩, hyra⟩ := hyout
  obtain ⟨hsy, hsyr, hssp, hsp, hsl, hsk⟩ := hsout
  have hpsp : p ∉ Ctx.labels spine := fun hm => hspa p hm p (Or.inl rfl) rfl
  have hpy : p ≠ ptr s yr := ptr_ne (fun hm => hyra p hm p (Or.inr (Or.inl rfl)) rfl) (Ne.symm hsp)
  have hyr₁ : y ∉ (plug yr spine).toList := by
    rw [(toList_plug_perm yr spine).mem_iff, List.mem_append, not_or]
    exact ⟨hyyr, hysp⟩
  have hspine : g.p = p → spine = [] := by
    intro hgp
    cases spine with
    | nil => rfl
    | cons f sp =>
      simp only [List.cons_append, List.cons.injEq] at hg
      rw [← hg.1] at hgp
      exact absurd (by simp [hgp]) hpsp
  -- `y` gets the links, the parent and the colour of `p`
  obtain ⟨tp, htp⟩ : ∃ tp, tp = (if g.p = p then y else g.p) := ⟨_, rfl⟩
  obtain ⟨m₆, hm₆⟩ : ∃ m₆ : Mem P D, m₆ = (((((m.setChild g.dir g.p (some (ptr s yr))).setParent
      (ptr s yr) (some tp)).setChild .left y (some (ptr s l))).setChild .right y
      (some (ptr s (plug yr spine)))).setParent y (m.parent p)).setRed y c := ⟨_, rfl⟩
  have hparent : ∀ q, q ≠ y → q ≠ ptr s l → q ≠ ptr s (plug yr spine) → m₆.parent q =
      ((m.setChild g.dir g.p (some (ptr s yr))).setParent (ptr s yr) (some g.p)).parent q := by
    intro q hqy _ hqr
    rw [hm₆, Mem.setRed_parent, Mem.setParent_parent, if_neg hqy, Mem.setChild_parent,
      Mem.setChild_parent, Mem.setParent_parent, Mem.setParent_parent]
    by_cases hqt : q = ptr s yr
    · -- the root of `yr` has its parent from the unlinking, or it is the root of `plug yr spine`
      rw [if_pos hqt, if_pos hqt, htp, if_neg]
      intro hgp
      rw [hspine hgp, plug_nil] at hqr
      exact hqr hqt
    · rw [if_neg hqt, if_neg hqt]
  obtain ⟨m', root', hcode, hz, hrest⟩ := takePlace_spec m₆ hv ⟨hyl, hyr₁, hyk⟩ hyp
    (Ne.symm hsy) (by simp [hm₆, Mem.setChild_child]) (by simp [hm₆]) (by simp [hm₆])
    (by simp [hm₆, Mem.setParent_parent, hpy])
    (fun e q hq => by simp [hm₆, Mem.setChild_child, hq])
    (fun q hq => by simp [hm₆, Mem.setRed_red, hq]) hparent
  have hz' : Zip m' s root' yr (spine ++ ⟨.right, c, y, l⟩ :: k) := by
    rw [← zip_append_iff]
    exact zip_join_iff.mp (show Zip m' s root' (.join .right c (plug yr spine) y l) k from hz)
  refine ⟨m', root', ?_, hz', ?_, ?_, ?_⟩
  · have hcl : (m.setChild g.dir g.p (some (ptr s yr))).child .left p = some (ptr s l) := hv.child
    have hcr : (m.setChild g.dir g.p (some (ptr s yr))).child .right p =
        some (ptr s (plug yr spine)) := hv.child_other
    have hcp : m.red p = c := hv.red
    have hsel : (if (some g.p : Option P) = some p then some y else some g.p) = some tp := by
      rw [htp]
      by_cases hgp : g.p = p <;> simp [hgp]
    have hcr' : ((m.setChild g.dir g.p (some (ptr s yr))).setParent (ptr s yr) (some tp)
        |>.setChild .left y (some (ptr s l))).child .right p = some (ptr s (plug yr spine)) := by
      rw [Mem.setChild_child, if_neg (by simp)]
      exact hcr
    rw [hm₆] at hcode
    rw [← hcode]
    simp only [deleteSplice, getParent_some, Mem.setChild_parent, hgy, ok_bind, hsel,
      putParent_some, Mem.setParent_child, hcl, putChild_some, hcr', Mem.setParent_parent, hpy,
      if_false, putRed_some, Mem.setParent_red, Mem.setChild_red, hcp]
  · cases hyrn : yr with
    | node c' l' q r' =>
      rw [← hyrn]
      exact .of_ne_nil hz' (by rw [hyrn]; simp)
    | nil =>
      subst hyrn
      intro f up' hf
      have hsparent : m'.parent s = some tp := by
        rw [hrest.sentParent, hm₆, Mem.setRed_parent, Mem.setParent_parent, if_neg hsy,
          Mem.setChild_parent, Mem.setChild_parent, ptr_nil, Mem.setParent_same]
      rw [ptr_nil, hsparent, htp]
      cases spine with
      | nil =>
        simp only [List.nil_append, List.cons.injEq] at hf hg
        rw [← hf.1, ← hg.1]
        simp
      | cons f₀ sp =>
        simp only [List.cons_append, List.cons.injEq] at hf hg
        rw [← hf.1, ← hg.1, if_neg]
        rintro rfl
        simp at hpsp
  · rw [hrest.key, hm₆]
    rfl
  · rw [hrest.data, hm₆]
    rfl

omit [DecidableEq P] in
/-- The labels after the leftmost node has left. -/
theorem toList_leftmost (hb : Ctx.before spine = []) :
    (plug (.node cy .nil y yr) spine).toList = y :: (plug yr spine).toList := by
  rw [toList_plug, toList_plug, hb]
  simp [RbTree.toList]

/-- `subst` is the successor of the node: it leaves its place and takes the node's. -/
theorem deleteTwo_spec {tree : Rbtree P}
    (h : Zip m s root (.node c l p (plug (.node cy .nil y yr) spine)) k)
    (hfit : Fits (.node c l p (plug (.node cy .nil y yr) spine)) k n)
    (hb : Ctx.before spine = []) (hsent : tree.sentinel = some s) (hroot : tree.root = some root)
    (fuel : Nat) (hfuel : (spine ++ ⟨.right, c, p, l⟩ :: k).length < fuel)
    (hchoose : deleteChoose fuel m (some s) p = .ok (some y, some (ptr s yr))) :
    ∃ m' root' T', rbtreeDelete fuel m tree p = .ok (m', { tree with root := some root' }) ∧
      Deleted m m' s p root' (plug (.node c l p (plug (.node cy .nil y yr) spine)) k) T' := by
  have hz : Zip m s root (.node cy .nil y yr) (spine ++ ⟨.right, c, p, l⟩ :: k) :=
    zip_append_iff.mp (zip_join_iff.mp (show Zip m s root (.join .right c _ p l) k from h))
  obtain ⟨n', hf⟩ : ∃ n',
      Fits (.join .right cy yr y .nil) (spine ++ ⟨.right, c, p, l⟩ :: k) n' := by
    obtain ⟨hT, N, hN⟩ := hfit.valid
    have hplug : plug (.node c l p (plug (.node cy .nil y yr) spine)) k =
        plug (.join .right cy yr y .nil) (spine ++ ⟨.right, c, p, l⟩ :: k) := by
      rw [plug_append]
      rfl
    rw [hplug] at hT hN
    exact Fits.refocus ⟨hN, trivial, fun hr => by rw [hT] at hr; exact absurd hr (by simp)⟩
  have hyne : y ≠ p := by
    rintro rfl
    exact (List.nodup_append.mp hz.nodup).2.2 y (by simp [RbTree.toList]) y
      (by simp [Ctx.labels]) rfl
  obtain ⟨g, up, hg⟩ : ∃ g up, spine ++ ⟨.right, c, p, l⟩ :: k = g :: up := by
    cases spine with
    | nil => exact ⟨_, _, rfl⟩
    | cons f sp => exact ⟨_, _, rfl⟩
  obtain ⟨m₁, root₁, hsplice, hz₁, hp₁, hkey₁, hdata₁⟩ := deleteSplice_spec hz hg
  have hpin : p ∈ Ctx.labels (spine ++ ⟨.right, c, p, l⟩ :: k) := by simp [Ctx.labels]
  have hps : p ≠ s := by
    rintro rfl
    exact hz.fresh (List.mem_append_right _ hpin)
  have hout : p ∉ yr.toList ++ Ctx.labels (spine ++ ⟨.right, c, y, l⟩ :: k) := by
    have hnd := hz.nodup
    simp only [RbTree.toList, Ctx.labels, List.flatMap_append, List.flatMap_cons, List.nil_append,
      List.cons_append, List.nodup_cons, List.nodup_append, List.mem_append, List.mem_cons,
      not_or] at hnd ⊢
    obtain ⟨-, -, ⟨-, ⟨⟨hpl, hpk⟩, -⟩, hsp⟩, hyr⟩ := hnd
    exact ⟨fun hm => hyr p hm p (Or.inr (Or.inl rfl)) rfl, fun hm => hsp p hm p (Or.inl rfl) rfl,
      hyne.symm, hpl, hpk⟩
  have hout' : p ∉ yr.toList := fun hm => hout (List.mem_append_left _ hm)
  have hlen : (spine ++ ⟨.right, c, y, l⟩ :: k).length < fuel := by
    simpa using hfuel
  obtain ⟨m', root', T', hcode, hz', hv, hlist, hkey, hdata⟩ :=
    deleteRepair_spec tree cy (rbtreeNodeInit_zip hz₁ hout hps)
      (hp₁.nodeInit hout' hps)
      (fun hc => by
        obtain ⟨ht, hk, hr⟩ := fits_of_red (hc ▸ hf)
        have htr := (RB_join_red.mp (hc ▸ hf.1)).1
        exact ⟨n', ht, hk.relabel, fun hr' => by rw [htr] at hr'; exact absurd hr' (by simp)⟩)
      (fun hc => by
        have hl := light_of_black (hc ▸ hf)
        exact ⟨0, hl.ctx.relabel, hl.black, hl.red⟩) fuel hlen
  refine ⟨m', root', T', ?_, hz', hv, ?_, ?_, ?_⟩
  · have hside : (if some y = m.child .left g.p then Dir.left else Dir.right) = g.dir := by
      rw [hg] at hz
      exact side_eq hz (Or.inl (by simp))
    have hpar : m.parent y = some g.p := by
      rw [hg] at hz
      exact hz.fitted
    have hred : m.red y = cy := (show Zip m s root (.join .left cy .nil y yr) _ from hz).red
    have hne : y ≠ root := by
      rw [hg] at hz
      exact (show Zip m s root (.join .left cy .nil y yr) _ from hz).frame_ne_root
    rw [← hcode]
    simp only [rbtreeDelete, hsent, hchoose, ok_bind, hroot, Option.some.injEq, hne, if_false,
      rbtreeIsRed_some, hred, deleteUnlink, getParent_some, hpar, getChild_some, hside,
      putChild_some, deleteMove, hyne, hsplice]
  · refine ⟨Ctx.before k ++ l.toList, y :: ((plug yr spine).toList ++ Ctx.after k), ?_, ?_⟩
    · rw [toList_plug]
      simp [RbTree.toList, toList_leftmost hb]
    · rw [hlist, plug_append, plug_cons, toList_plug]
      simp [Frame.attach, RbTree.join, RbTree.toList]
  · rw [hkey, rbtreeNodeInit, hkey₁]
  · rw [hdata, rbtreeNodeInit, hdata₁]

/-! ## 6. The whole deletion -/

omit [DecidableEq P] in
theorem Zip.length_le {T : RbTree P} (hT : T = plug t k) : k.length ≤ T.toList.length := by
  have h₁ := Ctx.length_le_labels k
  have h₂ := (toList_plug_perm t k).length_eq
  rw [List.length_append] at h₂
  rw [hT]
  omega

/-- **`rbtree_delete`** of a node of the tree returns a valid tree that holds the other nodes in
the same order, and clears the node. -/
theorem rbtreeDelete_spec {tree : Rbtree P} {T : RbTree P} (h : RbOk m tree s T) (hp : p ∈ T.toList)
    (fuel : Nat) (hfuel : T.toList.length < fuel) :
    ∃ m' tree' T' A B, rbtreeDelete fuel m tree p = .ok (m', tree') ∧ RbOk m' tree' s T' ∧
      T.toList = A ++ p :: B ∧ T'.toList = A ++ B ∧ m'.key = Function.update m.key p 0 ∧
      m'.data = Function.update m.data p none := by
  obtain ⟨c, l, r, k, hT⟩ := exists_plug hp
  have hz : Zip m s (ptr s T) (.node c l p r) k := by
    have := h.zip
    rw [hT] at this ⊢
    exact zip_plug_iff.mp this
  obtain ⟨n, hfit⟩ : ∃ n, Fits (.node c l p r) k n := by
    obtain ⟨N, hN⟩ := h.valid.fits
    exact Fits.refocus (hT ▸ hN)
  have hcl : m.child .left p = some (ptr s l) :=
    (show Zip m s _ (.join .left c l p r) k from hz).child
  have hcr : m.child .right p = some (ptr s r) :=
    (show Zip m s _ (.join .left c l p r) k from hz).child_other
  have hfresh := hz.fresh
  simp only [RbTree.toList, List.mem_append, List.mem_cons, not_or] at hfresh
  obtain ⟨⟨hsl, hsp, hsr⟩, -⟩ := hfresh
  have hps : p ≠ s := Ne.symm hsp
  have hroot := h.root
  -- which node leaves
  have hdel : ∃ m' root' T',
      rbtreeDelete fuel m tree p = .ok (m', { tree with root := some root' }) ∧
      Deleted m m' s p root' T T' := by
    by_cases hl : l = .nil
    · subst hl
      rw [hT]
      refine deleteOne_spec (d := .right) (t := r) hz hfit h.sentinel hroot fuel ?_ ?_
      · exact Nat.lt_of_le_of_lt (Zip.length_le hT) hfuel
      · simp [deleteChoose, hcl, hcr]
    · have hls : ptr s l ≠ s := (ptr_eq_sent hsl).not.mpr hl
      by_cases hr : r = .nil
      · subst hr
        rw [hT]
        refine deleteOne_spec (d := .left) (t := l) hz hfit h.sentinel hroot fuel ?_ ?_
        · exact Nat.lt_of_le_of_lt (Zip.length_le hT) hfuel
        · simp [deleteChoose, hcl, hcr, hls]
      · have hrs : ptr s r ≠ s := (ptr_eq_sent hsr).not.mpr hr
        have hzr : Zip m s (ptr s T) r (⟨.right, c, p, l⟩ :: k) :=
          zip_join_iff.mp (show Zip m s _ (.join .right c r p l) k from hz)
        have hlen : r.toList.length ≤ fuel := by
          have := (toList_plug_perm (.node c l p r) k).length_eq
          rw [← hT] at this
          simp only [RbTree.toList, List.length_append, List.length_cons] at this
          omega
        obtain ⟨cy, y, yr, spine, hmin, rfl, hb⟩ := rbtreeNodeMin_spec hzr hr fuel hlen
        have hzy : Zip m s (ptr s T) (.join .left cy .nil y yr) (spine ++ ⟨.right, c, p, l⟩ :: k) :=
          zip_append_iff.mp hzr
        rw [hT]
        refine deleteTwo_spec hz hfit hb h.sentinel hroot fuel ?_ ?_
        · refine Nat.lt_of_le_of_lt (Zip.length_le (t := .node cy .nil y yr) ?_) hfuel
          rw [hT, plug_append]
          rfl
        · have hyl := hzy.child
          have hyr := hzy.child_other
          simp only [ptr_nil, Dir.other] at hyl hyr
          simp [deleteChoose, hcl, hcr, hls, hrs, hmin, hyl, hyr]
  obtain ⟨m', root', T', hcode, hdz, hdv, ⟨A, B, hA, hB⟩, hkey, hdata⟩ := hdel
  have hr' : root' = ptr s T' := by simpa using hdz.root_eq
  have hAB : ∀ q ∈ A ++ B, m'.key q = m.key q := by
    intro q hq
    rw [hkey, Function.update_of_ne]
    rintro rfl
    have hnd := h.nodup
    rw [hA, List.nodup_middle, List.nodup_cons] at hnd
    exact hnd.1 hq
  refine ⟨m', { tree with root := some root' }, T', A, B, hcode,
    ⟨h.sentinel, congrArg some hr', hr' ▸ hdz, hdv, ?_, ?_, ?_⟩, hA, hB, hkey, hdata⟩
  · rw [hB]
    have hsorted := h.sorted
    rw [hA] at hsorted
    have hsub : (A ++ B).Pairwise (fun q r => m.key q ≤ m.key r) :=
      hsorted.sublist (List.Sublist.append_left (List.sublist_cons_self p B) A)
    refine hsub.imp_of_mem fun hq hr hle => ?_
    rw [hAB _ hq, hAB _ hr]
    exact hle
  · rw [hkey, Function.update_of_ne hps.symm, h.sent_key]
  · rw [hdata, Function.update_of_ne hps.symm, h.sent_data]

end Corosched
