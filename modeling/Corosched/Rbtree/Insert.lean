/-
# `rbtree_insert` keeps a valid tree

The re-balancing loop carries `Unsettled`: a red subtree at the focus that is red-black in
itself, in a context that is red-black around it, where the only thing that may be wrong is
that the parent is red too.  Each iteration shortens the context, so the loop ends, and where
it ends painting the root black makes the whole tree valid.
-/
import Corosched.Rbtree.Rotate

namespace Corosched

open RbZip

variable {P D : Type} [DecidableEq P]

/-! ## 1. One iteration -/

/-- The invariant of the re-balancing loop: only the edge above the focus may be red-red. -/
structure Unsettled (t : RbTree P) (k : Ctx P) (n : Nat) : Prop where
  red : t.red = true
  rb : RB t n
  ctx : CtxRB k n

variable {m : Mem P D} {s root x u : P} {d e : Dir} {c : Bool} {t a b u₁ u₂ : RbTree P}
  {f₁ f₂ : Frame P} {k : Ctx P} {n : Nat}

/-- The red uncle: three writes, and the focus moves to the grandparent. -/
theorem insertFixRecolour_spec (h : Zip m s root (.join d true a x b) (f₁ :: f₂ :: k))
    (hsib : f₂.sib = .join e c u₁ u u₂) :
    ∃ m', insertFixRecolour m (some x) (some u) = .ok (m', some f₂.p) ∧
      Zip m' s root (.join f₂.dir true (.join f₁.dir false (.join d true a x b) f₁.p f₁.sib) f₂.p
        (.join e false u₁ u u₂)) k ∧ SameRest s m m' := by
  have h₁ := h.setRed_frame false
  have h₂ := (zip_attach_iff.mpr h₁).setRed_sib hsib false
  have h₃ := h₂.setRed_frame true
  refine ⟨_, ?_, zip_attach_iff.mpr h₃, ⟨rfl, rfl, rfl⟩⟩
  simp [insertFixRecolour, h.parent, h.frame_parent]

/-- The turn: afterwards `node` is an outer grandchild. -/
theorem insertFixTurn_spec (h : Zip m s root (.join f₂.dir true a x b) (f₁ :: f₂ :: k))
    (hf₁ : f₁.red = true) (hrb : RB (.join f₂.dir true a x b) n) (hs : RB f₁.sib n)
    (hsr : f₁.sib.red = false) :
    ∃ m' root' a' x' b' y sib, insertFixTurn f₂.dir m (some root) (some s) (some x) =
        .ok (m', some root', some x') ∧
      Zip m' s root' (.join f₂.dir true a' x' b') (⟨f₂.dir, true, y, sib⟩ :: f₂ :: k) ∧
      RB (.join f₂.dir true a' x' b') n ∧ RB sib n ∧ sib.red = false ∧
      (RbTree.join f₂.dir true (.join f₂.dir true a' x' b') y sib).toList =
        (f₁.attach (.join f₂.dir true a x b)).toList ∧ SameRest s m m' := by
  have hne := h.ptr_ne_sib (Or.inl (by simp))
  rw [ptr_join] at hne
  by_cases hd : f₁.dir = f₂.dir
  · refine ⟨m, root, a, x, b, f₁.p, f₁.sib, ?_, ?_, hrb, hs, hsr, ?_, .refl s m⟩
    · have hin : m.child f₂.dir.other f₁.p = some (ptr s f₁.sib) := hd ▸ h.frame_sib
      simp [insertFixTurn, h.parent, hin, hne]
    · rw [← hd, ← hf₁]
      rw [← hd, ← hf₁] at h
      exact h
    · rw [Frame.attach, hd, hf₁]
  · have hd' : f₁.dir = f₂.dir.other := Dir.eq_other_of_ne hd
    have h' : Zip m s root (.join f₂.dir true f₁.sib f₁.p (.join f₂.dir true a x b)) (f₂ :: k) := by
      have := zip_attach_iff.mpr h
      rwa [Frame.attach, hd', hf₁, RbTree.join_other] at this
    obtain ⟨m', root', hrot, hz, hrest, -⟩ := rotate_spec h'
    obtain ⟨har, hbr, ha, hb⟩ := RB_join_red.mp hrb
    refine ⟨m', root', f₁.sib, f₁.p, a, x, b, ?_, zip_join_iff.mp hz, ?_, hb, hbr, ?_, hrest⟩
    · have hin : m.child f₂.dir.other f₁.p = some x := by
        have := h.frame_child
        rwa [hd', ptr_join] at this
      simp [insertFixTurn, h.parent, hin, hrot]
    · exact RB_join_red.mpr ⟨hsr, har, hs, ha⟩
    · rw [Frame.attach, hd', hf₁, RbTree.join_other]
      exact (RbTree.toList_rotate _ _ _ _ _ _ _ _ _ _).symm

/-- **One iteration of the re-balancing loop** keeps the invariant, shortens the context and
moves no label. -/
theorem insertFixBody_spec (h : Zip m s root t (f₁ :: f₂ :: k)) (hu : Unsettled t (f₁ :: f₂ :: k) n)
    (hf₁ : f₁.red = true) :
    ∃ m' root' t' k' n', insertFixBody f₂.dir m (some root) (some s) (some (ptr s t)) =
        .ok (m', some root', some (ptr s t')) ∧
      Zip m' s root' t' k' ∧ Unsettled t' k' n' ∧ k'.length < (f₁ :: f₂ :: k).length ∧
      (plug t' k').toList = (plug t (f₁ :: f₂ :: k)).toList ∧ SameRest s m m' := by
  obtain ⟨a, x, b, rfl⟩ : ∃ a x b, t = .join f₂.dir true a x b := by
    have hr := hu.red
    cases t with
    | nil => simp at hr
    | node c l p r =>
      simp only [RbTree.red] at hr
      subst hr
      obtain ⟨a, b, hab⟩ := RbTree.exists_join f₂.dir true l r p
      exact ⟨a, p, b, hab⟩
  obtain ⟨hs, hc, hk⟩ := CtxRB_cons.mp hu.ctx
  obtain ⟨hsr, hf₂⟩ := hc hf₁
  have hf₂ : f₂.red = false := hf₂
  rw [hf₁] at hk
  obtain ⟨hus, -, hk⟩ := CtxRB_cons.mp hk
  simp only [hf₂, if_true, Bool.false_eq_true, if_false] at hus hk
  have hpx := h.parent
  have hpp := h.frame_parent
  have hz₂ : Zip m s root (f₁.attach (.join f₂.dir true a x b)) (f₂ :: k) := zip_attach_iff.mpr h
  have hunc := hz₂.frame_sib
  have hured : m.red (ptr s f₂.sib) = f₂.sib.red := (zip_swap.mp hz₂).red_ptr
  rw [ptr_join]
  cases hur : f₂.sib.red with
  | true =>
    -- the uncle is red: the violation moves two levels up
    obtain ⟨u₁, u, u₂, husib⟩ : ∃ u₁ u u₂, f₂.sib = .join .left true u₁ u u₂ := by
      cases hsib : f₂.sib with
      | nil => rw [hsib] at hur; simp at hur
      | node c l p r =>
        rw [hsib] at hur
        simp only [RbTree.red] at hur
        exact ⟨l, p, r, by rw [hur]; rfl⟩
    obtain ⟨m', hcode, hz, hrest⟩ := insertFixRecolour_spec h husib
    refine ⟨m', root, _, k, n + 1, ?_, hz, ⟨by simp, ?_, by simpa using hk⟩,
      by simp only [List.length_cons]; omega, ?_, hrest⟩
    · rw [husib, ptr_join] at hunc hured
      simp [insertFixBody, hpx, hpp, hunc, hured, hcode]
    · have huR : RB (.join .left false u₁ u u₂) (n + 1) := by
        have := RB.blacken hus (by rw [husib]; simp)
        rwa [husib, RbTree.blacken_join] at this
      exact RB_join_red.mpr ⟨by simp, by simp, RB_join_black_succ.mpr ⟨hu.rb, hs⟩, huR⟩
    · simp only [plug_cons]
      refine toList_plug_congr (RbTree.toList_join_congr ?_ ?_) k
      · exact RbTree.toList_join_congr rfl rfl
      · rw [husib]; exact RbTree.toList_join_congr rfl rfl
  | false =>
    -- the uncle is black: at most two rotations settle it
    obtain ⟨m₁, root₁, a', x', b', y, sib, hturn, hz₁, hrb', hsib', hsibr', hlist, hrest₁⟩ :=
      insertFixTurn_spec h hf₁ hu.rb hs hsr
    have hpx₁ := hz₁.parent
    have hpp₁ := hz₁.frame_parent
    have hz₃ := (zip_attach_iff.mpr (hz₁.setRed_frame false)).setRed_frame true
    have hz₄ : Zip ((m₁.setRed y false).setRed f₂.p true) s root₁
        (.join f₂.dir.other true f₂.sib f₂.p (.join f₂.dir.other false sib y
          (.join f₂.dir true a' x' b'))) k := by
      have := zip_attach_iff.mpr hz₃
      simpa [Frame.attach, RbTree.join_other] using this
    obtain ⟨m', root', hrot, hz, hrest, -⟩ := rotate_spec hz₄
    rw [RbTree.join_other, RbTree.join_other] at hz
    refine ⟨m', root', .join f₂.dir true a' x' b',
      ⟨f₂.dir, false, y, .join f₂.dir true sib f₂.p f₂.sib⟩ :: k,
      n, ?_, zip_join_iff.mp hz, ⟨by simp, hrb', ?_⟩, by simp, ?_, ?_⟩
    · simp [insertFixBody, hpx, hpp, hunc, hured, hur, hturn, hpx₁, hpp₁, hrot]
    · exact CtxRB_cons.mpr ⟨RB_join_red.mpr ⟨hsibr', hur, hsib', hus⟩, by simp, by simpa using hk⟩
    · simp only [plug_cons]
      refine toList_plug_congr ?_ k
      exact (RbTree.toList_rotate f₂.dir false true true f₂.red _ sib f₂.sib y f₂.p).trans
        (RbTree.toList_join_congr hlist rfl)
    · exact hrest₁.trans ⟨hrest.key, hrest.data, hrest.sentParent⟩

/-! ## 2. The loop -/

/-- **The re-balancing loop** ends within one more iteration than the context has frames, with a
tree that is valid once its root is black. -/
theorem insertFix_spec {m : Mem P D} {s root : P} {t : RbTree P} {k : Ctx P} {n : Nat}
    (h : Zip m s root t k) (hu : Unsettled t k n) (fuel : Nat) (hfuel : k.length < fuel) :
    ∃ m' root' t', insertFix (some s) fuel m (some root) (some (ptr s t)) =
        .ok (m', some root') ∧
      Zip m' s root' t' [] ∧ t' ≠ .nil ∧ Valid t'.blacken ∧
      t'.toList = (plug t k).toList ∧ SameRest s m m' := by
  induction fuel generalizing m root t k n with
  | zero => omega
  | succ fuel ih =>
    have hne : t ≠ .nil := by
      rintro rfl
      simpa using hu.red
    cases k with
    | nil =>
      refine ⟨m, root, t, ?_, h, hne, ?_, rfl, .refl s m⟩
      · have := h.root_eq
        rw [top_nil] at this
        simp [insertFix, this]
      · exact ⟨RbTree.red_blacken t, n + 1, hu.rb.blacken hu.red⟩
    | cons f₁ up =>
      have hpx : m.parent (ptr s t) = some f₁.p := by
        cases t with
        | nil => exact absurd rfl hne
        | node c l p r => exact h.fitted
      cases hf₁ : f₁.red with
      | false =>
        -- the parent is black: nothing is wrong
        refine ⟨m, root, plug t (f₁ :: up), ?_, zip_plug_iff.mpr h, ?_, ?_, rfl, .refl s m⟩
        · have hr : m.red f₁.p = false := h.frame_red.trans hf₁
          simp [insertFix, hpx, hr, h.ptr_ne_root]
        · intro hnil
          have := (toList_plug_perm t (f₁ :: up)).length_eq
          simp [hnil] at this
        · have hfit : Fits t (f₁ :: up) n := ⟨hu.rb, hu.ctx, fun _ => hf₁⟩
          rw [RbTree.blacken_of_black hfit.valid.1]
          exact hfit.valid
      | true =>
        obtain ⟨-, hc, -⟩ := CtxRB_cons.mp hu.ctx
        obtain ⟨f₂, up₂, rfl⟩ : ∃ f₂ up₂, up = f₂ :: up₂ := by
          cases up with
          | nil => simpa [Ctx.red] using (hc hf₁).2
          | cons f₂ up₂ => exact ⟨f₂, up₂, rfl⟩
        obtain ⟨m₁, root₁, t₁, k₁, n₁, hbody, hz₁, hu₁, hlen, hlist, hrest₁⟩ :=
          insertFixBody_spec h hu hf₁
        obtain ⟨m', root', t', hloop, hz', hne', hv, hlist', hrest'⟩ := ih hz₁ hu₁ (by omega)
        refine ⟨m', root', t', ?_, hz', hne', hv, hlist'.trans hlist, hrest₁.trans hrest'⟩
        have hr : m.red f₁.p = true := h.frame_red.trans hf₁
        have hside : (if some f₁.p = m.child .left f₂.p then Dir.left else Dir.right) = f₂.dir := by
          have := side_eq (zip_attach_iff.mpr h) (Or.inl (RbTree.join_ne_nil _ _ _ _ _))
          rwa [ptr_attach] at this
        simp [insertFix, hpx, hr, h.ptr_ne_root, h.frame_parent, hside, hbody, hloop]

/-! ## 3. The whole insertion -/

/-- **The tree in memory.**  `tree` points to a valid red-black tree `T` whose keys are
nondecreasing in order, and the sentinel is as `rbtree_init` left it. -/
structure RbOk (m : Mem P D) (tree : Rbtree P) (s : P) (T : RbTree P) : Prop where
  sentinel : tree.sentinel = some s
  root : tree.root = some (ptr s T)
  zip : Zip m s (ptr s T) T []
  valid : Valid T
  sorted : T.toList.Pairwise (fun p q => m.key p ≤ m.key q)
  sent_key : m.key s = 0
  sent_data : m.data s = none

omit [DecidableEq P] in
theorem RbOk.fresh {m : Mem P D} {tree : Rbtree P} {s : P} {T : RbTree P} (h : RbOk m tree s T) :
    s ∉ T.toList := by simpa using h.zip.fresh

omit [DecidableEq P] in
theorem RbOk.nodup {m : Mem P D} {tree : Rbtree P} {s : P} {T : RbTree P} (h : RbOk m tree s T) :
    T.toList.Nodup := by simpa using h.zip.nodup

/-- `rbtree_init` sets up the empty tree. -/
theorem rbtreeInit_spec (m : Mem P D) (s : P) :
    RbOk (rbtreeInit m s).1 (rbtreeInit m s).2 s .nil := by
  refine ⟨rfl, rfl, ⟨trivial, trivial, trivial, rfl, by simp, by simp, ?_, ?_⟩, ⟨rfl, 0, rfl⟩,
    by simp, ?_, ?_⟩ <;> simp [rbtreeInit, rbtreeNodeInit]

/-- **The descent** ends at an absent child; what precedes that place has smaller or equal keys,
what follows it larger ones. -/
theorem insertDescend_spec {m : Mem P D} {s root : P} {t : RbTree P} {k : Ctx P} (key : Int)
    (h : Zip m s root t k) (hne : t ≠ .nil)
    (hsort : t.toList.Pairwise (fun p q => m.key p ≤ m.key q))
    (hb : ∀ q ∈ Ctx.before k, m.key q ≤ key) (ha : ∀ q ∈ Ctx.after k, key < m.key q)
    (fuel : Nat) (hfuel : t.toList.length ≤ fuel) :
    ∃ f k', insertDescend m (some s) key fuel (some (ptr s t)) = .ok (some f.p, f.dir) ∧
      Zip m s root .nil (f :: k') ∧ plug .nil (f :: k') = plug t k ∧
      (∀ q ∈ Ctx.before (f :: k'), m.key q ≤ key) ∧ ∀ q ∈ Ctx.after (f :: k'), key < m.key q := by
  induction fuel generalizing t k with
  | zero =>
    cases t with
    | nil => exact absurd rfl hne
    | node c l p r => simp [RbTree.toList] at hfuel
  | succ fuel ih =>
    cases t with
    | nil => exact absurd rfl hne
    | node c l p r =>
      have hpw := hsort
      simp only [RbTree.toList, List.pairwise_append, List.pairwise_cons, List.mem_cons] at hpw
      obtain ⟨hl, ⟨hpr, hr⟩, hlp⟩ := hpw
      simp only [RbTree.toList, List.length_append, List.length_cons] at hfuel
      by_cases hlt : key < m.key p
      · have hz : Zip m s root l (⟨.left, c, p, r⟩ :: k) := zip_join_iff (d := .left).mp h
        have ha' : ∀ q ∈ Ctx.after (⟨.left, c, p, r⟩ :: k), key < m.key q := by
          intro q hq
          simp only [Ctx.after, List.mem_cons, List.mem_append] at hq
          rcases hq with rfl | hq | hq
          · exact hlt
          · exact Int.lt_of_lt_of_le hlt (hpr q hq)
          · exact ha q hq
        have hc : m.child .left p = some (ptr s l) := hz.frame_child
        by_cases hln : l = .nil
        · subst hln
          refine ⟨⟨.left, c, p, r⟩, k, ?_, hz, rfl, hb, ha'⟩
          simp [insertDescend, hlt, hc]
        · obtain ⟨f, k', hcode, hz', hplug, hb', ha''⟩ := ih hz hln hl hb ha' (by omega)
          refine ⟨f, k', ?_, hz', hplug, hb', ha''⟩
          have hls : ptr s l ≠ s := fun e => by
            have := ptr_mem (s := s) hln
            rw [e] at this
            exact hz.fresh (List.mem_append_left _ this)
          simp only [insertDescend, ptr_node, deref_some, ok_bind, hlt, if_true, getChild_some, hc,
            Option.some.injEq, hls, if_false, hcode]
      · have hz : Zip m s root r (⟨.right, c, p, l⟩ :: k) := zip_join_iff (d := .right).mp h
        have hle : m.key p ≤ key := Int.not_lt.mp hlt
        have hb' : ∀ q ∈ Ctx.before (⟨.right, c, p, l⟩ :: k), m.key q ≤ key := by
          intro q hq
          simp only [Ctx.before, List.mem_append, List.mem_singleton] at hq
          rcases hq with hq | hq | rfl
          · exact hb q hq
          · exact Int.le_trans (hlp q hq p (Or.inl rfl)) hle
          · exact hle
        have hc : m.child .right p = some (ptr s r) := hz.frame_child
        by_cases hrn : r = .nil
        · subst hrn
          refine ⟨⟨.right, c, p, l⟩, k, ?_, hz, rfl, hb', ha⟩
          simp [insertDescend, hlt, hc]
        · obtain ⟨f, k', hcode, hz', hplug, hb'', ha''⟩ := ih hz hrn hr hb' ha (by omega)
          refine ⟨f, k', ?_, hz', hplug, hb'', ha''⟩
          have hrs : ptr s r ≠ s := fun e => by
            have := ptr_mem (s := s) hrn
            rw [e] at this
            exact hz.fresh (List.mem_append_left _ this)
          simp only [insertDescend, ptr_node, deref_some, ok_bind, hlt, if_false, getChild_some, hc,
            Option.some.injEq, hrs, hcode]

theorem insertNode_child (m : Mem P D) (s : Option P) (par : Option P) (p q : P) (r : Bool)
    (d : Dir) :
    (insertNode m s par p r).child d q = if q = p then s else m.child d q := by
  by_cases hq : q = p <;> cases d <;> simp [insertNode, Mem.setChild_child, hq]

theorem insertNode_parent (m : Mem P D) (s : Option P) (par : Option P) (p q : P) (r : Bool) :
    (insertNode m s par p r).parent q = if q = p then par else m.parent q := by
  simp [insertNode, Mem.setParent_parent]

theorem insertNode_red (m : Mem P D) (s : Option P) (par : Option P) (p q : P) (r : Bool) :
    (insertNode m s par p r).red q = if q = p then r else m.red q := by
  simp [insertNode, Mem.setRed_red]

/-- Hanging a fresh red leaf at an absent child. -/
theorem insertNode_zip {m : Mem P D} {s root p : P} {f : Frame P} {k : Ctx P}
    (h : Zip m s root .nil (f :: k)) (hp : p ∉ Ctx.labels (f :: k)) (hps : p ≠ s) :
    Zip (insertNode (m.setChild f.dir f.p (some p)) (some s) (some f.p) p true) s root
      (.node true .nil p .nil) (f :: k) := by
  have hnd : (Ctx.labels (f :: k)).Nodup := by simpa using h.nodup
  have hs : s ∉ Ctx.labels (f :: k) := by simpa using h.fresh
  have hfp : f.p ≠ p := by rintro rfl; simp at hp
  have hq : ∀ q ∈ Ctx.labels (f :: k), q ≠ p := by rintro q hq rfl; exact hp hq
  refine ⟨⟨?_, ?_, ?_, trivial, trivial, trivial, trivial⟩, ?_, ?_, ?_, ?_, ?_, ?_, ?_⟩
  · simp [insertNode_red]
  · simp [insertNode_child]
  · simp [insertNode_child]
  · refine h.ctx.refill ?_ ?_ ?_ ?_ hnd
    · rintro g up hg
      simp only [List.cons.injEq] at hg
      obtain ⟨rfl, rfl⟩ := hg
      simp [insertNode_child, hfp, ptr]
    · intro q hqk d hd
      rw [insertNode_child, if_neg (hq q hqk), Mem.setChild_child, if_neg (hd f k rfl)]
    · intro q hqk
      rw [insertNode_red, if_neg (hq q hqk), Mem.setChild_red]
    · intro q hqk
      rw [insertNode_parent, if_neg (hq q hqk), Mem.setChild_parent]
  · simp [Fitted, UnderCtx, insertNode_parent]
  · exact h.root_eq.trans (top_congr _ _ _ _ _)
  · simpa [RbTree.toList, List.nodup_cons] using ⟨by simpa using hp, by simpa using hnd⟩
  · simpa [RbTree.toList, hps.symm] using hs
  · intro d
    have hsf : s ≠ f.p := by rintro rfl; simp at hs
    rw [insertNode_child, if_neg hps.symm, Mem.setChild_child, if_neg (fun e => hsf e.2),
      h.sent_child]
  · rw [insertNode_red, if_neg hps.symm, Mem.setChild_red, h.sent_red]

omit [DecidableEq P] in
theorem ptr_eq_sent {s : P} {t : RbTree P} (hs : s ∉ t.toList) : ptr s t = s ↔ t = .nil := by
  cases t with
  | nil => simp
  | node c l p r =>
    simp only [RbTree.toList, List.mem_append, List.mem_cons, not_or] at hs
    simp [ptr, Ne.symm hs.2.1]

/-- **Where `rbtree_insert` puts a node**: after all nodes whose keys are not larger. -/
theorem rbtreeInsert_place {m : Mem P D} {tree : Rbtree P} {s p : P} {T : RbTree P}
    (h : RbOk m tree s T) (hp : p ∉ T.toList) (hps : p ≠ s) (fuel : Nat)
    (hfuel : T.toList.length < fuel) :
    ∃ m' tree' T' A B, rbtreeInsert fuel m tree p = .ok (m', tree') ∧ RbOk m' tree' s T' ∧
      T.toList = A ++ B ∧ T'.toList = A ++ p :: B ∧ m'.key = m.key ∧ m'.data = m.data ∧
      (∀ q ∈ A, m.key q ≤ m.key p) ∧ ∀ q ∈ B, m.key p < m.key q := by
  by_cases hnil : T = .nil
  · subst hnil
    refine ⟨insertNode m (some s) none p false, { tree with root := some p },
      .node false .nil p .nil, [], [], ?_, ⟨h.sentinel, rfl, ?_, ⟨rfl, 1, 0, rfl, rfl, rfl⟩,
        by simp [RbTree.toList], h.sent_key, h.sent_data⟩, rfl, rfl, rfl, rfl, by simp, by simp⟩
    · simp [rbtreeInsert, h.root, h.sentinel]
    · refine ⟨⟨?_, ?_, ?_, trivial, trivial, trivial, trivial⟩, trivial, trivial, rfl,
        by simp [RbTree.toList],
        by simpa [RbTree.toList] using hps.symm, ?_, ?_⟩
      · simp [insertNode_red]
      · simp [insertNode_child]
      · simp [insertNode_child]
      · intro d
        rw [insertNode_child, if_neg hps.symm, h.zip.sent_child]
      · rw [insertNode_red, if_neg hps.symm, h.zip.sent_red]
  · have hroot : tree.root ≠ tree.sentinel := by
      rw [h.root, h.sentinel]
      simpa using (ptr_eq_sent h.fresh).not.mpr hnil
    obtain ⟨f, k, hdesc, hz, hplug, hb, ha⟩ :=
      insertDescend_spec (m.key p) h.zip hnil h.sorted (by simp [Ctx.before])
        (by simp [Ctx.after]) fuel (by omega)
    rw [plug_nil] at hplug
    have hTl : T.toList = Ctx.before (f :: k) ++ Ctx.after (f :: k) := by
      rw [← hplug, toList_plug]; simp
    have hlab : T.toList.Perm (Ctx.labels (f :: k)) := by
      rw [← hplug]; simpa using toList_plug_perm .nil (f :: k)
    have hz₁ := insertNode_zip hz (fun hm => hp (hlab.mem_iff.mpr hm)) hps
    obtain ⟨n₀, hfits₀⟩ := h.valid.fits
    rw [← hplug] at hfits₀
    obtain ⟨n, hn, hctx, -⟩ := hfits₀.refocus
    rw [RB_nil] at hn
    subst hn
    have hu : Unsettled (.node true .nil p .nil) (f :: k) 0 := ⟨rfl, ⟨rfl, rfl, rfl, rfl⟩, hctx⟩
    have hlen : (f :: k).length < fuel := by
      have h₁ := Ctx.length_le_labels (f :: k)
      have h₂ := hlab.length_eq
      omega
    obtain ⟨m', root', t', hloop, hz', hne', hv, hlist, hrest⟩ := insertFix_spec hz₁ hu fuel hlen
    have hkey : m'.key = m.key := hrest.key
    obtain ⟨c, a, x, b, rfl⟩ : ∃ c a x b, t' = .join .left c a x b := by
      cases t' with
      | nil => exact absurd rfl hne'
      | node c l q r => exact ⟨c, l, q, r, rfl⟩
    have hr' : root' = x := by simpa using hz'.root_eq
    subst hr'
    rw [RbTree.blacken_join] at hv
    have hT' : (RbTree.join .left false a root' b).toList =
        Ctx.before (f :: k) ++ p :: Ctx.after (f :: k) := by
      rw [RbTree.toList_paint .left false c, hlist, toList_plug]
      simp [RbTree.toList]
    refine ⟨m'.setRed root' false, { tree with root := some root' }, .join .left false a root' b,
      _, _, ?_, ⟨h.sentinel, rfl, ?_, hv, ?_, ?_, ?_⟩, hTl, hT', hkey, hrest.data, hb, ha⟩
    · have hk' :
          (insertNode (m.setChild f.dir f.p (some p)) (some s) (some f.p) p true).key = m.key := rfl
      simp only [rbtreeInsert, if_neg hroot]
      simp only [h.root, h.sentinel, hdesc, ok_bind, putChild_some]
      simp only [ptr_node] at hloop
      rw [hloop]
      simp
    · exact hz'.setRed false
    · have hs := h.sorted
      rw [hTl, List.pairwise_append] at hs
      rw [hT', List.pairwise_append, List.pairwise_cons]
      simp only [Mem.setRed_key, hkey, List.mem_cons]
      refine ⟨hs.1, ⟨fun q hq => Int.le_of_lt (ha q hq), hs.2.1⟩, ?_⟩
      rintro q hq r (rfl | hr)
      · exact hb q hq
      · exact hs.2.2 q hq r hr
    · exact (congrFun hkey s).trans h.sent_key
    · exact (congrFun hrest.data s).trans h.sent_data

/-- **`rbtree_insert`** of a node outside the tree returns a valid tree that holds it once, in
order, next to the old nodes; keys and data are untouched. -/
theorem rbtreeInsert_spec {m : Mem P D} {tree : Rbtree P} {s p : P} {T : RbTree P}
    (h : RbOk m tree s T) (hp : p ∉ T.toList) (hps : p ≠ s) (fuel : Nat)
    (hfuel : T.toList.length < fuel) :
    ∃ m' tree' T' A B, rbtreeInsert fuel m tree p = .ok (m', tree') ∧ RbOk m' tree' s T' ∧
      T.toList = A ++ B ∧ T'.toList = A ++ p :: B ∧ m'.key = m.key ∧ m'.data = m.data := by
  obtain ⟨m', tree', T', A, B, hcode, hok, hT, hT', hkey, hdata, -⟩ :=
    rbtreeInsert_place h hp hps fuel hfuel
  exact ⟨m', tree', T', A, B, hcode, hok, hT, hT', hkey, hdata⟩

end Corosched
