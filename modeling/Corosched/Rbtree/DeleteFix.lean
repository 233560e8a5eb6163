/-
# The fixup loop of `rbtree_delete`

The loop carries `Light`: the subtree at the focus is one black node short of what its context
asks for, unless its root is red, in which case painting it black pays the debt.  One iteration
either ends the loop or moves the debt one frame up; the sibling is never the sentinel, so none
of its links is read through `NULL`.

The focus may be the sentinel itself, whose parent link the deletion has set for this purpose.
-/
import Corosched.Rbtree.Insert

namespace Corosched

open RbZip

variable {P D : Type} [DecidableEq P]

/-! ## 1. The invariant -/

/-- The invariant of the fixup loop: black height `n` where the context asks for `n + 1`. -/
structure Light (t : RbTree P) (k : Ctx P) (n : Nat) : Prop where
  ctx : CtxRB k (n + 1)
  black : t.red = false → RB t n
  red : t.red = true → RB t.blacken (n + 1)

/-- `temp->parent` is right, also when `temp` is the sentinel. -/
def ParentOk (m : Mem P D) (s : P) (t : RbTree P) (k : Ctx P) : Prop :=
  ∀ f up, k = f :: up → m.parent (ptr s t) = some f.p

variable {m m' : Mem P D} {s root root' x w : P} {d : Dir} {c : Bool} {t a b : RbTree P}
  {f : Frame P} {k : Ctx P} {n : Nat}

omit [DecidableEq P] in
theorem ParentOk.of_ne_nil (h : Zip m s root t k) (hne : t ≠ .nil) : ParentOk m s t k := by
  rintro f up rfl
  cases t with
  | nil => exact absurd rfl hne
  | node c l p r => exact h.fitted

omit [DecidableEq P] in
/-- The parent link of `temp` survives what leaves the sentinel's parent link alone. -/
theorem ParentOk.transfer {f' : Frame P} {k' : Ctx P} (h : ParentOk m s t (f :: k))
    (h' : Zip m' s root' t (f' :: k')) (hp : f'.p = f.p) (hs : m'.parent s = m.parent s) :
    ParentOk m' s t (f' :: k') := by
  cases t with
  | nil =>
    rintro g up hg
    simp only [List.cons.injEq] at hg
    obtain ⟨rfl, rfl⟩ := hg
    rw [ptr_nil, hs, hp]
    exact h f k rfl
  | node c l p r => exact .of_ne_nil h' (by simp)

/-! ## 2. The parts of an iteration -/

omit [DecidableEq P] in
theorem bothBlack_spec (h : Zip m s root (.join d c a x b) k) :
    bothBlack m (some x) = .ok (!a.red && !b.red) := by
  have ha := (zip_join_iff.mp h).red_ptr
  have hb := (zip_swap.mp (zip_join_iff.mp h)).red_ptr
  have h₁ := h.child
  have h₂ := h.child_other
  cases d <;> simp only [Dir.other] at h₂ <;> simp only [bothBlack, getChild_some, ok_bind, h₁, h₂,
    rbtreeIsRed_some, ha, hb, pure_eq_ok] <;> cases a.red <;> cases b.red <;> simp

/-- A red sibling is rotated away; the new sibling is black. -/
theorem deleteFixSibling_spec (h : Zip m s root t (f :: k)) (hp : ParentOk m s t (f :: k))
    (hctx : CtxRB (f :: k) (n + 1)) :
    ∃ m' root' f' k', deleteFixSibling f.dir m (some root) (some s) (some (ptr s t))
        (some (ptr s f.sib)) = .ok (m', some root', some (ptr s f'.sib)) ∧
      Zip m' s root' t (f' :: k') ∧ f'.p = f.p ∧ f'.dir = f.dir ∧ CtxRB (f' :: k') (n + 1) ∧
      f'.sib.red = false ∧ (f'.red = true ∨ k' = k) ∧
      (plug t (f' :: k')).toList = (plug t (f :: k)).toList ∧ SameRest s m m' := by
  obtain ⟨hs, hc, hk⟩ := CtxRB_cons.mp hctx
  have hwred : m.red (ptr s f.sib) = f.sib.red := (zip_swap.mp h).red_ptr
  cases hsr : f.sib.red with
  | false =>
    refine ⟨m, root, f, k, ?_, h, rfl, rfl, hctx, hsr, Or.inr rfl, rfl, .refl s m⟩
    simp [deleteFixSibling, hwred, hsr]
  | true =>
    have hfr : f.red = false := by
      cases hfr : f.red with
      | false => rfl
      | true => exact absurd ((hc hfr).1.symm.trans hsr) (by simp)
    obtain ⟨c, b, w, e, hsib⟩ := hs.exists_join f.dir
    have hc' : c = true := by rw [hsib] at hsr; simpa using hsr
    subst hc'
    rw [hsib] at hs
    obtain ⟨hbr, -, hb, he⟩ := RB_join_red.mp hs
    have hz₁ := (h.setRed_sib hsib false).setRed_frame true
    have hpar := hp f k rfl
    obtain ⟨m', root', hrot, hz, hrest, -⟩ := rotate_spec (zip_attach_iff.mpr hz₁)
    have hz' := zip_join_iff.mp (zip_join_iff.mp hz)
    have hrest' : SameRest s m m' := ⟨hrest.key, hrest.data, hrest.sentParent⟩
    refine ⟨m', root', _, _, ?_, hz', rfl, rfl, ?_, hbr, Or.inl rfl, ?_, hrest'⟩
    · have hpar' := hp.transfer hz' rfl hrest'.sentParent _ _ rfl
      have hsib' := hz'.frame_sib
      rw [hsib, ptr_join] at hwred ⊢
      simp only [RbTree.red_join] at hwred
      simp only [deleteFixSibling, rbtreeIsRed_some, hwred, ok_bind, if_true, putRed_some,
        getParent_some, Mem.setRed_parent, hpar, hrot, hpar', getChild_some, hsib', pure_eq_ok]
    · refine CtxRB_cons.mpr ⟨hb, fun _ => ⟨hbr, rfl⟩, CtxRB_cons.mpr ⟨he, by simp, ?_⟩⟩
      simpa [hfr] using hk
    · simp only [plug_cons]
      refine toList_plug_congr ?_ k
      rw [Frame.attach, Frame.attach, Frame.attach, hsib]
      exact (RbTree.toList_rotate _ _ _ _ _ _ _ _ _ _).symm

/-- A black far child: the red near child is rotated above the sibling. -/
theorem deleteFixNear_spec (h : Zip m s root t (f :: k)) (hp : ParentOk m s t (f :: k))
    (hsib : f.sib = .join f.dir false a w b) (ha : RB a n) (hb : RB b n)
    (hab : (!a.red && !b.red) = false) :
    ∃ m' root' a' w' b', deleteFixNear f.dir m (some root) (some s) (some (ptr s t)) (some w) =
        .ok (m', some root', some w') ∧
      Zip m' s root' t (⟨f.dir, f.red, f.p, .join f.dir false a' w' b'⟩ :: k) ∧
      RB a' n ∧ RB b' n ∧ b'.red = true ∧
      (RbTree.join f.dir false a' w' b').toList = f.sib.toList ∧ SameRest s m m' := by
  have hzw : Zip m s root (.join f.dir false a w b) (⟨f.dir.other, f.red, f.p, t⟩ :: k) := by
    have := zip_swap.mp h
    rwa [hsib] at this
  have hfar := hzw.child_other
  have hbred : m.red (ptr s b) = b.red := (zip_swap.mp (zip_join_iff.mp hzw)).red_ptr
  cases hbr : b.red with
  | true =>
    refine ⟨m, root, a, w, b, ?_, ?_, ha, hb, hbr, by rw [hsib], .refl s m⟩
    · simp [deleteFixNear, hfar, hbred, hbr]
    · rw [← hsib]; exact h
  | false =>
    have har : a.red = true := by simpa [hbr] using hab
    obtain ⟨a₁, x, a₂, rfl⟩ : ∃ a₁ x a₂, a = .join f.dir true a₁ x a₂ := by
      cases a with
      | nil => simp at har
      | node c l p r =>
        simp only [RbTree.red] at har
        subst har
        obtain ⟨a₁, a₂, h12⟩ := RbTree.exists_join f.dir true l r p
        exact ⟨a₁, p, a₂, h12⟩
    obtain ⟨-, ha₂r, ha₁, ha₂⟩ := RB_join_red.mp ha
    have hnear := hzw.child
    rw [ptr_join] at hnear
    have hz₁ := (hzw.setRed_child false).setRed true
    have hz₂ : Zip ((m.setRed x false).setRed w true) s root
        (.join f.dir.other true b w (.join f.dir.other false a₂ x a₁))
        (⟨f.dir.other, f.red, f.p, t⟩ :: k) := by
      rw [RbTree.join_other, RbTree.join_other]; exact hz₁
    obtain ⟨m', root', hrot, hz, hrest, -⟩ := rotate_spec hz₂
    rw [RbTree.join_other, RbTree.join_other] at hz
    have hz' := (zip_swap
      (f := ⟨f.dir, f.red, f.p, .join f.dir false a₁ x (.join f.dir true a₂ w b)⟩)).mpr hz
    have hrest' : SameRest s m m' := ⟨hrest.key, hrest.data, hrest.sentParent⟩
    refine ⟨m', root', a₁, x, .join f.dir true a₂ w b, ?_, hz', ha₁,
      RB_join_red.mpr ⟨ha₂r, hbr, ha₂, hb⟩, by simp, ?_, hrest'⟩
    · have hpar' := hp.transfer hz' rfl hrest'.sentParent _ _ rfl
      have hsib' := hz'.frame_sib
      simp only [ptr_join] at hsib'
      simp only [deleteFixNear, getChild_some, hfar, ok_bind, rbtreeIsRed_some, hbred, hbr,
        Bool.not_false, if_true, hnear, putRed_some, hrot, getParent_some, hpar', hsib', pure_eq_ok]
    · rw [hsib]
      exact RbTree.toList_rotate _ _ _ _ _ _ _ _ _ _

/-- A red far child: the last rotation pays the debt. -/
theorem deleteFixFar_spec {p : P} (h : Zip m s root t (⟨d, c, p, .join d false a w b⟩ :: k))
    (hp : ParentOk m s t (⟨d, c, p, .join d false a w b⟩ :: k)) (hbr : b.red = true) :
    ∃ m' root', deleteFixFar d m (some root) (some s) (some (ptr s t)) (some w) =
        .ok (m', some root') ∧
      Zip m' s root' (.join d c (.join d false t p a) w b.blacken) k ∧ SameRest s m m' := by
  obtain ⟨b₁, y, b₂, rfl⟩ : ∃ b₁ y b₂, b = .join .left true b₁ y b₂ := by
    cases b with
    | nil => simp at hbr
    | node c l q r => simp only [RbTree.red] at hbr; exact ⟨l, q, r, by rw [hbr]; rfl⟩
  have hpar := hp _ _ rfl
  have hzw := zip_swap.mp h
  have hfar := hzw.child_other
  simp only [ptr_join] at hfar
  have hpr : m.red p = c := h.frame_red
  have hz₁ := (h.setRed_sib rfl c).setRed_frame false
  have hz₂ := (zip_swap (f := ⟨d, false, p, .join d c a w (.join .left false b₁ y b₂)⟩)).mpr
    ((zip_swap.mp hz₁).setRed_child_other false)
  obtain ⟨m', root', hrot, hz, hrest, -⟩ := rotate_spec (zip_attach_iff.mpr hz₂)
  refine ⟨m', root', ?_, by simpa using hz, ⟨hrest.key, hrest.data, hrest.sentParent⟩⟩
  simp only [deleteFixFar, getParent_some, hpar, ok_bind, rbtreeIsRed_some, hpr, putRed_some,
    Mem.setRed_parent, getChild_some, Mem.setRed_child, hfar, hrot]

/-! ## 3. The loop -/

/-- **One iteration of the fixup loop.** -/
theorem deleteFixBody_spec (h : Zip m s root t (f :: k)) (hp : ParentOk m s t (f :: k))
    (hl : Light t (f :: k) n) (htr : t.red = false) :
    ∃ m' root' t' k' n', deleteFixBody f.dir m (some root) (some s) (some (ptr s t)) =
        .ok (m', some root', some (ptr s t')) ∧
      Zip m' s root' t' k' ∧ t' ≠ .nil ∧ Light t' k' n' ∧ (t'.red = true ∨ k'.length ≤ k.length) ∧
      (plug t' k').toList = (plug t (f :: k)).toList ∧ SameRest s m m' := by
  have ht := hl.black htr
  obtain ⟨m₁, root₁, f', k₁, hsibc, hz₁, hfp, hfd, hctx₁, hsr, hk₁, hlist₁, hrest₁⟩ :=
    deleteFixSibling_spec h hp hl.ctx
  have hp₁ := hp.transfer hz₁ hfp hrest₁.sentParent
  obtain ⟨hs₁, hc₁, hk₁'⟩ := CtxRB_cons.mp hctx₁
  obtain ⟨cw, a, w, b, hsib⟩ := hs₁.exists_join f'.dir
  have hcw : cw = false := by rw [hsib] at hsr; simpa using hsr
  subst hcw
  rw [hsib, RB_join_black_succ] at hs₁
  obtain ⟨ha, hb⟩ := hs₁
  have hsibc' : deleteFixSibling f.dir m (some root) (some s) (some (ptr s t))
      (some (ptr s f.sib)) = .ok (m₁, some root₁, some w) := by
    rw [hsibc, hsib, ptr_join]
  have hbb : bothBlack m₁ (some w) = .ok (!a.red && !b.red) := by
    have := zip_swap.mp hz₁
    rw [hsib] at this
    exact bothBlack_spec this
  have hpar := hp f k rfl
  have hpar₁ := hp₁ f' k₁ rfl
  have hw := h.frame_sib
  cases hab : (!a.red && !b.red) with
  | true =>
    -- both nephews are black: the debt moves to the parent
    have hz₂ := zip_attach_iff.mpr (hz₁.setRed_sib hsib true)
    simp only [Bool.and_eq_true, Bool.not_eq_true'] at hab
    refine ⟨m₁.setRed w true, root₁, _, k₁, if f'.red then n else n + 1, ?_, hz₂,
      RbTree.join_ne_nil _ _ _ _ _, ⟨?_, ?_, ?_⟩, ?_, ?_, ?_⟩
    · rw [hab.1, hab.2] at hbb
      simp [deleteFixBody, hpar, hw, hsibc', hbb, hpar₁]
    · cases hfr : f'.red <;> simpa [hfr] using hk₁'
    · intro hred
      have hfr : f'.red = false := by simpa [Frame.attach] using hred
      rw [Frame.attach, hfr]
      simp only [Bool.false_eq_true, if_false, RB_join_black_succ, RB_join_red]
      exact ⟨ht, hab.1, hab.2, ha, hb⟩
    · intro hred
      have hfr : f'.red = true := by simpa [Frame.attach] using hred
      rw [Frame.attach, hfr, RbTree.blacken_join]
      simp only [if_true, RB_join_black_succ, RB_join_red]
      exact ⟨ht, hab.1, hab.2, ha, hb⟩
    · rcases hk₁ with hfr | rfl
      · exact Or.inl (by simp [Frame.attach, hfr])
      · exact Or.inr (Nat.le_refl _)
    · rw [← hlist₁, plug_cons]
      refine toList_plug_congr (RbTree.toList_join_congr rfl ?_) k₁
      rw [hsib]
      exact RbTree.toList_join_congr rfl rfl
    · exact hrest₁.trans ⟨rfl, rfl, rfl⟩
  | false =>
    obtain ⟨m₂, root₂, a', w', b', hnear, hz₂, ha', hb', hbr', hlist₂, hrest₂⟩ :=
      deleteFixNear_spec hz₁ hp₁ hsib ha hb hab
    have hp₂ := hp₁.transfer hz₂ rfl hrest₂.sentParent
    obtain ⟨m₃, root₃, hfarc, hz₃, hrest₃⟩ := deleteFixFar_spec hz₂ hp₂ hbr'
    have hfits : Fits (.join f'.dir f'.red (.join f'.dir false t f'.p a') w' b'.blacken) k₁
        (if f'.red then n + 1 else n + 2) := by
      refine ⟨?_, by simpa using hk₁', fun hr => ?_⟩
      · cases hfr : f'.red with
        | false => simpa [ht, ha'] using RB.blacken hb' hbr'
        | true => simpa [ht, ha'] using RB.blacken hb' hbr'
      · exact (hc₁ (by simpa using hr)).2
    obtain ⟨hvr, N, hN⟩ := hfits.valid
    have hroot₃ := hz₃.root_eq
    refine ⟨m₃, root₃, _, [], N, ?_, zip_plug_iff.mpr hz₃, ?_, ⟨trivial, fun _ => hN, ?_⟩,
      Or.inr (by simp), ?_, hrest₁.trans (hrest₂.trans hrest₃)⟩
    · have hr₃ := (zip_plug_iff.mpr hz₃).root_eq
      rw [top_nil] at hr₃
      rw [← hr₃]
      rw [hab] at hbb
      rw [hfd] at hnear hfarc
      simp [deleteFixBody, hpar, hw, hsibc', hbb, hnear, hfarc]
    · intro hnil
      have := (toList_plug_perm
        (.join f'.dir f'.red (.join f'.dir false t f'.p a') w' b'.blacken) k₁).length_eq
      have h' := (RbTree.toList_join_perm f'.dir f'.red (.join f'.dir false t f'.p a') b'.blacken
        w').length_eq
      rw [hnil] at this
      simp only [RbTree.toList_nil, List.length_nil, List.length_append, List.length_cons]
        at this h'
      omega
    · intro hr
      rw [hvr] at hr
      exact absurd hr (by simp)
    · rw [← hlist₁]
      simp only [plug_nil, plug_cons]
      refine toList_plug_congr ?_ k₁
      rw [Frame.attach, hsib]
      have h₁ := RbTree.toList_rotate f'.dir f'.red false false f'.red t a' b'.blacken f'.p w'
      rw [← h₁]
      refine RbTree.toList_join_congr rfl ?_
      rw [← hsib, ← hlist₂]
      exact RbTree.toList_join_congr rfl (by simp)

/-- **The fixup loop** ends within two more iterations than the context has frames, with a valid
tree over the same labels. -/
theorem deleteFix_spec {m : Mem P D} {s root : P} {t : RbTree P} {k : Ctx P} {n : Nat}
    (h : Zip m s root t k) (hp : ParentOk m s t k) (hl : Light t k n) (fuel : Nat)
    (hfuel : (if t.red then 0 else k.length) < fuel) :
    ∃ m' root' T', deleteFix (some s) fuel m (some root) (some (ptr s t)) =
        .ok (m', some root') ∧
      Zip m' s root' T' [] ∧ Valid T' ∧ T'.toList = (plug t k).toList ∧
      m'.key = m.key ∧ m'.data = m.data := by
  induction fuel generalizing m root t k n with
  | zero => omega
  | succ fuel ih =>
    -- painting `temp` black ends the loop
    have hend : (t.red = true ∨ k = []) →
        ∃ T', Zip (m.setRed (ptr s t) false) s root T' [] ∧ Valid T' ∧
        T'.toList = (plug t k).toList := by
      intro hstop
      cases t with
      | nil =>
        have hk : k = [] := by simpa using hstop
        subst hk
        have hm : m.setRed s false = m := by
          have : Function.update m.red s false = m.red := by
            rw [← h.sent_red]; exact Function.update_eq_self s m.red
          simp [Mem.setRed, this]
        rw [ptr_nil, hm]
        exact ⟨.nil, h, ⟨rfl, n, hl.black rfl⟩, rfl⟩
      | node c l p r =>
        have hz := (show Zip m s root (.join .left c l p r) k from h).setRed false
        refine ⟨plug (.join .left false l p r) k, zip_plug_iff.mpr hz, ?_, ?_⟩
        · rcases hstop with hr | rfl
          · have hfit : Fits (.join .left false l p r) k (n + 1) := ⟨hl.red hr, hl.ctx, by simp⟩
            exact hfit.valid
          · refine ⟨by simp, ?_⟩
            cases c with
            | true => exact ⟨n + 1, hl.red rfl⟩
            | false => exact ⟨n, hl.black rfl⟩
        · exact toList_plug_congr (RbTree.toList_paint .left false c l p r) k
    have htred : m.red (ptr s t) = t.red := h.red_ptr
    cases k with
    | nil =>
      obtain ⟨T', hz', hv, hlist⟩ := hend (Or.inr rfl)
      have hroot : root = ptr s t := h.root_eq
      refine ⟨_, root, T', ?_, hz', hv, hlist, rfl, rfl⟩
      simp [deleteFix, hroot]
    | cons f up =>
      have hne := h.ptr_ne_root
      cases htr : t.red with
      | true =>
        obtain ⟨T', hz', hv, hlist⟩ := hend (Or.inl htr)
        refine ⟨_, root, T', ?_, hz', hv, hlist, rfl, rfl⟩
        simp [deleteFix, hne, htred, htr]
      | false =>
        obtain ⟨m₁, root₁, t₁, k₁, n₁, hbody, hz₁, hne₁, hl₁, hmeas, hlist₁, hrest₁⟩ :=
          deleteFixBody_spec h hp hl htr
        have hfuel₁ : (if t₁.red then 0 else k₁.length) < fuel := by
          rw [htr] at hfuel
          simp only [List.length_cons, Bool.false_eq_true, if_false] at hfuel
          rcases hmeas with hr | hlen
          · rw [hr]; simp only [if_true]; omega
          · split <;> omega
        obtain ⟨m', root', T', hloop, hz', hv, hlist', hkey, hdata⟩ :=
          ih hz₁ (.of_ne_nil hz₁ hne₁) hl₁ hfuel₁
        refine ⟨m', root', T', ?_, hz', hv, hlist'.trans hlist₁, hkey.trans hrest₁.key,
          hdata.trans hrest₁.data⟩
        have hsibne : f.sib ≠ .nil := by
          rintro hnil
          have hs := (CtxRB_cons.mp hl.ctx).1
          rw [hnil, RB_nil] at hs
          omega
        have hside := side_eq h (Or.inr hsibne)
        simp only [deleteFix, Option.some.injEq, hne, if_false, rbtreeIsRed_some, htred, htr,
          ok_bind, Bool.false_eq_true, getParent_some, hp f up rfl, getChild_some, hside, hbody,
            hloop]

end Corosched
