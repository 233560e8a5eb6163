/-
# Binary trees with a focus, and the red-black conditions on them

A balanced-tree algorithm that walks parent links moves a FOCUS through the tree and rotates
around it.  This module is the picture such an algorithm works on: a coloured tree, the path
of frames above the focus, and the red-black conditions stated separately for the subtree at
the focus and for the context around it, so that a step which breaks one of them locally can
say which half is still intact.

Everything is stated once for both directions: `join d c a p b` is the node `p` with `a` on
side `d` and `b` on the other.
-/
import Mathlib.Algebra.Group.Nat.Defs
import Mathlib.Data.List.Basic
import Mathlib.Data.List.Perm.Basic
import Mathlib.Data.List.Nodup
import Mathlib.Tactic.Common

namespace RbZip

/-! ## 1. Directions, trees, frames -/

/-- The two sides of a node. -/
inductive Dir
  | left
  | right
  deriving DecidableEq

/-- The opposite side. -/
def Dir.other : Dir → Dir
  | .left => .right
  | .right => .left

@[simp] theorem Dir.other_other (d : Dir) : d.other.other = d := by cases d <;> rfl
@[simp] theorem Dir.other_ne (d : Dir) : d.other ≠ d := by cases d <;> simp [Dir.other]
@[simp] theorem Dir.ne_other (d : Dir) : d ≠ d.other := by cases d <;> simp [Dir.other]

theorem Dir.eq_or_eq_other (d e : Dir) : d = e ∨ d = e.other := by
  cases d <;> cases e <;> simp [Dir.other]

theorem Dir.eq_other_of_ne {d e : Dir} (h : d ≠ e) : d = e.other :=
  (d.eq_or_eq_other e).resolve_left h

/-- A coloured binary tree whose nodes are labelled by `P`. -/
inductive RbTree (P : Type) where
  | nil
  | node (red : Bool) (l : RbTree P) (p : P) (r : RbTree P)

/-- One step of the path above the focus: the side of `p` the focus lies on, and the subtree on
the other side. -/
structure Frame (P : Type) where
  dir : Dir
  red : Bool
  p : P
  sib : RbTree P

/-- The path above the focus, innermost frame first. -/
abbrev Ctx (P : Type) := List (Frame P)

variable {P : Type}

namespace RbTree

/-- The node `p` with `a` on side `d` and `b` on the other side. -/
def join (d : Dir) (c : Bool) (a : RbTree P) (p : P) (b : RbTree P) : RbTree P :=
  match d with
  | .left => .node c a p b
  | .right => .node c b p a

theorem join_other (d : Dir) (c : Bool) (a : RbTree P) (p : P) (b : RbTree P) :
    join d.other c a p b = join d c b p a := by cases d <;> rfl

/-- Every nonempty tree is a `join` along any direction. -/
theorem exists_join (d : Dir) (c : Bool) (l r : RbTree P) (p : P) :
    ∃ a b, node c l p r = join d c a p b := by
  cases d
  · exact ⟨l, r, rfl⟩
  · exact ⟨r, l, rfl⟩

/-- The labels, in order. -/
def toList : RbTree P → List P
  | nil => []
  | node _ l p r => l.toList ++ p :: r.toList

/-- The colour of the root; an empty tree counts as black. -/
def red : RbTree P → Bool
  | nil => false
  | node c _ _ _ => c

@[simp] theorem red_nil : (nil : RbTree P).red = false := rfl
@[simp] theorem red_join (d : Dir) (c : Bool) (a b : RbTree P) (p : P) :
    (join d c a p b).red = c := by cases d <;> rfl

@[simp] theorem join_ne_nil (d : Dir) (c : Bool) (a b : RbTree P) (p : P) :
    join d c a p b ≠ nil := by cases d <;> simp [join]

@[simp] theorem toList_nil : (nil : RbTree P).toList = [] := rfl

theorem toList_join_perm (d : Dir) (c : Bool) (a b : RbTree P) (p : P) :
    (join d c a p b).toList.Perm (p :: (a.toList ++ b.toList)) := by
  cases d
  · exact List.perm_middle
  · exact List.perm_middle.trans (List.perm_append_comm.cons p)

@[simp] theorem mem_toList_join {d : Dir} {c : Bool} {a b : RbTree P} {p q : P} :
    q ∈ (join d c a p b).toList ↔ q = p ∨ q ∈ a.toList ∨ q ∈ b.toList := by
  rw [(toList_join_perm d c a b p).mem_iff]
  simp

/-- The number of levels. -/
def height : RbTree P → Nat
  | nil => 0
  | node _ l _ r => max l.height r.height + 1

theorem height_le_length (t : RbTree P) : t.height ≤ t.toList.length := by
  induction t with
  | nil => simp [height]
  | node c l p r ihl ihr =>
    simp only [height, toList, List.length_append, List.length_cons]
    omega

/-- The root painted black. -/
def blacken : RbTree P → RbTree P
  | nil => nil
  | node _ l p r => node false l p r

@[simp] theorem blacken_join (d : Dir) (c : Bool) (a b : RbTree P) (p : P) :
    (join d c a p b).blacken = join d false a p b := by cases d <;> rfl

@[simp] theorem red_blacken (t : RbTree P) : t.blacken.red = false := by cases t <;> rfl
@[simp] theorem toList_blacken (t : RbTree P) : t.blacken.toList = t.toList := by cases t <;> rfl

theorem blacken_of_black {t : RbTree P} (h : t.red = false) : t.blacken = t := by
  cases t with
  | nil => rfl
  | node c l p r => simp only [red] at h; subst h; rfl

theorem toList_join_congr {d : Dir} {c c' : Bool} {a a' b b' : RbTree P} {p : P}
    (ha : a.toList = a'.toList) (hb : b.toList = b'.toList) :
    (join d c a p b).toList = (join d c' a' p b').toList := by
  cases d <;> simp [join, toList, ha, hb]

theorem toList_paint (d : Dir) (c c' : Bool) (a : RbTree P) (p : P) (b : RbTree P) :
    (join d c a p b).toList = (join d c' a p b).toList := toList_join_congr rfl rfl

/-- **A rotation keeps the in-order sequence**, whichever colours it leaves. -/
theorem toList_rotate (d : Dir) (c₁ c₂ c₁' c₂' : Bool) (a b e : RbTree P) (x y : P) :
    (join d c₁ a x (join d c₂ b y e)).toList =
      (join d c₂' (join d c₁' a x b) y e).toList := by
  cases d <;> simp [join, toList]

end RbTree

open RbTree

/-! ## 2. Contexts -/

/-- Put a tree back under one frame. -/
def Frame.attach (f : Frame P) (t : RbTree P) : RbTree P := join f.dir f.red t f.p f.sib

/-- Put a tree back under the whole context. -/
def plug (t : RbTree P) : Ctx P → RbTree P
  | [] => t
  | f :: up => plug (f.attach t) up

@[simp] theorem plug_nil (t : RbTree P) : plug t [] = t := rfl
@[simp] theorem plug_cons (t : RbTree P) (f : Frame P) (up : Ctx P) :
    plug t (f :: up) = plug (f.attach t) up := rfl

theorem plug_append (t : RbTree P) (k₁ k₂ : Ctx P) : plug t (k₁ ++ k₂) = plug (plug t k₁) k₂ := by
  induction k₁ generalizing t with
  | nil => rfl
  | cons f up ih => simp only [List.cons_append, plug_cons, ih]

/-- The labels of a context, those of the siblings included. -/
def Ctx.labels (k : Ctx P) : List P := k.flatMap (fun f => f.p :: f.sib.toList)

@[simp] theorem Ctx.labels_nil : Ctx.labels ([] : Ctx P) = [] := rfl
@[simp] theorem Ctx.labels_cons (f : Frame P) (up : Ctx P) :
    Ctx.labels (f :: up) = f.p :: (f.sib.toList ++ Ctx.labels up) := by
  simp [Ctx.labels, List.flatMap_cons]

theorem toList_plug_congr {t t' : RbTree P} (h : t.toList = t'.toList) (k : Ctx P) :
    (plug t k).toList = (plug t' k).toList := by
  induction k generalizing t t' with
  | nil => exact h
  | cons f up ih => exact ih (toList_join_congr h rfl)

theorem toList_plug_perm (t : RbTree P) (k : Ctx P) :
    (plug t k).toList.Perm (t.toList ++ Ctx.labels k) := by
  induction k generalizing t with
  | nil => simp
  | cons f up ih =>
    refine (ih (f.attach t)).trans ?_
    refine ((toList_join_perm f.dir f.red t f.sib f.p).append_right _).trans ?_
    simp only [Ctx.labels_cons, List.cons_append, List.append_assoc]
    exact List.perm_middle.symm

/-- The labels before the hole, in order. -/
def Ctx.before : Ctx P → List P
  | [] => []
  | ⟨.left, _, _, _⟩ :: up => Ctx.before up
  | ⟨.right, _, p, sib⟩ :: up => Ctx.before up ++ (sib.toList ++ [p])

/-- The labels after the hole, in order. -/
def Ctx.after : Ctx P → List P
  | [] => []
  | ⟨.left, _, p, sib⟩ :: up => p :: (sib.toList ++ Ctx.after up)
  | ⟨.right, _, _, _⟩ :: up => Ctx.after up

/-- **The in-order sequence around a focus.** -/
theorem toList_plug (t : RbTree P) (k : Ctx P) :
    (plug t k).toList = Ctx.before k ++ (t.toList ++ Ctx.after k) := by
  induction k generalizing t with
  | nil => simp [Ctx.before, Ctx.after]
  | cons f up ih =>
    obtain ⟨d, c, p, sib⟩ := f
    cases d <;> simp [plug_cons, ih, Frame.attach, join, toList, Ctx.before, Ctx.after]

/-- Every label is the root of some focus. -/
theorem exists_plug {t : RbTree P} {p : P} (h : p ∈ t.toList) :
    ∃ c l r k, t = plug (.node c l p r) k := by
  induction t with
  | nil => simp at h
  | node c l q r ihl ihr =>
    simp only [RbTree.toList, List.mem_append, List.mem_cons] at h
    rcases h with h | rfl | h
    · obtain ⟨c', l', r', k, hk⟩ := ihl h
      exact ⟨c', l', r', k ++ [⟨.left, c, q, r⟩], by rw [plug_append, ← hk]; rfl⟩
    · exact ⟨c, l, r, [], rfl⟩
    · obtain ⟨c', l', r', k, hk⟩ := ihr h
      exact ⟨c', l', r', k ++ [⟨.right, c, q, l⟩], by rw [plug_append, ← hk]; rfl⟩

theorem Ctx.length_le_labels (k : Ctx P) : k.length ≤ (Ctx.labels k).length := by
  induction k with
  | nil => simp
  | cons f up ih =>
    simp only [List.length_cons, Ctx.labels_cons, List.length_append]
    omega

/-! ## 3. The red-black conditions -/

/-- `RB t n`: no red node of `t` has a red child, and every path to a leaf has `n` black
nodes. -/
def RB : RbTree P → Nat → Prop
  | .nil, n => n = 0
  | .node true l _ r, n => l.red = false ∧ r.red = false ∧ RB l n ∧ RB r n
  | .node false l _ r, n => ∃ m, n = m + 1 ∧ RB l m ∧ RB r m

@[simp] theorem RB_nil {n : Nat} : RB (.nil : RbTree P) n ↔ n = 0 := Iff.rfl

@[simp] theorem RB_join_red {d : Dir} {a b : RbTree P} {p : P} {n : Nat} :
    RB (join d true a p b) n ↔ a.red = false ∧ b.red = false ∧ RB a n ∧ RB b n := by
  cases d <;> simp only [join, RB]
  tauto

theorem RB_join_black {d : Dir} {a b : RbTree P} {p : P} {n : Nat} :
    RB (join d false a p b) n ↔ ∃ m, n = m + 1 ∧ RB a m ∧ RB b m := by
  cases d <;> simp only [join, RB]
  constructor <;> rintro ⟨m, rfl, h⟩ <;> exact ⟨m, rfl, h.2, h.1⟩

@[simp] theorem RB_join_black_succ {d : Dir} {a b : RbTree P} {p : P} {n : Nat} :
    RB (join d false a p b) (n + 1) ↔ RB a n ∧ RB b n := by
  simp [RB_join_black]

/-- A tree of positive black height is not empty. -/
theorem RB.exists_join {t : RbTree P} {n : Nat} (h : RB t (n + 1)) (d : Dir) :
    ∃ c a p b, t = join d c a p b := by
  cases t with
  | nil => simp at h
  | node c l p r =>
    obtain ⟨a, b, hab⟩ := RbTree.exists_join d c l r p
    exact ⟨c, a, p, b, hab⟩

/-- A red root can be painted black: the black height grows by one. -/
theorem RB.blacken {t : RbTree P} {n : Nat} (h : RB t n) (hr : t.red = true) :
    RB t.blacken (n + 1) := by
  cases t with
  | nil => simp at hr
  | node c l p r =>
    simp only [RbTree.red] at hr
    subst hr
    exact ⟨n, rfl, h.2.2.1, h.2.2.2⟩

/-- The colour the focus has to avoid: no red tree may stand at the root, nor under a red
node. -/
def Ctx.red : Ctx P → Bool
  | [] => true
  | f :: _ => f.red

/-- `CtxRB k n`: the context `k` is a red-black tree around a hole of black height `n`. -/
def CtxRB : Ctx P → Nat → Prop
  | [], _ => True
  | f :: up, n =>
    RB f.sib n ∧ (f.red = true → f.sib.red = false ∧ Ctx.red up = false) ∧
      CtxRB up (if f.red then n else n + 1)

@[simp] theorem CtxRB_nil {n : Nat} : CtxRB ([] : Ctx P) n := trivial

theorem CtxRB_cons {f : Frame P} {up : Ctx P} {n : Nat} :
    CtxRB (f :: up) n ↔
      RB f.sib n ∧ (f.red = true → f.sib.red = false ∧ Ctx.red up = false) ∧
        CtxRB up (if f.red then n else n + 1) := Iff.rfl

/-- The red-black condition does not read the labels of the path. -/
theorem CtxRB.relabel {k₁ k₂ : Ctx P} {d : Dir} {c : Bool} {p q : P} {sib : RbTree P} {n : Nat}
    (h : CtxRB (k₁ ++ ⟨d, c, p, sib⟩ :: k₂) n) : CtxRB (k₁ ++ ⟨d, c, q, sib⟩ :: k₂) n := by
  induction k₁ generalizing n with
  | nil => exact h
  | cons f up ih =>
    obtain ⟨h₁, h₂, h₃⟩ := h
    refine ⟨h₁, fun hf => ⟨(h₂ hf).1, ?_⟩, ih h₃⟩
    cases up with
    | nil => exact (h₂ hf).2
    | cons g up => exact (h₂ hf).2

/-- A whole red-black tree: black root, one black height. -/
def Valid (t : RbTree P) : Prop := t.red = false ∧ ∃ n, RB t n

/-- A subtree of black height `n` has at most `2 * n` levels, and one more under a red root. -/
theorem RB.height_le {t : RbTree P} {n : Nat} (h : RB t n) :
    t.height ≤ 2 * n + 1 ∧ (t.red = false → t.height ≤ 2 * n) := by
  induction t generalizing n with
  | nil =>
    rw [RB_nil] at h
    subst h
    simp [RbTree.height]
  | node c l p r ihl ihr =>
    cases c with
    | true =>
      obtain ⟨hl, hr, hbl, hbr⟩ := h
      have h₁ := (ihl hbl).2 hl
      have h₂ := (ihr hbr).2 hr
      refine ⟨?_, fun hred => absurd hred (by simp [RbTree.red])⟩
      simp only [RbTree.height]
      omega
    | false =>
      obtain ⟨k, rfl, hbl, hbr⟩ := h
      have h₁ := (ihl hbl).1
      have h₂ := (ihr hbr).1
      simp only [RbTree.height]
      exact ⟨by omega, fun _ => by omega⟩

/-- A subtree of black height `n` has at least `2 ^ n - 1` nodes. -/
theorem RB.two_pow_le {t : RbTree P} {n : Nat} (h : RB t n) : 2 ^ n ≤ t.toList.length + 1 := by
  induction t generalizing n with
  | nil =>
    rw [RB_nil] at h
    subst h
    simp
  | node c l p r ihl ihr =>
    simp only [RbTree.toList, List.length_append, List.length_cons]
    cases c with
    | true =>
      have h₁ := ihl h.2.2.1
      omega
    | false =>
      obtain ⟨k, rfl, hbl, hbr⟩ := h
      have h₁ := ihl hbl
      have h₂ := ihr hbr
      rw [Nat.pow_succ]
      omega

/-- **A red-black tree of `n` nodes has at most `2 * log2 (n + 1)` levels.** -/
theorem Valid.height_le {t : RbTree P} (h : Valid t) :
    t.height ≤ 2 * Nat.log2 (t.toList.length + 1) := by
  obtain ⟨hred, n, hn⟩ := h
  have hheight := hn.height_le.2 hred
  have hlog : n ≤ Nat.log2 (t.toList.length + 1) :=
    (Nat.le_log2 (Nat.succ_ne_zero _)).mpr hn.two_pow_le
  omega

/-- The subtree and its context fit together. -/
def Fits (t : RbTree P) (k : Ctx P) (n : Nat) : Prop :=
  RB t n ∧ CtxRB k n ∧ (t.red = true → Ctx.red k = false)

/-- Moving the focus up one frame. -/
theorem Fits.up {t : RbTree P} {f : Frame P} {k : Ctx P} {n : Nat} (h : Fits t (f :: k) n) :
    ∃ m, Fits (f.attach t) k m := by
  obtain ⟨ht, ⟨hs, hc, hk⟩, hr⟩ := h
  cases hf : f.red with
  | false =>
    rw [hf] at hk
    refine ⟨n + 1, ?_, by simpa using hk, by simp [Frame.attach, hf]⟩
    rw [Frame.attach, hf]
    exact RB_join_black_succ.mpr ⟨ht, hs⟩
  | true =>
    rw [hf] at hk
    obtain ⟨hsb, hub⟩ := hc hf
    refine ⟨n, ?_, by simpa using hk, fun _ => hub⟩
    have htb : t.red = false := by
      cases htr : t.red with
      | false => rfl
      | true => have := hr htr; simp [Ctx.red, hf] at this
    rw [Frame.attach, hf]
    exact RB_join_red.mpr ⟨htb, hsb, ht, hs⟩

/-- **A tree that fits its context makes a valid whole.** -/
theorem Fits.valid {t : RbTree P} {k : Ctx P} {n : Nat} (h : Fits t k n) : Valid (plug t k) := by
  induction k generalizing t n with
  | nil =>
    refine ⟨?_, n, h.1⟩
    cases hr : t.red with
    | false => exact hr
    | true => have := h.2.2 hr; simp [Ctx.red] at this
  | cons f up ih =>
    obtain ⟨m, hm⟩ := h.up
    exact ih hm

/-- Moving the focus down into the child on side `d`. -/
theorem Fits.down {d : Dir} {c : Bool} {a b : RbTree P} {p : P} {k : Ctx P} {n : Nat}
    (h : Fits (join d c a p b) k n) : ∃ m, Fits a (⟨d, c, p, b⟩ :: k) m := by
  obtain ⟨ht, hk, hr⟩ := h
  cases c with
  | false =>
    obtain ⟨m, rfl, ha, hb⟩ := RB_join_black.mp ht
    exact ⟨m, ha, ⟨hb, by simp, by simpa using hk⟩, fun _ => rfl⟩
  | true =>
    obtain ⟨har, hbr, ha, hb⟩ := RB_join_red.mp ht
    refine ⟨n, ha, ⟨hb, fun _ => ⟨hbr, hr (by simp)⟩, by simpa using hk⟩, ?_⟩
    intro har'
    rw [har] at har'
    exact absurd har' (by simp)

/-- Moving the focus of a whole tree down a path. -/
theorem Fits.refocus {t : RbTree P} {k : Ctx P} {n : Nat} (h : Fits (plug t k) [] n) :
    ∃ m, Fits t k m := by
  induction k generalizing t with
  | nil => exact ⟨n, h⟩
  | cons f up ih =>
    obtain ⟨m, hm⟩ := ih h
    exact hm.down

theorem Valid.fits {t : RbTree P} (h : Valid t) : ∃ n, Fits t [] n := by
  obtain ⟨hr, n, hn⟩ := h
  exact ⟨n, hn, trivial, fun hr' => by rw [hr] at hr'; exact absurd hr' (by simp)⟩

end RbZip
