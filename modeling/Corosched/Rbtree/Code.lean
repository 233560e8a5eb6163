/-
# `cs_rbtree.c`

The red-black tree of the registry, as the C code computes it: pointers are `Option P`, `none`
is `NULL`, every access through a pointer goes through `deref`, and each read happens where the
C expression reads.  The mirrored halves of the two rebalancing loops are one definition with
the side as a parameter; `rbtree_left_rotate` and `rbtree_right_rotate` are its two instances.

Each `while` takes a budget of iterations.  Running out of it is the fault `diverge`, so a
result obtained for some budget is a result of the loop.
-/
import Corosched.Fault
import Corosched.Lib.TreeMem

namespace Corosched

open RbZip

/-- `struct rbtree`. -/
structure Rbtree (P : Type) where
  root : Option P
  sentinel : Option P

variable {P D : Type}

/-! ## 1. Reads and writes through a pointer -/

/-- The node a pointer points to. -/
def deref (p : Option P) : Except Fault P :=
  match p with
  | none => throw .nilDeref
  | some q => pure q

@[simp] theorem deref_some (p : P) : deref (some p) = Except.ok p := rfl
@[simp] theorem deref_none : deref (none : Option P) = Except.error .nilDeref := rfl

/-- `p->left` or `p->right`. -/
def getChild (m : Mem P D) (d : Dir) (p : Option P) : Except Fault (Option P) := do
  let q ← deref p
  pure (m.child d q)

/-- `p->parent`. -/
def getParent (m : Mem P D) (p : Option P) : Except Fault (Option P) := do
  let q ← deref p
  pure (m.parent q)

/-- `rbtree_is_red(p)`. -/
def rbtreeIsRed (m : Mem P D) (p : Option P) : Except Fault Bool := do
  let q ← deref p
  pure (m.red q)

section Writes

variable [DecidableEq P]

/-- `p->left = v` or `p->right = v`. -/
def putChild (m : Mem P D) (d : Dir) (p v : Option P) : Except Fault (Mem P D) := do
  let q ← deref p
  pure (m.setChild d q v)

/-- `p->parent = v`. -/
def putParent (m : Mem P D) (p v : Option P) : Except Fault (Mem P D) := do
  let q ← deref p
  pure (m.setParent q v)

/-- `rbtree_red(p)` (`c = true`) and `rbtree_black(p)` (`c = false`). -/
def putRed (m : Mem P D) (p : Option P) (c : Bool) : Except Fault (Mem P D) := do
  let q ← deref p
  pure (m.setRed q c)

end Writes

@[simp] theorem getChild_some (m : Mem P D) (d : Dir) (p : P) :
    getChild m d (some p) = Except.ok (m.child d p) := rfl
@[simp] theorem getParent_some (m : Mem P D) (p : P) :
    getParent m (some p) = Except.ok (m.parent p) := rfl
@[simp] theorem rbtreeIsRed_some (m : Mem P D) (p : P) :
    rbtreeIsRed m (some p) = Except.ok (m.red p) := rfl

variable [DecidableEq P]

@[simp] theorem putChild_some (m : Mem P D) (d : Dir) (p : P) (v : Option P) :
    putChild m d (some p) v = Except.ok (m.setChild d p v) := rfl
@[simp] theorem putParent_some (m : Mem P D) (p : P) (v : Option P) :
    putParent m (some p) v = Except.ok (m.setParent p v) := rfl
@[simp] theorem putRed_some (m : Mem P D) (p : P) (c : Bool) :
    putRed m (some p) c = Except.ok (m.setRed p c) := rfl

/-! ## 2. Initialisation -/

/-- `rbtree_node_init`: the links, the key and the data; the colour is left as it was. -/
def rbtreeNodeInit (m : Mem P D) (node : P) : Mem P D :=
  { child := fun d q => if q = node then none else m.child d q
    parent := Function.update m.parent node none
    key := Function.update m.key node 0
    data := Function.update m.data node none
    red := m.red }

/-- `rbtree_init`. -/
def rbtreeInit (m : Mem P D) (node : P) : Mem P D × Rbtree P :=
  ((rbtreeNodeInit m node).setRed node false, ⟨some node, some node⟩)

/-! ## 3. Lookup and minimum -/

/-- `rbtree_node_min`: the loop over left links. -/
def rbtreeNodeMin (m : Mem P D) (sentinel : Option P) : Nat → Option P → Except Fault (Option P)
  | 0, _ => throw .diverge
  | n + 1, node => do
    let l ← getChild m .left node
    if l ≠ sentinel then rbtreeNodeMin m sentinel n l else pure node

/-- `rbtree_min`. -/
def rbtreeMin (fuel : Nat) (m : Mem P D) (tree : Rbtree P) : Except Fault (Option P) :=
  if tree.root = tree.sentinel then pure none else rbtreeNodeMin m tree.sentinel fuel tree.root

/-- The `while(node)` of `rbtree_lookup`, from the node it stands on. -/
def rbtreeLookupFrom (m : Mem P D) (key : Int) : Nat → Option P → Except Fault (Option P)
  | 0, _ => throw .diverge
  | n + 1, node =>
    match node with
    | none => pure none
    | some p =>
      if m.key p = key then pure (some p)
      else if m.key p > key then rbtreeLookupFrom m key n (m.child .left p)
      else rbtreeLookupFrom m key n (m.child .right p)

/-- `rbtree_lookup`. -/
def rbtreeLookup (fuel : Nat) (m : Mem P D) (tree : Rbtree P) (key : Int) :
    Except Fault (Option P) :=
  rbtreeLookupFrom m key fuel tree.root

/-! ## 4. Rotations -/

/-- `if (t != sentinel) { t->parent = p; }`. -/
def reparent (m : Mem P D) (sentinel t p : Option P) : Except Fault (Mem P D) :=
  if t ≠ sentinel then putParent m t p else pure m

/-- `if (node == *root) *root = temp; else if (node == node->parent->left) node->parent->left =
temp; else node->parent->right = temp;`, with the sides as in the rotation towards `d`.  Returns
the memory and `*root`. -/
def rehang (d : Dir) (m : Mem P D) (root node temp : Option P) :
    Except Fault (Mem P D × Option P) :=
  if node = root then pure (m, temp)
  else do
    let np ← getParent m node
    let npd ← getChild m d np
    let m ← putChild m (if node = npd then d else d.other) np temp
    pure (m, root)

/-- One rotation towards side `d`: the child `temp` of `node` on the other side takes its place,
and `node` becomes the child of `temp` on side `d`.  Returns the memory and `*root`. -/
def rotate (d : Dir) (m : Mem P D) (root sentinel node : Option P) :
    Except Fault (Mem P D × Option P) := do
  let temp ← getChild m d.other node
  let m ← putChild m d.other node (← getChild m d temp)
  let m ← reparent m sentinel (← getChild m d temp) node
  let m ← putParent m temp (← getParent m node)
  let (m, root) ← rehang d m root node temp
  let m ← putChild m d temp node
  let m ← putParent m node temp
  pure (m, root)

/-- `rbtree_left_rotate`. -/
def rbtreeLeftRotate (m : Mem P D) (root sentinel node : Option P) :
    Except Fault (Mem P D × Option P) :=
  rotate .left m root sentinel node

/-- `rbtree_right_rotate`. -/
def rbtreeRightRotate (m : Mem P D) (root sentinel node : Option P) :
    Except Fault (Mem P D × Option P) :=
  rotate .right m root sentinel node

/-! ## 5. Insertion -/

/-- The descent of `rbtree_insert`: the node to hang the new one under, and the side. -/
def insertDescend (m : Mem P D) (sentinel : Option P) (key : Int) :
    Nat → Option P → Except Fault (Option P × Dir)
  | 0, _ => throw .diverge
  | n + 1, temp => do
    let t ← deref temp
    let d := if key < m.key t then Dir.left else Dir.right
    let p ← getChild m d temp
    if p = sentinel then pure (temp, d) else insertDescend m sentinel key n p

/-- The new node gets its fields: `parent`, two sentinel children and the colour. -/
def insertNode (m : Mem P D) (sentinel parent : Option P) (node : P) (red : Bool) : Mem P D :=
  (((m.setParent node parent).setChild .left node sentinel).setChild .right node sentinel).setRed
    node red

/-- The uncle is red: recolour, and go on from the grandparent. -/
def insertFixRecolour (m : Mem P D) (node temp : Option P) :
    Except Fault (Mem P D × Option P) := do
  let m ← putRed m (← getParent m node) false
  let m ← putRed m temp false
  let m ← putRed m (← getParent m (← getParent m node)) true
  let node ← getParent m (← getParent m node)
  pure (m, node)

/-- `if (node == node->parent->right) { node = node->parent; rbtree_left_rotate(node); }`, with
the side of the loop's branch. -/
def insertFixTurn (d : Dir) (m : Mem P D) (root sentinel node : Option P) :
    Except Fault (Mem P D × Option P × Option P) := do
  let inside ← getChild m d.other (← getParent m node)
  if node = inside then
    let node ← getParent m node
    let (m, root) ← rotate d m root sentinel node
    pure (m, root, node)
  else pure (m, root, node)

/-- The body of the re-balancing loop of `rbtree_insert` when the parent of `node` is the child
of its own parent on side `d`.  Returns the memory, `*root` and the next `node`. -/
def insertFixBody (d : Dir) (m : Mem P D) (root sentinel node : Option P) :
    Except Fault (Mem P D × Option P × Option P) := do
  let temp ← getChild m d.other (← getParent m (← getParent m node))
  if ← rbtreeIsRed m temp then
    let (m, node) ← insertFixRecolour m node temp
    pure (m, root, node)
  else
    let (m, root, node) ← insertFixTurn d m root sentinel node
    let m ← putRed m (← getParent m node) false
    let m ← putRed m (← getParent m (← getParent m node)) true
    let (m, root) ← rotate d.other m root sentinel (← getParent m (← getParent m node))
    pure (m, root, node)

/-- The re-balancing loop of `rbtree_insert`. -/
def insertFix (sentinel : Option P) : Nat → Mem P D → Option P → Option P →
    Except Fault (Mem P D × Option P)
  | 0, _, _, _ => throw .diverge
  | n + 1, m, root, node => do
    if node = root then pure (m, root)
    else if ← rbtreeIsRed m (← getParent m node) then
      let par ← getParent m node
      let gl ← getChild m .left (← getParent m par)
      let (m, root, node) ←
        insertFixBody (if par = gl then .left else .right) m root sentinel node
      insertFix sentinel n m root node
    else pure (m, root)

/-- `rbtree_insert`. -/
def rbtreeInsert (fuel : Nat) (m : Mem P D) (tree : Rbtree P) (node : P) :
    Except Fault (Mem P D × Rbtree P) :=
  if tree.root = tree.sentinel then
    pure (insertNode m tree.sentinel none node false, { tree with root := some node })
  else do
    let (temp, d) ← insertDescend m tree.sentinel (m.key node) fuel tree.root
    let m ← putChild m d temp (some node)
    let m := insertNode m tree.sentinel temp node true
    let (m, root) ← insertFix tree.sentinel fuel m tree.root (some node)
    let m ← putRed m root false
    pure (m, { tree with root := root })

/-! ## 6. Deletion -/

/-- `rbtree_is_black(w->left) && rbtree_is_black(w->right)`, in this order on both sides of the
loop. -/
def bothBlack (m : Mem P D) (w : Option P) : Except Fault Bool := do
  if ← rbtreeIsRed m (← getChild m .left w) then pure false
  else pure !(← rbtreeIsRed m (← getChild m .right w))

/-- The sibling `w` is red: rotate it above the parent of `temp`, whose new sibling is black.
Returns the memory, `*root` and `w`. -/
def deleteFixSibling (d : Dir) (m : Mem P D) (root sentinel temp w : Option P) :
    Except Fault (Mem P D × Option P × Option P) := do
  if ← rbtreeIsRed m w then
    let m ← putRed m w false
    let m ← putRed m (← getParent m temp) true
    let (m, root) ← rotate d m root sentinel (← getParent m temp)
    let w ← getChild m d.other (← getParent m temp)
    pure (m, root, w)
  else pure (m, root, w)

/-- The far child of `w` is black: rotate the red near child above `w`.  Returns the memory,
`*root` and `w`. -/
def deleteFixNear (d : Dir) (m : Mem P D) (root sentinel temp w : Option P) :
    Except Fault (Mem P D × Option P × Option P) := do
  if !(← rbtreeIsRed m (← getChild m d.other w)) then
    let m ← putRed m (← getChild m d w) false
    let m ← putRed m w true
    let (m, root) ← rotate d.other m root sentinel w
    let w ← getChild m d.other (← getParent m temp)
    pure (m, root, w)
  else pure (m, root, w)

/-- The far child of `w` is red: the last rotation of the fixup. -/
def deleteFixFar (d : Dir) (m : Mem P D) (root sentinel temp w : Option P) :
    Except Fault (Mem P D × Option P) := do
  let m ← putRed m w (← rbtreeIsRed m (← getParent m temp))
  let m ← putRed m (← getParent m temp) false
  let m ← putRed m (← getChild m d.other w) false
  rotate d m root sentinel (← getParent m temp)

/-- The body of the fixup loop of `rbtree_delete` when `temp` is the child of its parent on side
`d`.  Returns the memory, `*root` and the next `temp`. -/
def deleteFixBody (d : Dir) (m : Mem P D) (root sentinel temp : Option P) :
    Except Fault (Mem P D × Option P × Option P) := do
  let w ← getChild m d.other (← getParent m temp)
  let (m, root, w) ← deleteFixSibling d m root sentinel temp w
  if ← bothBlack m w then
    let m ← putRed m w true
    let temp ← getParent m temp
    pure (m, root, temp)
  else
    let (m, root, w) ← deleteFixNear d m root sentinel temp w
    let (m, root) ← deleteFixFar d m root sentinel temp w
    pure (m, root, root)

/-- The fixup loop of `rbtree_delete`; it ends with `rbtree_black(temp)`. -/
def deleteFix (sentinel : Option P) : Nat → Mem P D → Option P → Option P →
    Except Fault (Mem P D × Option P)
  | 0, _, _, _ => throw .diverge
  | n + 1, m, root, temp => do
    if temp = root then pure (← putRed m temp false, root)
    else if ← rbtreeIsRed m temp then pure (← putRed m temp false, root)
    else
      let pl ← getChild m .left (← getParent m temp)
      let (m, root, temp) ←
        deleteFixBody (if temp = pl then .left else .right) m root sentinel temp
      deleteFix sentinel n m root temp

/-- `rbtree_delete`: which node leaves its place (`subst`) and which one takes that place
(`temp`). -/
def deleteChoose (fuel : Nat) (m : Mem P D) (sentinel : Option P) (node : P) :
    Except Fault (Option P × Option P) :=
  if m.child .left node = sentinel then pure (some node, m.child .right node)
  else if m.child .right node = sentinel then pure (some node, m.child .left node)
  else do
    let subst ← rbtreeNodeMin m sentinel fuel (m.child .right node)
    let sl ← getChild m .left subst
    if sl ≠ sentinel then pure (subst, sl)
    else pure (subst, ← getChild m .right subst)

/-- `rbtree_delete`: `temp` takes the place of `subst` under its parent. -/
def deleteUnlink (m : Mem P D) (subst temp : Option P) : Except Fault (Mem P D) := do
  let sp ← getParent m subst
  let spl ← getChild m .left sp
  putChild m (if subst = spl then .left else .right) sp temp

/-- `rbtree_delete`: `subst` takes the place of `node`, its links and its colour.  Returns the
memory and `*root`. -/
def deleteSplice (m : Mem P D) (root sentinel : Option P) (node : P) (subst temp : Option P) :
    Except Fault (Mem P D × Option P) := do
  let sp ← getParent m subst
  let m ← putParent m temp (if sp = some node then subst else sp)
  let m ← putChild m .left subst (m.child .left node)
  let m ← putChild m .right subst (m.child .right node)
  let m ← putParent m subst (m.parent node)
  let m ← putRed m subst (m.red node)
  let (m, root) ← rehang .left m root (some node) subst
  let m ← reparent m sentinel (← getChild m .left subst) subst
  let m ← reparent m sentinel (← getChild m .right subst) subst
  pure (m, root)

/-- `rbtree_delete`: the node that leaves is `node` itself, or another one spliced into its
place. -/
def deleteMove (m : Mem P D) (root sentinel : Option P) (node : P) (subst temp : Option P) :
    Except Fault (Mem P D × Option P) :=
  if subst = some node then do
    let m ← putParent m temp (← getParent m subst)
    pure (m, root)
  else deleteSplice m root sentinel node subst temp

/-- `rbtree_delete`. -/
def rbtreeDelete (fuel : Nat) (m : Mem P D) (tree : Rbtree P) (node : P) :
    Except Fault (Mem P D × Rbtree P) := do
  let (subst, temp) ← deleteChoose fuel m tree.sentinel node
  if subst = tree.root then
    let m ← putRed m temp false
    pure (rbtreeNodeInit m node, { tree with root := temp })
  else
    let red ← rbtreeIsRed m subst
    let m ← deleteUnlink m subst temp
    let (m, root) ← deleteMove m tree.root tree.sentinel node subst temp
    let m := rbtreeNodeInit m node
    if red then pure (m, { tree with root := root })
    else
      let (m, root) ← deleteFix tree.sentinel fuel m root temp
      pure (m, { tree with root := root })

end Corosched
