/-
# The coroutine registry of `cs_scheduler.c`

`coroutine_rbt` maps a coroutine id to the coroutine.  The id is the address of the coroutine
read as a signed number, the tree node is embedded in the coroutine, and `coroutine_rbs` is the
sentinel.  `RegOk r live` says what the tree is for: it holds exactly the nodes of the coroutines
in `live`, each under its own id and pointing back to itself.
-/
import Corosched.Rbtree.Balance
import Mathlib.Data.Set.Insert
import Mathlib.Order.Interval.Finset.Nat

namespace Corosched

open RbZip

/-! ## 1. Addresses and the registry -/

/-- The address of a coroutine; `NULL` is the `none` of `Option Addr`. -/
abbrev Addr := { a : BitVec 64 // a ≠ 0 }

/-- At most one address is looked at; that there are finitely many is not used. -/
instance (p : Addr → Prop) [DecidablePred p] (o : Option Addr) : Decidable (∀ a ∈ o, p a) :=
  Option.decidableForallMem o

/-- `(coroid_t)coro`. -/
def Addr.cid (a : Addr) : Int := a.val.toInt

theorem Addr.cid_injective : Function.Injective Addr.cid :=
  fun _ _ h => Subtype.ext (BitVec.eq_of_toInt_eq h)

theorem Addr.cid_ne_zero (a : Addr) : a.cid ≠ 0 := by
  intro h
  exact a.property (BitVec.eq_of_toInt_eq (h.trans BitVec.toInt_zero.symm))

/-- A pointer to a tree node: `&coroutine_rbs`, or `&coro->node`. -/
inductive NodePtr
  | rbs
  | node (a : Addr)
  deriving DecidableEq

/-- `coroutine_rbt` and the nodes it links. -/
structure Registry where
  mem : Mem NodePtr Addr
  tree : Rbtree NodePtr

/-- The budget of the tree's loops.  None of them visits a node twice, and there are fewer than
`2 ^ 64` nodes. -/
def loopBudget : Nat := UInt64.size + 1

/-- `rbtree_init(&coroutine_rbt, &coroutine_rbs)`. -/
def Registry.init (m : Mem NodePtr Addr) : Registry :=
  ⟨(rbtreeInit m .rbs).1, (rbtreeInit m .rbs).2⟩

/-- The node of a coroutine that `coro_alloc` has cleared and `coro_spawn` has given its id and
its data. -/
def Registry.spawnNode (r : Registry) (a : Addr) : Registry :=
  let m := (rbtreeNodeInit r.mem (.node a)).setRed (.node a) false
  { r with mem := { m with
      key := Function.update m.key (.node a) a.cid
      data := Function.update m.data (.node a) (some a) } }

/-- `sched_register_coro`. -/
def schedRegisterCoro (r : Registry) (coro : Addr) : Except Fault Registry := do
  let (m, t) ← rbtreeInsert loopBudget r.mem r.tree (.node coro)
  pure ⟨m, t⟩

/-- `rbtree_delete(&coroutine_rbt, &c->node)`. -/
def Registry.delete (r : Registry) (c : Addr) : Except Fault Registry := do
  let (m, t) ← rbtreeDelete loopBudget r.mem r.tree (.node c)
  pure ⟨m, t⟩

/-- `sched_get_coro`. -/
def schedGetCoro (r : Registry) (pid : Int) : Except Fault (Option Addr) := do
  match ← rbtreeLookup loopBudget r.mem r.tree pid with
  | none => pure none
  | some value => pure (r.mem.data value)

/-! ## 2. What the registry holds -/

/-- **The registry holds exactly `live`.** -/
structure RegOk (r : Registry) (live : Set Addr) : Prop where
  tree : ∃ T, RbOk r.mem r.tree .rbs T ∧ ∀ p, p ∈ T.toList ↔ ∃ a ∈ live, p = .node a
  key : ∀ a ∈ live, r.mem.key (.node a) = a.cid
  data : ∀ a ∈ live, r.mem.data (.node a) = some a

variable {r : Registry} {live : Set Addr} {a : Addr}

/-- There are fewer nodes than addresses. -/
theorem length_lt_addresses {l : List NodePtr} (hnd : l.Nodup) (hl : NodePtr.rbs ∉ l) :
    l.length < UInt64.size := by
  let f : NodePtr → Nat := fun p => match p with
    | .rbs => 0
    | .node a => a.val.toNat
  have hinj : ∀ p ∈ l, ∀ q ∈ l, f p = f q → p = q := by
    intro p hp q hq hpq
    cases p with
    | rbs => exact absurd hp hl
    | node a =>
      cases q with
      | rbs => exact absurd hq hl
      | node b => rw [Subtype.ext (BitVec.eq_of_toNat_eq hpq)]
  have hsub : (l.map f).toFinset ⊆ Finset.Ico 1 UInt64.size := by
    intro n hn
    rw [List.mem_toFinset, List.mem_map] at hn
    obtain ⟨p, hp, rfl⟩ := hn
    cases p with
    | rbs => exact absurd hp hl
    | node a =>
      refine Finset.mem_Ico.mpr ⟨Nat.pos_of_ne_zero fun h => a.property ?_, a.val.isLt⟩
      exact BitVec.eq_of_toNat_eq h
  have hcard := Finset.card_le_card hsub
  rw [List.toFinset_card_of_nodup (hnd.map_on hinj), List.length_map, Nat.card_Ico] at hcard
  exact hcard.trans_lt (by decide)

theorem RbOk.length_lt {T : RbTree NodePtr} (hT : RbOk r.mem r.tree .rbs T) :
    T.toList.length < UInt64.size := length_lt_addresses hT.nodup hT.fresh

/-- `env_init` leaves the registry empty. -/
theorem RegOk.init (m : Mem NodePtr Addr) : RegOk (Registry.init m) ∅ :=
  ⟨⟨.nil, rbtreeInit_spec m .rbs, by simp⟩, by simp, by simp⟩

/-- **Preparing the node of a coroutine outside the tree** does not touch the tree. -/
theorem RegOk.spawnNode (h : RegOk r live) (ha : a ∉ live) : RegOk (r.spawnNode a) live ∧
    (r.spawnNode a).mem.key (.node a) = a.cid ∧ (r.spawnNode a).mem.data (.node a) = some a := by
  obtain ⟨⟨T, hT, hmem⟩, hkey, hdata⟩ := h
  have hne : ∀ b ∈ live, NodePtr.node b ≠ .node a := by
    intro b hb he
    injection he with he
    exact ha (he ▸ hb)
  have hpT : NodePtr.node a ∉ T.toList := by
    rw [hmem]
    rintro ⟨b, hb, he⟩
    exact hne b hb he.symm
  have hnode : (r.spawnNode a).mem =
      setNode r.mem (.node a) ⟨fun _ => none, none, a.cid, some a, false⟩ := by
    simp [Registry.spawnNode, rbtreeNodeInit, setNode, Mem.setRed]
  refine ⟨⟨⟨T, ?_, hmem⟩, fun b hb => ?_, fun b hb => ?_⟩, ?_, ?_⟩
  · rw [hnode]
    exact hT.setNode hpT (by simp) _
  · rw [hnode]
    exact (Function.update_of_ne (hne b hb) _ _).trans (hkey b hb)
  · rw [hnode]
    exact (Function.update_of_ne (hne b hb) _ _).trans (hdata b hb)
  · simp [Registry.spawnNode]
  · simp [Registry.spawnNode]

/-- **`sched_register_coro`** adds one coroutine. -/
theorem schedRegisterCoro_spec (h : RegOk r live) (ha : a ∉ live)
    (hk : r.mem.key (.node a) = a.cid) (hd : r.mem.data (.node a) = some a) :
    ∃ r', schedRegisterCoro r a = .ok r' ∧ RegOk r' (insert a live) := by
  obtain ⟨T, hT, hmem⟩ := h.tree
  have hpT : NodePtr.node a ∉ T.toList := by
    rw [hmem]
    rintro ⟨b, hb, he⟩
    injection he with he
    exact ha (he ▸ hb)
  have hlen := hT.length_lt
  obtain ⟨m', tree', T', A, B, hcode, hT', hA, hB, hkey, hdata⟩ :=
    rbtreeInsert_spec hT hpT (by simp) loopBudget (by rw [loopBudget]; omega)
  refine ⟨⟨m', tree'⟩, by simp [schedRegisterCoro, hcode], ⟨⟨T', hT', fun p => ?_⟩, ?_, ?_⟩⟩
  · have hp := hmem p
    rw [hA, List.mem_append] at hp
    simp only [hB, List.mem_append, List.mem_cons, Set.mem_insert_iff]
    constructor
    · rintro (hpA | rfl | hpB)
      · obtain ⟨b, hb, he⟩ := hp.mp (Or.inl hpA)
        exact ⟨b, Or.inr hb, he⟩
      · exact ⟨a, Or.inl rfl, rfl⟩
      · obtain ⟨b, hb, he⟩ := hp.mp (Or.inr hpB)
        exact ⟨b, Or.inr hb, he⟩
    · rintro ⟨b, rfl | hb, rfl⟩
      · exact Or.inr (Or.inl rfl)
      · rcases hp.mpr ⟨b, hb, rfl⟩ with hpA | hpB
        · exact Or.inl hpA
        · exact Or.inr (Or.inr hpB)
  · rintro b (rfl | hb)
    · exact (congrFun hkey _).trans hk
    · exact (congrFun hkey _).trans (h.key b hb)
  · rintro b (rfl | hb)
    · exact (congrFun hdata _).trans hd
    · exact (congrFun hdata _).trans (h.data b hb)

/-- **`rbtree_delete`** of a registered coroutine's node removes that coroutine only. -/
theorem Registry.delete_spec (h : RegOk r live) (ha : a ∈ live) :
    ∃ r', r.delete a = .ok r' ∧ RegOk r' (live \ {a}) := by
  obtain ⟨T, hT, hmem⟩ := h.tree
  have hlen := hT.length_lt
  obtain ⟨m', tree', T', A, B, hcode, hT', hA, hB, hkey, hdata⟩ :=
    rbtreeDelete_spec hT ((hmem _).mpr ⟨a, ha, rfl⟩) loopBudget (by rw [loopBudget]; omega)
  have hnd := hT.nodup
  rw [hA, List.nodup_middle, List.nodup_cons, List.mem_append] at hnd
  have hne : ∀ b, b ≠ a → NodePtr.node b ≠ .node a := by
    intro b hb he
    injection he with he
    exact hb he
  refine ⟨⟨m', tree'⟩, by simp [Registry.delete, hcode], ⟨⟨T', hT', fun p => ?_⟩, ?_, ?_⟩⟩
  · have hp := hmem p
    rw [hA, List.mem_append, List.mem_cons] at hp
    rw [hB, List.mem_append]
    constructor
    · intro hpAB
      obtain ⟨b, hb, rfl⟩ := hp.mp (hpAB.imp_right Or.inr)
      refine ⟨b, ⟨hb, ?_⟩, rfl⟩
      rintro rfl
      exact hnd.1 hpAB
    · rintro ⟨b, ⟨hb, hba⟩, rfl⟩
      rcases hp.mpr ⟨b, hb, rfl⟩ with hpA | he | hpB
      · exact Or.inl hpA
      · exact absurd he (hne b hba)
      · exact Or.inr hpB
  · rintro b ⟨hb, hba⟩
    rw [show (Registry.mk m' tree').mem.key = _ from hkey, Function.update_of_ne (hne b hba)]
    exact h.key b hb
  · rintro b ⟨hb, hba⟩
    rw [show (Registry.mk m' tree').mem.data = _ from hdata, Function.update_of_ne (hne b hba)]
    exact h.data b hb

/-- **`sched_get_coro`** of a registered id. -/
theorem schedGetCoro_live (h : RegOk r live) (ha : a ∈ live) :
    schedGetCoro r a.cid = .ok (some a) := by
  obtain ⟨T, hT, hmem⟩ := h.tree
  have hlen := hT.length_lt
  have hheight := RbTree.height_le_length T
  obtain ⟨res, hcode, hres⟩ := rbtreeLookup_spec hT a.cid loopBudget (by rw [loopBudget]; omega)
  have hin : NodePtr.node a ∈ T.toList := (hmem _).mpr ⟨a, ha, rfl⟩
  cases hres with
  | node mem eq =>
    obtain ⟨b, hb, rfl⟩ := (hmem _).mp mem
    have hab : b = a := Addr.cid_injective ((h.key b hb).symm.trans eq)
    subst hab
    simp [schedGetCoro, hcode, h.data b hb]
  | sentinel absent zero => exact absurd (h.key a ha) (absent _ hin)
  | absent absent ne => exact absurd (h.key a ha) (absent _ hin)

/-- **`sched_get_coro`** of any other id, `0` included: the sentinel's data is nil. -/
theorem schedGetCoro_absent (h : RegOk r live) {pid : Int} (hpid : ∀ a ∈ live, a.cid ≠ pid) :
    schedGetCoro r pid = .ok none := by
  obtain ⟨T, hT, hmem⟩ := h.tree
  have hlen := hT.length_lt
  have hheight := RbTree.height_le_length T
  obtain ⟨res, hcode, hres⟩ := rbtreeLookup_spec hT pid loopBudget (by rw [loopBudget]; omega)
  cases hres with
  | node mem eq =>
    obtain ⟨b, hb, rfl⟩ := (hmem _).mp mem
    exact absurd ((h.key b hb).symm.trans eq) (hpid b hb)
  | sentinel absent zero => simp [schedGetCoro, hcode, hT.sent_data]
  | absent absent ne => simp [schedGetCoro, hcode]

/-! ## 3. Runs of registrations and removals -/

/-- One operation on the registry. -/
inductive RegOp
  /-- `coro_spawn` registers a coroutine at this address -/
  | register (a : Addr)
  /-- `sched_run` removes the coroutine at this address -/
  | remove (a : Addr)

/-- The registry after one operation. -/
def Registry.apply (r : Registry) : RegOp → Except Fault Registry
  | .register a => schedRegisterCoro (r.spawnNode a) a
  | .remove a => r.delete a

/-- The registered coroutines after one operation. -/
def RegOp.after (live : Set Addr) : RegOp → Set Addr
  | .register a => insert a live
  | .remove a => live \ {a}

/-- A registration is of an address that is not registered, a removal of one that is. -/
def RegOp.Legal (live : Set Addr) : RegOp → Prop
  | .register a => a ∉ live
  | .remove a => a ∈ live

/-- `RegRun m ops r live`: from `rbtree_init` on memory `m`, the operations `ops` were legal where
they were made and led to the registry `r` with the coroutines `live` registered. -/
inductive RegRun (m : Mem NodePtr Addr) : List RegOp → Except Fault Registry → Set Addr → Prop
  | nil : RegRun m [] (.ok (Registry.init m)) ∅
  | snoc {ops : List RegOp} {x : Except Fault Registry} {live : Set Addr} {o : RegOp}
      (run : RegRun m ops x live) (legal : o.Legal live) :
      RegRun m (ops ++ [o]) (x >>= fun r => r.apply o) (o.after live)

/-- One legal operation succeeds and keeps the registry what it is for. -/
theorem Registry.apply_spec (h : RegOk r live) {op : RegOp} (hop : op.Legal live) :
    ∃ r', r.apply op = .ok r' ∧ RegOk r' (op.after live) := by
  cases op with
  | register a =>
    obtain ⟨h', hk, hd⟩ := h.spawnNode hop
    exact schedRegisterCoro_spec h' hop hk hd
  | remove a => exact Registry.delete_spec h hop

theorem RegRun.regOk {m : Mem NodePtr Addr} {ops : List RegOp} {x : Except Fault Registry}
    (h : RegRun m ops x live) : ∃ r, x = .ok r ∧ RegOk r live := by
  induction h with
  | nil => exact ⟨_, rfl, .init m⟩
  | snoc run legal ih =>
    obtain ⟨r, rfl, hr⟩ := ih
    exact Registry.apply_spec hr legal

/-- **The registry is a correct partial map.**  After every legal run no operation has failed,
and a lookup returns the coroutine registered under the id, or nil. -/
theorem registry_correct {m : Mem NodePtr Addr} {ops : List RegOp} {x : Except Fault Registry}
    {live : Set Addr} (h : RegRun m ops x live) :
    ∃ r, x = .ok r ∧ (∀ a ∈ live, schedGetCoro r a.cid = .ok (some a)) ∧
      ∀ pid : Int, (∀ a ∈ live, a.cid ≠ pid) → schedGetCoro r pid = .ok none := by
  obtain ⟨r, rfl, hr⟩ := h.regOk
  exact ⟨r, rfl, fun a ha => schedGetCoro_live hr ha, fun pid hpid => schedGetCoro_absent hr hpid⟩

/-- Two coroutines registered and the first removed: the second is found, the id of the first and
the id `0` give nil. -/
theorem registry_correct_two :
    ∃ r, (((Except.ok (Registry.init ⟨fun _ _ => none, fun _ => none, fun _ => 0, fun _ => none,
        fun _ => false⟩) >>= fun r => r.apply (.register ⟨16, by decide⟩)) >>=
        fun r => r.apply (.register ⟨32, by decide⟩)) >>=
        fun r => r.apply (.remove ⟨16, by decide⟩)) = .ok r ∧
      schedGetCoro r 32 = .ok (some ⟨32, by decide⟩) ∧ schedGetCoro r 16 = .ok none ∧
      schedGetCoro r 0 = .ok none := by
  obtain ⟨r, hr, hlive, habs⟩ := registry_correct (m := ⟨fun _ _ => none, fun _ => none,
    fun _ => 0, fun _ => none, fun _ => false⟩)
    (((RegRun.nil.snoc (o := .register ⟨16, by decide⟩) (by simp [RegOp.Legal])).snoc
      (o := .register ⟨32, by decide⟩) (by simp [RegOp.Legal, RegOp.after])).snoc
      (o := .remove ⟨16, by decide⟩) (by simp [RegOp.Legal, RegOp.after]))
  refine ⟨r, hr, hlive ⟨32, by decide⟩ (by simp [RegOp.after]), habs 16 ?_, habs 0 ?_⟩
  · simp [RegOp.after, Addr.cid]
  · exact fun a _ => a.cid_ne_zero

end Corosched
