/-
# Handing a coroutine back to the master scheduler

`coro_switch_to_master` sends bytes through a socketpair and `scheduleback_run` receives them,
against every interleaving and every way in which `recv` splits the stream.  What is sent is not
the pointer but the beginning of what it points to, the forward link of a coroutine that is in no
queue: eight zero bytes, so what `scheduleback_run` receives is always the null pointer.
`handback_delivers` says when this shows.
-/
import Corosched.Steps
import Corosched.Moves

namespace Corosched

open State

/-! ## 1. The receiver -/

/-- What `recv` returned. -/
inductive RecvResult
  /-- `-1` with `EINTR` -/
  | eintr
  /-- `-1` with `EAGAIN` -/
  | eagain
  /-- a count of bytes -/
  | got (n : Nat)

/-- The pointer with the given bytes, little endian. -/
def bytesPtr (bs : List (BitVec 8)) : Option Addr :=
  let v := BitVec.ofNat 64 (bs.foldr (fun b n => b.toNat + 256 * n) 0)
  if h : v = 0 then none else some ⟨v, h⟩

/-- The program together with `scheduleback_run`: its local `c`, byte by byte, the coroutines sent
whole so far, and those it has passed to `coro_ready`. -/
structure Handback where
  sys : State
  c : List (BitVec 8)
  sent : List Addr
  readied : List Addr

/-- `scheduleback_run` after the loop of `recv`, up to the start of the next one. -/
def schedulebackReady (x : Handback) : Except Fault Handback :=
  match bytesPtr x.c with
  | none => pure { x with c := ptrBytes none }
  | some a => do
    let k ← x.sys.load a
    let s ← coroReady (x.sys.setCoro a { k with needParallel := false }) (some a)
    pure { x with sys := s, c := ptrBytes none, readied := x.readied ++ [a] }

/-- **One `recv` of `scheduleback_run`**, and what follows it: another round after `EINTR`, and the
end of the loop after everything else, also after a part of a pointer. -/
def schedulebackRun (x : Handback) : RecvResult → Option (Except Fault Handback)
  | .eintr => some (pure x)
  | .eagain => some (schedulebackReady x)
  | .got n =>
    if 0 < n ∧ n ≤ sizeofPtr ∧ n ≤ x.sys.sock.length then
      some (schedulebackReady { x with
        sys := { x.sys with sock := x.sys.sock.drop n }
        c := x.sys.sock.take n ++ x.c.drop n })
    else none

/-! ## 2. Both sides -/

/-- A step of the program, or a `recv`. -/
inductive HandbackAct
  | sys (act : Act)
  | recv (r : RecvResult)

/-- The coroutine a step sends whole. -/
def sentBy (s : State) : Act → List Addr
  | .send (.sent n) => match s.parallel with
    | .sending co => if n = sizeofPtr then [co] else []
    | _ => []
  | _ => []

/-- **One step of both sides.** -/
def handbackStep : Machine Handback HandbackAct Fault := fun x act =>
  match act with
  | .sys act => (step x.sys act).map fun r => do
    let s ← r
    pure { x with sys := s, sent := x.sent ++ sentBy x.sys act }
  | .recv r => schedulebackRun x r

/-- Nothing was sent yet. -/
def handbackStart (s : State) : Handback := ⟨s, ptrBytes none, [], []⟩

/-- The runs in question: clean, and `send` accepts a whole pointer or nothing. -/
def WholeSends (x : Handback) : HandbackAct → Prop
  | .sys act => Clean x.sys act ∧ match act with
    | .send (.sent n) => n = sizeofPtr
    | _ => True
  | .recv _ => True

instance (x : Handback) (act : HandbackAct) : Decidable (WholeSends x act) := by
  unfold WholeSends
  split
  · exact @instDecidableAnd _ _ _ (by split <;> infer_instance)
  · infer_instance

/-- **The hand-back delivers**: what was readied is the beginning of what was sent, and all of it
once every byte has been received. -/
structure HandedBack (x : Handback) : Prop where
  in_order : x.readied <+: x.sent
  all : x.sys.sock = [] → x.readied = x.sent

/-- A `recv` that leaves bytes unread. -/
def Unread (x : Handback) : HandbackAct → Prop
  | .recv (.got n) => n < x.sys.sock.length
  | _ => True

instance (x : Handback) (act : HandbackAct) : Decidable (Unread x act) := by
  unfold Unread
  split <;> infer_instance

/-! ## 3. What is in the stream -/

/-- **A pointer survives the stream**, had it been sent. -/
theorem bytesPtr_ptrBytes (p : Option Addr) : bytesPtr (ptrBytes p) = p := by
  cases p with
  | none => rfl
  | some a =>
    have hv : BitVec.ofNat 64 ((ptrBytes (some a)).foldr (fun b n => b.toNat + 256 * n) 0) =
        a.val := by
      apply BitVec.eq_of_toNat_eq
      have := a.val.isLt
      simp [ptrBytes, List.range_succ_eq_map, BitVec.extractLsb'_toNat, Nat.shiftRight_eq_div_pow]
      omega
    simp only [bytesPtr, hv]
    rw [dif_neg a.property]

variable {s s' : State} {x x' : Handback} {act : HandbackAct} {co : Addr}

/-- Zero bytes are the null pointer. -/
theorem bytesPtr_zero {bs : List (BitVec 8)} (h : ∀ b ∈ bs, b = 0) : bytesPtr bs = none := by
  have hfold : bs.foldr (fun b n => b.toNat + 256 * n) 0 = 0 := by
    induction bs with
    | nil => rfl
    | cons b bs ih =>
      have hb := h b List.mem_cons_self
      have hbs := ih fun b' hb' => h b' (List.mem_cons_of_mem b hb')
      simp [hb, hbs]
  simp [bytesPtr, hfold]

/-- A coroutine that is in no queue has no forward link. -/
theorem Coherent.next_none (hs : Coherent s) (hout : Out s.hist co) :
    s.queue.val (.next co) = none := by
  cases he : s.queue.entry co with
  | none => simp [Tailq.Heap.val, he]
  | some e =>
    have hclear := hs.store.queues.clear co e he hout
    simp [Tailq.Heap.val, he, hclear, Tailq.Entry.clear]

/-- **What `coro_switch_to_master` sends** are zero bytes, and there are some where a coroutine is
sent. -/
theorem Coherent.sends_zero (hs : Coherent s) {n : SendResult}
    (hw : ∀ m, n = .sent m → m = sizeofPtr) (h : Corosched.sendStep s n = some (.ok s')) :
    ∃ bytes, s'.sock = s.sock ++ bytes ∧ (∀ b ∈ bytes, b = 0) ∧
      (bytes = [] ↔ sentBy s (.send n) = []) := by
  rw [Corosched.sendStep] at h
  cases hp : s.parallel with
  | sending co =>
    obtain ⟨⟨k, hk, -⟩, hout⟩ := hs.parallel.held (b := co) (by rw [hp]; rfl)
    have hnext := hs.next_none hout
    cases n with
    | eintr =>
      simp [hp, SendResult.Ok, coroSwitchToMaster, load_some hk] at h
      subst h
      exact ⟨[], by simp, by simp, by simp [sentBy]⟩
    | fail =>
      simp [hp, SendResult.Ok, coroSwitchToMaster, load_some hk] at h
      subst h
      exact ⟨[], by simp [State.setCoro], by simp, by simp [sentBy]⟩
    | sent m =>
      obtain rfl := hw m rfl
      simp [hp, SendResult.Ok, coroSwitchToMaster, load_some hk, hnext, sizeofPtr,
        sizeofCoroutine] at h
      subst h
      exact ⟨(ptrBytes none).take 8, rfl, by decide, by simp [sentBy, hp, ptrBytes]⟩
  | _ => simp [hp] at h

/-! ## 4. The invariant -/

/-- **What holds throughout**: the stream is zero, and nothing is ever readied. -/
structure Lost (x : Handback) : Prop where
  coherent : Coherent x.sys
  zero : ∀ b ∈ x.sys.sock, b = 0
  c : x.c = ptrBytes none
  readied : x.readied = []
  sent : x.sys.sock ≠ [] → x.sent ≠ []

/-- Nothing was consumed completely: without a byte in the stream nothing has been sent. -/
def Pristine (x : Handback) : Prop := x.sys.sock = [] → x.sent = []

/-- A step of the program. -/
theorem Lost.sys {a : Act} (hx : Lost x) (hw : WholeSends x (.sys a))
    (h : handbackStep x (.sys a) = some (.ok x')) : Lost x' ∧ (Pristine x → Pristine x') := by
  simp only [handbackStep, Option.map_eq_some_iff, bind_eq_ok] at h
  obtain ⟨r, hstep, s', rfl, h⟩ := h
  simp only [pure_eq_ok, Except.ok.injEq] at h
  subst h
  have hcoh := hx.coherent.step hw.1 hstep
  by_cases ha : ∃ n, a = .send n
  · obtain ⟨n, rfl⟩ := ha
    have hwhole : ∀ m, n = .sent m → m = sizeofPtr := by
      rintro m rfl
      exact hw.2
    obtain ⟨bytes, hsock, hzero, hbytes⟩ := hx.coherent.sends_zero hwhole hstep
    refine ⟨⟨hcoh, fun b hb => ?_, hx.c, hx.readied, fun hne => ?_⟩, fun hp hnil => ?_⟩
    · simp only [hsock, List.mem_append] at hb
      exact hb.elim (hx.zero b) (hzero b)
    · simp only [ne_eq, hsock, List.append_eq_nil_iff, not_and_or, hbytes] at hne ⊢
      exact hne.imp hx.sent id
    · simp only [hsock, List.append_eq_nil_iff, hbytes] at hnil
      simp [hp hnil.1, hnil.2]
  · have hsock : s'.sock = x.sys.sock :=
      step_sock hx.coherent.parallelCur (fun n hn => ha ⟨n, hn⟩) hstep
    have hsent : sentBy x.sys a = [] := by
      cases a with
      | send n => exact absurd ⟨n, rfl⟩ ha
      | _ => rfl
    refine ⟨⟨hcoh, fun b hb => ?_, hx.c, hx.readied, fun hne => ?_⟩, fun hp hnil => ?_⟩
    · exact hx.zero b (hsock ▸ hb)
    · simp only [hsent, List.append_nil]
      exact hx.sent (hsock ▸ hne)
    · simp only [hsent, List.append_nil]
      exact hp (hsock ▸ hnil)

/-- A `recv`. -/
theorem Lost.recv {r : RecvResult} (hx : Lost x)
    (h : handbackStep x (.recv r) = some (.ok x')) :
    Lost x' ∧ x'.sent = x.sent ∧
      (Unread x (.recv r) → x'.sys.sock = [] → x.sys.sock = []) ∧
      (¬ Unread x (.recv r) → x'.sys.sock = [] ∧ x.sys.sock ≠ []) := by
  have hnil : bytesPtr x.c = none := by rw [hx.c]; rfl
  simp only [handbackStep] at h
  cases r with
  | eintr =>
    simp only [schedulebackRun, pure_eq_ok, Option.some.injEq, Except.ok.injEq] at h
    subst h
    exact ⟨hx, rfl, fun _ => id, fun hu => absurd trivial hu⟩
  | eagain =>
    simp only [schedulebackRun, schedulebackReady, hnil, pure_eq_ok, Option.some.injEq,
      Except.ok.injEq] at h
    subst h
    exact ⟨⟨hx.coherent, hx.zero, rfl, hx.readied, hx.sent⟩, rfl, fun _ => id,
      fun hu => absurd trivial hu⟩
  | got n =>
    simp only [schedulebackRun] at h
    split at h
    · rename_i hn
      have hzero : bytesPtr (x.sys.sock.take n ++ x.c.drop n) = none := by
        refine bytesPtr_zero fun b hb => ?_
        rcases List.mem_append.mp hb with hb | hb
        · exact hx.zero b (List.mem_of_mem_take hb)
        · rw [hx.c] at hb
          have hall : ∀ b ∈ ptrBytes none, b = 0 := by decide
          exact hall b (List.mem_of_mem_drop hb)
      simp only [schedulebackReady, hzero, pure_eq_ok, Option.some.injEq, Except.ok.injEq] at h
      subst h
      refine ⟨⟨?_, fun b hb => hx.zero b (List.mem_of_mem_drop hb), rfl, hx.readied,
        fun hne => hx.sent fun he => hne ?_⟩, rfl, fun hu he => ?_, fun hu => ⟨?_, fun he => ?_⟩⟩
      · exact hx.coherent.quiet rfl rfl rfl rfl rfl rfl fun _ => rfl
      · simp [he]
      · simp only [List.drop_eq_nil_iff] at he
        have : n < x.sys.sock.length := hu
        omega
      · exact List.drop_eq_nil_iff.mpr (not_lt.mp hu)
      · rw [he] at hn
        simp only [List.length_nil] at hn
        omega
    · exact absurd h (by simp)

/-- **Every step of both sides** keeps what holds throughout; and it stays pristine as long as
bytes are left unread. -/
theorem Lost.step (hx : Lost x) (hw : WholeSends x act)
    (h : handbackStep x act = some (.ok x')) :
    Lost x' ∧ (Unread x act → Pristine x → Pristine x') := by
  cases act with
  | sys a => exact ⟨(hx.sys hw h).1, fun _ => (hx.sys hw h).2⟩
  | recv r =>
    obtain ⟨hx', hsent, hsock, -⟩ := hx.recv h
    refine ⟨hx', fun hu hp hnil => ?_⟩
    rw [hsent]
    exact hp (hsock hu hnil)

/-! ## 5. The runs -/

/-- **When the hand-back delivers.**  In a clean run that starts with an empty stream and in which
`send` accepts whole pointers or nothing, every state is `HandedBack` if and only if no `recv`
consumes the last byte sent. -/
theorem handback_delivers (hs : Coherent s) (hsock : s.sock = []) {as : List HandbackAct}
    (h : Machine.Run handbackStep WholeSends (handbackStart s) as x) :
    Machine.Throughout handbackStep HandedBack (handbackStart s) as ↔
      Machine.Meets handbackStep Unread (handbackStart s) as := by
  have hstart : Lost (handbackStart s) :=
    ⟨hs, by simp [handbackStart, hsock], rfl, rfl, by simp [handbackStart, hsock]⟩
  have hlost : ∀ {bs y}, bs <+: as → Machine.Run handbackStep Machine.Any (handbackStart s) bs y →
      Lost y := fun hp hrun => (h.meets.run hp hrun).inv
    (fun _ _ _ hi hw hstep => (hi.step hw hstep).1) hstart
  constructor
  · rintro hd bs act y ⟨cs, hcs⟩ hbs
    by_contra hu
    have hpre : bs <+: as := ⟨[act] ++ cs, by rw [← hcs, List.append_assoc]⟩
    have hy := hlost hpre hbs
    rw [← hcs] at h
    obtain ⟨y₂, hrun₂, -⟩ := h.append_inv
    obtain ⟨y', hrun', -, hstep⟩ := hrun₂.snoc_inv
    obtain rfl := hrun'.det hbs
    have hy₂ := hlost ⟨cs, hcs⟩ hrun₂.any
    cases act with
    | sys a => exact hu trivial
    | recv r =>
      obtain ⟨-, hsent, -, hempty⟩ := hy.recv hstep
      obtain ⟨hnil, hne⟩ := hempty hu
      have hall := (hd _ y₂ ⟨cs, hcs⟩ hrun₂.any).all hnil
      rw [hy₂.readied, hsent] at hall
      exact hy.sent hne hall.symm
  · intro hmeets
    have hboth : Machine.Meets handbackStep (fun x act => WholeSends x act ∧ Unread x act)
        (handbackStart s) as := fun bs act y hp hrun => ⟨h.meets bs act y hp hrun,
      hmeets bs act y hp hrun⟩
    refine hboth.throughout (I := fun y => Lost y ∧ Pristine y) (fun y act y' hi hc hstep => ?_)
      ⟨hstart, fun _ => rfl⟩ fun y hi => ?_
    · obtain ⟨hy', hp⟩ := hi.1.step hc.1 hstep
      exact ⟨hy', hp hc.2 hi.2⟩
    · exact ⟨by simp [hi.1.readied], fun hnil => by rw [hi.1.readied, hi.2 hnil]⟩

theorem sixteen_ne_zero : (16 : BitVec 64) ≠ 0 := by decide

/-- Everything from the start of the program to the coroutine `16`, spawned on the parallel
scheduler, being sent. -/
def handbackRun : List HandbackAct :=
  [.sys (.main .parallel .user (some ⟨16, sixteen_ne_zero⟩)), .sys .envRun, .sys .master,
    .sys .master, .sys .parallel, .sys .parallel, .sys .parallel, .sys .parallel, .sys .parallel,
    .sys .parallel, .sys (.call .parallel .transfer), .sys .parallel, .sys (.send (.sent 8))]

/-- While three of the eight bytes are unread. -/
theorem handback_delivers_partly :
    ∃ x, Machine.exec handbackStep (fun x act => WholeSends x act ∧ Unread x act)
        (handbackStart (State.boot none)) (handbackRun ++ [.recv (.got 5)]) = some (.ok x) ∧
      x.sent = [⟨16, by decide⟩] ∧ x.sys.sock.length = 3 ∧
      Machine.Throughout handbackStep HandedBack (handbackStart (State.boot none))
        (handbackRun ++ [.recv (.got 5)]) := by
  have hrun : ∃ x, Machine.exec handbackStep (fun x act => WholeSends x act ∧ Unread x act)
        (handbackStart (State.boot none)) (handbackRun ++ [.recv (.got 5)]) = some (.ok x) ∧
      x.sent = [⟨16, by decide⟩] ∧ x.sys.sock.length = 3 := ⟨_, rfl, rfl, rfl⟩
  obtain ⟨x, hexec, hsent, hlen⟩ := hrun
  have hrun' := Machine.Run.of_exec hexec
  exact ⟨x, hexec, hsent, hlen, (handback_delivers (Coherent.boot none) rfl
    (hrun'.imp fun _ _ h => h.1)).mpr fun bs act y hp hbs => (hrun'.meets bs act y hp hbs).2⟩

/-- The coroutine `16` is sent whole and received whole, and vanishes. -/
theorem handback_vanishes :
    ∃ x, Machine.exec handbackStep Machine.Any (handbackStart (State.boot none))
        (handbackRun ++ [.recv (.got 8)]) = some (.ok x) ∧
      x.sent = [⟨16, by decide⟩] ∧ x.sys.sock = [] ∧ x.readied = [] ∧ ¬ HandedBack x := by
  have hrun : ∃ x, Machine.exec handbackStep Machine.Any (handbackStart (State.boot none))
        (handbackRun ++ [.recv (.got 8)]) = some (.ok x) ∧
      x.sent = [⟨16, by decide⟩] ∧ x.sys.sock = [] ∧ x.readied = [] := ⟨_, rfl, rfl, rfl, rfl⟩
  obtain ⟨x, hexec, hsent, hsock, hready⟩ := hrun
  refine ⟨x, hexec, hsent, hsock, hready, fun hx => ?_⟩
  have hall := hx.all hsock
  rw [hsent, hready] at hall
  exact absurd hall (by simp)

end Corosched
