/-
# `_cs_sendn` and `_cs_recvn`

The loops of `cs_util.c` that send and receive a whole message on a blocking descriptor, over a
stream between two parties.  Each round of a loop is a step of its own, so the rounds of the two
parties come in any order; the kernel accepts and delivers as many bytes at a time as it likes, and
may interrupt any call.

The machine keeps what each finished call was given, what it has moved and what it returned; the
program does not see this.
-/
import Corosched.Fault
import Corosched.Lib.Framing
import Corosched.Lib.Run

namespace Corosched
namespace Stream

/-! ## 1. The loops -/

/-- What `send` or `recv` returned. -/
inductive IoResult
  /-- `-1` with `EINTR` -/
  | eintr
  /-- `-1` with another error -/
  | fail
  | count (n : Nat)
  deriving DecidableEq

/-- What follows a round of a loop. -/
inductive Round (σ : Type)
  | again (x : σ)
  | ret (v : Int)

/-- `_cs_sendn(sd, vptr, n)`: `n`, and the `nleft` bytes at `ptr`. -/
structure Sendn where
  n : Nat
  rest : List (BitVec 8)

/-- `while (nleft > 0)`. -/
def Sendn.test (x : Sendn) : Round Sendn :=
  if 0 < x.rest.length then .again x else .ret x.n

/-- A round, after `send` has returned. -/
def Sendn.round (x : Sendn) : IoResult → Round Sendn
  | .eintr => x.test
  | .fail => .ret (-1)
  | .count nsend =>
    if nsend = 0 then .ret (-1)
    else Sendn.test { x with rest := x.rest.drop nsend }

/-- `_cs_recvn(sd, vptr, n)`: `n`, `nleft` and the bytes between `vptr` and `ptr`. -/
structure Recvn where
  n : Nat
  nleft : Nat
  buf : List (BitVec 8)

/-- `while (nleft > 0)`. -/
def Recvn.test (x : Recvn) : Round Recvn :=
  if 0 < x.nleft then .again x else .ret ((x.n : Int) - x.nleft)

/-- A round, after `recv` has returned; `got` is what it has written to the buffer. -/
def Recvn.round (x : Recvn) (got : List (BitVec 8)) : IoResult → Round Recvn
  | .eintr => x.test
  | .fail => .ret (-1)
  | .count nrecv =>
    if nrecv = 0 then .ret ((x.n : Int) - x.nleft)
    else Recvn.test { x with nleft := x.nleft - nrecv, buf := x.buf ++ got }

/-! ## 2. The two parties -/

/-- A call of `_cs_sendn` that has returned: the message, the bytes the kernel has accepted and the
result. -/
structure SendCall where
  msg : List (BitVec 8)
  put : List (BitVec 8)
  ret : Int

/-- A call of `_cs_recvn` that has returned: `n`, the bytes it was given and the result. -/
structure RecvCall where
  n : Nat
  buf : List (BitVec 8)
  ret : Int

/-- A connection: the call the sender is in, with its message, the bytes in the stream, whether the
sender has closed it, and the call the receiver is in. -/
structure Conn where
  sender : Option (List (BitVec 8) × Sendn)
  stream : List (BitVec 8)
  closed : Bool
  receiver : Option Recvn
  sends : List SendCall
  recvs : List RecvCall

inductive Act
  | callSend (msg : List (BitVec 8))
  | send (r : IoResult)
  | close
  | callRecv (n : Nat)
  | recv (r : IoResult)

/-- The sender goes on, or has returned. -/
def Conn.sending (c : Conn) (msg : List (BitVec 8)) (put : List (BitVec 8)) :
    Round Sendn → Conn
  | .again x => { c with sender := some (msg, x) }
  | .ret v => { c with sender := none, sends := c.sends ++ [⟨msg, put, v⟩] }

/-- The receiver goes on, or has returned. -/
def Conn.receiving (c : Conn) (n : Nat) (buf : List (BitVec 8)) : Round Recvn → Conn
  | .again x => { c with receiver := some x }
  | .ret v => { c with receiver := none, recvs := c.recvs ++ [⟨n, buf, v⟩] }

/-- The number of bytes a call has moved. -/
def IoResult.moved : IoResult → Nat
  | .count n => n
  | _ => 0

/-- **One step of the connection.**  `send` accepts no more than it is given; `recv` delivers no
more than it is asked for and is in the stream, and nothing only at the end of the stream. -/
def connStep : Machine Conn Act Fault := fun c act =>
  match act with
  | .callSend msg =>
    match c.sender, c.closed with
    | none, false => some (.ok (c.sending msg [] (Sendn.test ⟨msg.length, msg⟩)))
    | _, _ => none
  | .send r =>
    match c.sender with
    | some (msg, x) =>
      if r.moved ≤ x.rest.length then
        some (.ok (Conn.sending { c with stream := c.stream ++ x.rest.take r.moved } msg
          (msg.take (msg.length - (x.rest.length - r.moved))) (x.round r)))
      else none
    | none => none
  | .close =>
    match c.sender with
    | none => some (.ok { c with closed := true })
    | some _ => none
  | .callRecv n =>
    match c.receiver with
    | none => some (.ok (c.receiving n [] (Recvn.test ⟨n, n, []⟩)))
    | some _ => none
  | .recv r =>
    match c.receiver with
    | some x =>
      if r.moved ≤ x.nleft ∧ r.moved ≤ c.stream.length ∧
          (r = .count 0 → c.stream = [] ∧ c.closed = true) then
        some (.ok (Conn.receiving { c with stream := c.stream.drop r.moved } x.n
          (x.buf ++ c.stream.take r.moved) (x.round (c.stream.take r.moved) r)))
      else none
    | none => none

/-- A new connection. -/
def Conn.start : Conn := ⟨none, [], false, none, [], []⟩

/-! ## 3. What is sent and what is received -/

/-- The bytes the kernel has accepted. -/
def Conn.accepted (c : Conn) : List (BitVec 8) :=
  (c.sends.map SendCall.put).flatten ++ match c.sender with
    | some (msg, x) => msg.take (msg.length - x.rest.length)
    | none => []

/-- The bytes the receiver was given. -/
def Conn.delivered (c : Conn) : List (BitVec 8) :=
  (c.recvs.map RecvCall.buf).flatten ++ match c.receiver with
    | some x => x.buf
    | none => []

/-- **The result of `_cs_sendn` tells whether the message is in the stream**: all of it if the
result is `n`, and otherwise, with `-1`, a part of it, which may be empty but is not all. -/
structure SendCall.Sound (k : SendCall) : Prop where
  part : k.put <+: k.msg
  result : k.ret = k.msg.length ∧ k.put = k.msg ∨ k.ret = -1 ∧ k.put ≠ k.msg

/-- **The result of `_cs_recvn` tells what is in the buffer**, unless it is `-1`: then bytes may
have been taken from the stream and are lost.  It is less than `n` only at the end of the stream. -/
structure RecvCall.Sound (k : RecvCall) (atEnd : Prop) : Prop where
  room : k.buf.length ≤ k.n
  result : k.ret = k.buf.length ∧ (k.buf.length < k.n → atEnd) ∨ k.ret = -1 ∧ k.buf.length < k.n

/-- **The connection**: what was received, with what is still in the stream, is what was sent. -/
structure Conn.Sound (c : Conn) : Prop where
  bytes : c.delivered ++ c.stream = c.accepted
  sends : ∀ k ∈ c.sends, k.Sound
  recvs : ∀ k ∈ c.recvs, k.Sound (c.closed = true ∧ c.stream = [])
  sender : ∀ msg x, c.sender = some (msg, x) →
    x.n = msg.length ∧ x.rest ≠ [] ∧ x.rest <:+ msg ∧ c.closed = false
  receiver : ∀ x, c.receiver = some x → x.buf.length + x.nleft = x.n ∧ 0 < x.nleft

variable {c c' : Conn} {act : Act} {r : IoResult} {x y : Sendn} {z w : Recvn} {v : Int}
  {msg put got buf : List (BitVec 8)} {n : Nat}

/-! ## 4. A round -/

theorem Sendn.test_again : x.test = .again y ↔ y = x ∧ x.rest ≠ [] := by
  rw [Sendn.test]
  split <;> rename_i h <;> simp_all [List.length_pos_iff, eq_comm]

theorem Sendn.test_ret : x.test = .ret v ↔ v = x.n ∧ x.rest = [] := by
  rw [Sendn.test]
  split <;> rename_i h <;> simp_all [List.length_pos_iff, eq_comm]

theorem Recvn.test_again : z.test = .again w ↔ w = z ∧ 0 < z.nleft := by
  rw [Recvn.test]
  split <;> simp_all [eq_comm]

theorem Recvn.test_ret : z.test = .ret v ↔ v = z.n ∧ z.nleft = 0 := by
  rw [Recvn.test]
  split
  · simp
    omega
  · have : z.nleft = 0 := by omega
    simp [this, eq_comm]

/-- `_cs_sendn` goes on with what `send` has not accepted. -/
theorem Sendn.round_again (h : x.round r = .again y) :
    y = ⟨x.n, x.rest.drop r.moved⟩ ∧ y.rest ≠ [] := by
  cases r with
  | eintr =>
    obtain ⟨rfl, hne⟩ := Sendn.test_again.mp h
    exact ⟨rfl, hne⟩
  | fail => exact absurd h (by simp [Sendn.round])
  | count k =>
    simp only [Sendn.round] at h
    split at h
    · exact absurd h (by simp)
    · obtain ⟨rfl, hne⟩ := Sendn.test_again.mp h
      exact ⟨rfl, hne⟩

/-- It returns `n` when nothing is left, and otherwise `-1`. -/
theorem Sendn.round_ret (hx : x.rest ≠ []) (h : x.round r = .ret v) :
    v = x.n ∧ x.rest.drop r.moved = [] ∨ v = -1 ∧ x.rest.drop r.moved ≠ [] := by
  cases r with
  | eintr => exact absurd (Sendn.test_ret.mp h).2 hx
  | fail =>
    simp only [Sendn.round, Round.ret.injEq] at h
    exact .inr ⟨h.symm, hx⟩
  | count k =>
    simp only [Sendn.round] at h
    split at h
    · rename_i hk
      simp only [Round.ret.injEq] at h
      exact .inr ⟨h.symm, by simpa [IoResult.moved, hk] using hx⟩
    · exact .inl (Sendn.test_ret.mp h)

/-- `_cs_recvn` goes on with the bytes that `recv` has delivered. -/
theorem Recvn.round_again (hgot : got.length = r.moved) (h : z.round got r = .again w) :
    w = ⟨z.n, z.nleft - r.moved, z.buf ++ got⟩ ∧ 0 < w.nleft := by
  cases r with
  | eintr =>
    obtain ⟨rfl, hpos⟩ := Recvn.test_again.mp h
    rw [List.eq_nil_of_length_eq_zero hgot, List.append_nil]
    exact ⟨rfl, hpos⟩
  | fail => exact absurd h (by simp [Recvn.round])
  | count k =>
    simp only [Recvn.round] at h
    split at h
    · exact absurd h (by simp)
    · obtain ⟨rfl, hpos⟩ := Recvn.test_again.mp h
      exact ⟨rfl, hpos⟩

/-- It returns the number of bytes it was given, fewer than `n` after a `recv` of none, or `-1`. -/
theorem Recvn.round_ret (hz : z.buf.length + z.nleft = z.n) (hpos : 0 < z.nleft)
    (hgot : got.length = r.moved) (hle : r.moved ≤ z.nleft) (h : z.round got r = .ret v) :
    v = (z.buf ++ got).length ∧ ((z.buf ++ got).length < z.n → r = .count 0) ∨
      v = -1 ∧ (z.buf ++ got).length < z.n := by
  rw [List.length_append]
  cases r with
  | eintr => exact absurd (Recvn.test_ret.mp h).2 (by omega)
  | fail =>
    simp only [Recvn.round, Round.ret.injEq] at h
    simp only [IoResult.moved] at hgot
    exact .inr ⟨h.symm, by omega⟩
  | count k =>
    simp only [Recvn.round] at h
    simp only [IoResult.moved] at hgot hle
    split at h
    · rename_i hk
      simp only [Round.ret.injEq] at h
      exact .inl ⟨by omega, fun _ => by rw [hk]⟩
    · obtain ⟨hv, hleft⟩ := Recvn.test_ret.mp h
      simp only at hv hleft
      exact .inl ⟨by omega, fun hlt => by omega⟩

/-! ## 5. A step -/

/-- What the kernel has accepted of a message goes together with where the call stands. -/
structure SendOk (msg put : List (BitVec 8)) (o : Round Sendn) : Prop where
  again : ∀ y, o = .again y → y.n = msg.length ∧ y.rest ≠ [] ∧ put ++ y.rest = msg
  ret : ∀ v, o = .ret v → SendCall.Sound ⟨msg, put, v⟩

/-- What was received goes together with where the call stands. -/
structure RecvOk (n : Nat) (buf : List (BitVec 8)) (atEnd : Prop) (o : Round Recvn) : Prop where
  again : ∀ w, o = .again w → w.buf = buf ∧ w.buf.length + w.nleft = w.n ∧ 0 < w.nleft
  ret : ∀ v, o = .ret v → RecvCall.Sound ⟨n, buf, v⟩ atEnd

theorem sendOk_start (msg : List (BitVec 8)) :
    SendOk msg [] (Sendn.test ⟨msg.length, msg⟩) := by
  refine ⟨fun y hy => ?_, fun v hv => ?_⟩
  · obtain ⟨rfl, hne⟩ := Sendn.test_again.mp hy
    exact ⟨rfl, hne, rfl⟩
  · obtain ⟨rfl, hnil⟩ := Sendn.test_ret.mp hv
    exact ⟨List.nil_prefix, .inl ⟨rfl, hnil.symm⟩⟩

/-- A round, where `put` has been accepted in the rounds before. -/
theorem sendOk_round (hn : x.n = (put ++ x.rest).length) (hne : x.rest ≠ []) :
    SendOk (put ++ x.rest) (put ++ x.rest.take r.moved) (x.round r) := by
  have hsplit : put ++ x.rest.take r.moved ++ x.rest.drop r.moved = put ++ x.rest := by
    rw [List.append_assoc, List.take_append_drop]
  refine ⟨fun y hy => ?_, fun v hv => ⟨⟨_, hsplit⟩, ?_⟩⟩
  · obtain ⟨rfl, hne'⟩ := Sendn.round_again hy
    exact ⟨hn, hne', hsplit⟩
  · rcases Sendn.round_ret hne hv with ⟨rfl, hnil⟩ | ⟨rfl, hne'⟩
    · rw [hnil, List.append_nil] at hsplit
      exact .inl ⟨congrArg Nat.cast hn, hsplit⟩
    · refine .inr ⟨rfl, fun he => hne' ?_⟩
      replace he : put ++ x.rest.take r.moved = put ++ x.rest := he
      rw [he] at hsplit
      exact List.append_cancel_left (hsplit.trans (List.append_nil _).symm)

theorem recvOk_start (n : Nat) (atEnd : Prop) : RecvOk n [] atEnd (Recvn.test ⟨n, n, []⟩) := by
  refine ⟨fun w hw => ?_, fun v hv => ?_⟩
  · obtain ⟨rfl, hpos⟩ := Recvn.test_again.mp hw
    exact ⟨rfl, by simp, hpos⟩
  · obtain ⟨rfl, hnil⟩ := Recvn.test_ret.mp hv
    simp only at hnil
    subst hnil
    exact ⟨le_rfl, .inl ⟨rfl, fun hlt => absurd hlt (by simp)⟩⟩

/-- A round, in which `got` is delivered, and nothing only at the end of the stream. -/
theorem recvOk_round {atEnd : Prop} (hlen : z.buf.length + z.nleft = z.n) (hpos : 0 < z.nleft)
    (hgot : got.length = r.moved) (hle : r.moved ≤ z.nleft) (hend : r = .count 0 → atEnd) :
    RecvOk z.n (z.buf ++ got) atEnd (z.round got r) := by
  refine ⟨fun w hw => ?_, fun v hv => ⟨?_, ?_⟩⟩
  · obtain ⟨rfl, hpos'⟩ := Recvn.round_again hgot hw
    refine ⟨rfl, ?_, hpos'⟩
    simp only [List.length_append, hgot]
    omega
  · simp only [List.length_append, hgot]
    omega
  · exact (Recvn.round_ret hlen hpos hgot hle hv).imp
      (fun ⟨hv, hshort⟩ => ⟨hv, fun hlt => hend (hshort hlt)⟩) id

/-- The sender stands at a new place: it has moved `put` of its message, and the stream has them. -/
theorem Conn.Sound.sending {o : Round Sendn} {stream : List (BitVec 8)} (hc : c.Sound)
    (hopen : c.closed = false) (ho : SendOk msg put o)
    (hbytes : c.delivered ++ stream = (c.sends.map SendCall.put).flatten ++ put) :
    (Conn.sending { c with stream } msg put o).Sound := by
  have hend : ∀ k ∈ c.recvs, k.Sound (c.closed = true ∧ stream = []) := by
    intro k hk
    obtain ⟨hroom, hres⟩ := hc.recvs k hk
    refine ⟨hroom, hres.imp (fun ⟨hr, hshort⟩ => ⟨hr, fun hlt => ?_⟩) id⟩
    exact absurd ((hshort hlt).1.symm.trans hopen) (by simp)
  cases o with
  | again y =>
    obtain ⟨hn, hne, hmsg⟩ := ho.again y rfl
    have hput : msg.take (msg.length - y.rest.length) = put := by
      rw [← hmsg, List.length_append, Nat.add_sub_cancel, List.take_left]
    refine ⟨?_, hc.sends, hend, fun m x hx => ?_, hc.receiver⟩
    · simpa only [Conn.accepted, Conn.delivered, Conn.sending, hput] using hbytes
    · obtain ⟨rfl, rfl⟩ := Prod.mk.inj (Option.some.inj hx)
      exact ⟨hn, hne, ⟨put, hmsg⟩, hopen⟩
  | ret v =>
    refine ⟨?_, fun k hk => ?_, hend, fun m x hx => absurd hx (by simp [Conn.sending]),
      hc.receiver⟩
    · simpa [Conn.accepted, Conn.delivered, Conn.sending] using hbytes
    · rcases List.mem_append.mp hk with hk | hk
      · exact hc.sends k hk
      · obtain rfl := List.mem_singleton.mp hk
        exact ho.ret v rfl

/-- The receiver stands at a new place. -/
theorem Conn.Sound.receiving {o : Round Recvn} {stream : List (BitVec 8)} (hc : c.Sound)
    (hstream : c.closed = true ∧ c.stream = [] → stream = [])
    (ho : RecvOk n buf (c.closed = true ∧ stream = []) o)
    (hbytes : (c.recvs.map RecvCall.buf).flatten ++ buf ++ stream = c.accepted) :
    (Conn.receiving { c with stream } n buf o).Sound := by
  have hend : ∀ k ∈ c.recvs, k.Sound (c.closed = true ∧ stream = []) := by
    intro k hk
    obtain ⟨hroom, hres⟩ := hc.recvs k hk
    exact ⟨hroom, hres.imp (fun ⟨hr, hshort⟩ => ⟨hr, fun hlt =>
      ⟨(hshort hlt).1, hstream (hshort hlt)⟩⟩) id⟩
  cases o with
  | again w =>
    obtain ⟨rfl, hlen⟩ := ho.again w rfl
    refine ⟨?_, hc.sends, hend, hc.sender, fun x hx => ?_⟩
    · simpa only [Conn.accepted, Conn.delivered, Conn.receiving] using hbytes
    · obtain rfl := Option.some.inj hx
      exact hlen
  | ret v =>
    refine ⟨?_, hc.sends, fun k hk => ?_, hc.sender,
      fun x hx => absurd hx (by simp [Conn.receiving])⟩
    · simpa [Conn.accepted, Conn.delivered, Conn.receiving] using hbytes
    · rcases List.mem_append.mp hk with hk | hk
      · exact hend k hk
      · obtain rfl := List.mem_singleton.mp hk
        exact ho.ret v rfl

/-- **Every step keeps the connection.** -/
theorem Conn.Sound.step (hc : c.Sound) (h : connStep c act = some (.ok c')) : c'.Sound := by
  cases act with
  | callSend msg =>
    simp only [connStep] at h
    split at h
    · rename_i hs hopen
      obtain rfl := Except.ok.inj (Option.some.inj h)
      refine hc.sending hopen (sendOk_start msg) ?_
      simpa [Conn.accepted, hs] using hc.bytes
    · exact absurd h (by simp)
  | send r =>
    simp only [connStep] at h
    split at h
    · rename_i msg x hs
      split at h
      · rename_i hle
        obtain rfl := Except.ok.inj (Option.some.inj h)
        obtain ⟨hn, hne, ⟨put, rfl⟩, hopen⟩ := hc.sender msg x hs
        have hput : (put ++ x.rest).take ((put ++ x.rest).length - x.rest.length) = put := by
          rw [List.length_append, Nat.add_sub_cancel, List.take_left]
        have hput' : (put ++ x.rest).take ((put ++ x.rest).length - (x.rest.length - r.moved))
            = put ++ x.rest.take r.moved := by
          rw [List.length_append, show put.length + x.rest.length - (x.rest.length - r.moved)
            = put.length + r.moved by omega, List.take_length_add_append]
        rw [hput']
        refine hc.sending hopen (sendOk_round hn hne) ?_
        have hbytes := hc.bytes
        simp only [Conn.accepted, hs, hput] at hbytes
        rw [← List.append_assoc, hbytes, List.append_assoc]
      · exact absurd h (by simp)
    · exact absurd h (by simp)
  | close =>
    simp only [connStep] at h
    split at h
    · rename_i hs
      obtain rfl := Except.ok.inj (Option.some.inj h)
      refine ⟨hc.bytes, hc.sends, fun k hk => ?_, fun m x hx => absurd (hs.symm.trans hx) (by simp),
        hc.receiver⟩
      obtain ⟨hroom, hres⟩ := hc.recvs k hk
      exact ⟨hroom, hres.imp (fun ⟨hr, hshort⟩ => ⟨hr, fun hlt => ⟨rfl, (hshort hlt).2⟩⟩) id⟩
    · exact absurd h (by simp)
  | callRecv n =>
    simp only [connStep] at h
    split at h
    · rename_i hz
      obtain rfl := Except.ok.inj (Option.some.inj h)
      refine hc.receiving (·.2) (recvOk_start n _) ?_
      simpa [Conn.delivered, hz] using hc.bytes
    · exact absurd h (by simp)
  | recv r =>
    simp only [connStep] at h
    split at h
    · rename_i z hz
      split at h
      · rename_i hok
        obtain ⟨hle, hle', hzero⟩ := hok
        obtain rfl := Except.ok.inj (Option.some.inj h)
        obtain ⟨hlen, hpos⟩ := hc.receiver z hz
        have hgot : (c.stream.take r.moved).length = r.moved := by simp [hle']
        refine hc.receiving (fun ⟨_, hnil⟩ => by rw [hnil, List.drop_nil])
          (recvOk_round hlen hpos hgot hle fun h0 => ?_) ?_
        · obtain ⟨hnil, hclosed⟩ := hzero h0
          exact ⟨hclosed, by rw [hnil, List.drop_nil]⟩
        · have hbytes := hc.bytes
          simp only [Conn.delivered, hz] at hbytes
          rw [← hbytes]
          simp only [List.append_assoc, List.take_append_drop]
      · exact absurd h (by simp)
    · exact absurd h (by simp)

/-! ## 6. For whole runs -/

theorem Conn.start_sound : Conn.start.Sound :=
  ⟨rfl, fun _ hk => absurd hk (by simp [Conn.start]), fun _ hk => absurd hk (by simp [Conn.start]),
    fun _ _ hx => absurd hx (by simp [Conn.start]), fun _ hx => absurd hx (by simp [Conn.start])⟩

/-- **In every run**, with the rounds of the two loops in any order and whatever the kernel answers:
what was received is, with what is in the stream, what was sent; each result of `_cs_sendn` tells
whether its message is in the stream, and each result of `_cs_recvn` but `-1` how much it has
received. -/
theorem calls_convey {as : List Act}
    (h : Machine.Run connStep Machine.Any Conn.start as c) : c.Sound :=
  h.inv (fun _ _ _ hc _ hs => hc.step hs) Conn.start_sound

/-- `send` fails behind the first of three bytes; the receiver is told that it has one byte. -/
theorem calls_convey_short :
    ∃ c, Machine.exec connStep Machine.Any Conn.start
        [.callSend [1, 2, 3], .callRecv 3, .send (.count 1), .recv (.count 1), .send .fail, .close,
          .recv (.count 0)] = some (.ok c) ∧
      c.sends = [⟨[1, 2, 3], [1], -1⟩] ∧ c.recvs = [⟨3, [1], 1⟩] ∧ c.Sound := by
  have hrun : ∃ c, Machine.exec connStep Machine.Any Conn.start
        [.callSend [1, 2, 3], .callRecv 3, .send (.count 1), .recv (.count 1), .send .fail, .close,
          .recv (.count 0)] = some (.ok c) ∧
      c.sends = [⟨[1, 2, 3], [1], -1⟩] ∧ c.recvs = [⟨3, [1], 1⟩] :=
    ⟨_, rfl, rfl, rfl⟩
  obtain ⟨c, hexec, hs, hr⟩ := hrun
  exact ⟨c, hexec, hs, hr, calls_convey (.of_exec hexec)⟩

/-- **Messages arrive as they were sent**, in order and whole, as long as no call has failed or come
to the end of the stream, and the receiver asks for messages of the lengths that are sent. -/
theorem messages_arrive {as : List Act}
    (h : Machine.Run connStep Machine.Any Conn.start as c)
    (hsends : ∀ k ∈ c.sends, k.ret = k.msg.length) (hrecvs : ∀ k ∈ c.recvs, k.ret = k.n)
    (hlen : c.recvs.map RecvCall.n <+: c.sends.map fun k => k.msg.length) :
    c.recvs.map RecvCall.buf <+: c.sends.map SendCall.msg := by
  have hc : c.Sound := h.inv (fun _ _ _ hc _ hs => hc.step hs) Conn.start_sound
  have hput : c.sends.map SendCall.put = c.sends.map SendCall.msg := by
    refine List.map_congr_left fun k hk => ?_
    rcases (hc.sends k hk).result with ⟨-, hput⟩ | ⟨hret, -⟩
    · exact hput
    · have := hsends k hk
      omega
  have hn : c.recvs.map RecvCall.n = (c.recvs.map RecvCall.buf).map List.length := by
    rw [List.map_map]
    refine List.map_congr_left fun k hk => ?_
    have hret := hrecvs k hk
    rcases (hc.recvs k hk).result with ⟨hbuf, -⟩ | ⟨hfail, -⟩
    · simp only [Function.comp_apply]
      omega
    · omega
  have hlen' : (c.recvs.map RecvCall.buf).map List.length
      <+: (c.sends.map SendCall.msg).map List.length := by
    rwa [← hn, List.map_map]
  refine Framing.pieces_prefix ?_ hlen'
  -- what was received is no longer than what was sent by finished calls
  have hprefix : (c.recvs.map RecvCall.buf).flatten <+: c.accepted := by
    rw [← hc.bytes, Conn.delivered, List.append_assoc]
    exact List.prefix_append _ _
  rw [Conn.accepted, hput] at hprefix
  refine List.prefix_of_prefix_length_le hprefix (List.prefix_append _ _) ?_
  obtain ⟨more, hmore⟩ := hlen'
  rw [List.length_flatten, List.length_flatten, ← hmore, List.sum_append]
  exact Nat.le_add_right _ _

/-- A message of three bytes, which is accepted and delivered in two parts. -/
theorem messages_arrive_split :
    ∃ c, Machine.exec connStep Machine.Any Conn.start
        [.callSend [1, 2, 3], .send (.count 1), .callRecv 3, .recv (.count 1), .recv .eintr,
          .send (.count 2), .recv (.count 2)] = some (.ok c) ∧
      c.recvs.map RecvCall.n = [3] ∧
      c.recvs.map RecvCall.buf <+: c.sends.map SendCall.msg := by
  have hrun : ∃ c, Machine.exec connStep Machine.Any Conn.start
        [.callSend [1, 2, 3], .send (.count 1), .callRecv 3, .recv (.count 1), .recv .eintr,
          .send (.count 2), .recv (.count 2)] = some (.ok c) ∧
      c.sends = [⟨[1, 2, 3], [1, 2, 3], 3⟩] ∧ c.recvs = [⟨3, [1, 2, 3], 3⟩] :=
    ⟨_, rfl, rfl, rfl⟩
  obtain ⟨c, hexec, hs, hr⟩ := hrun
  refine ⟨c, hexec, by rw [hr]; rfl, messages_arrive (.of_exec hexec) ?_ ?_ ?_⟩
  all_goals simp [hs, hr]

end Stream
end Corosched
