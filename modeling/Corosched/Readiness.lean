/-
# The readiness a coroutine is told

`register_event` stores the epoll bits it asks for in `ev->events`, and `event_callback` adds
`ReadMask` and `WriteMask` to the same field.  `EPOLLIN` has the value of `ReadMask`, so a request
to read looks like a report; and `event_callback` tests the kernel's word against the program's own
masks, so `EPOLLPRI`, which has the value of `WriteMask`, is taken for `EPOLLOUT`.
-/
import Corosched.Moves

namespace Corosched

open State

variable {s s' s₁ s₂ : State} {t h : SchedId} {a c : Addr} {p : EventPtr} {q : Option Addr}
  {w x e : BitVec 32} {ws : List (BitVec 32)}

/-! ## 1. One field, two encodings -/

/-- `EPOLLPRI` of `<sys/epoll.h>`. -/
def EPOLLPRI : BitVec 32 := 0x002

/-- The readiness `ev->events` tells is that of the words the kernel has delivered. -/
def Truthful (ev : Event) (ws : List (BitVec 32)) : Prop :=
  (ev.events &&& readMask ≠ 0 ↔ ∃ w ∈ ws, w &&& EPOLLIN ≠ 0) ∧
    (ev.events &&& writeMask ≠ 0 ↔ ∃ w ∈ ws, w &&& EPOLLOUT ≠ 0)

/-- What `event_callback` makes of `ev->events`. -/
def reportBits (events w : BitVec 32) : BitVec 32 :=
  let events := if w &&& readMask ≠ 0 then events ||| readMask else events
  if w &&& writeMask ≠ 0 then events ||| writeMask else events

/-- The event words `ws` are passed to `event_callback` for `p`, in this order, and nothing else
writes to `*p` meanwhile. -/
inductive Callbacks (p : EventPtr) (s : State) : List (BitVec 32) → State → Prop
  | nil {s' : State} (rest : s'.event p = s.event p) : Callbacks p s [] s'
  | snoc {ws : List (BitVec 32)} {s₁ s₂ s₃ : State} {w : BitVec 32} (old : Callbacks p s ws s₁)
      (call : eventCallback s₁ (some p) w = .ok s₂) (rest : s₃.event p = s₂.event p) :
      Callbacks p s (ws ++ [w]) s₃

/-! ## 2. The bits -/

theorem and_readMask_ne_zero : x &&& readMask ≠ 0 ↔ x.getLsbD 0 = true := by
  rw [show readMask = BitVec.twoPow 32 0 from rfl, BitVec.and_twoPow]
  cases x.getLsbD 0 <;> decide

theorem and_writeMask_ne_zero : x &&& writeMask ≠ 0 ↔ x.getLsbD 1 = true := by
  rw [show writeMask = BitVec.twoPow 32 1 from rfl, BitVec.and_twoPow]
  cases x.getLsbD 1 <;> decide

/-- The request: bit `0` is that of `ReadMask`, bit `1` is never set. -/
theorem epollEvents_getLsbD (mask : BitVec 32) :
    (epollEvents mask).getLsbD 0 = mask.getLsbD 0 ∧ (epollEvents mask).getLsbD 1 = false := by
  simp only [epollEvents, and_readMask_ne_zero, and_writeMask_ne_zero]
  cases mask.getLsbD 0 <;> cases mask.getLsbD 1 <;> decide

/-- The report: both bits are copied from the word and never cleared. -/
theorem reportBits_getLsbD (e w : BitVec 32) :
    (reportBits e w).getLsbD 0 = (e.getLsbD 0 || w.getLsbD 0) ∧
      (reportBits e w).getLsbD 1 = (e.getLsbD 1 || w.getLsbD 1) := by
  have hr : readMask.getLsbD 0 = true ∧ readMask.getLsbD 1 = false := by decide
  have hw : writeMask.getLsbD 0 = false ∧ writeMask.getLsbD 1 = true := by decide
  simp only [reportBits, and_readMask_ne_zero, and_writeMask_ne_zero]
  cases w.getLsbD 0 <;> cases w.getLsbD 1 <;>
    simp only [Bool.false_eq_true, if_true, if_false, BitVec.getLsbD_or, hr, hw, Bool.or_false,
      Bool.or_true, and_self]

/-! ## 3. The functions -/

theorem insertHead_event (h' : insertHead s h a = .ok s') : s'.event = s.event := by
  simp only [insertHead, bind_eq_ok, pure_eq_ok, Except.ok.injEq] at h'
  obtain ⟨q', -, rfl⟩ := h'
  rfl

theorem coroReady_event (h' : coroReady s q = .ok s') : s'.event = s.event := by
  obtain ⟨a, k, h, q', -, -, -, -, rfl⟩ := coroReady_inv h'
  rfl

theorem switchToSched_event (h' : switchToSched s t h = .ok s') : s'.event = s.event := by
  obtain ⟨-, ⟨-, loc, co, -, rfl⟩ | ⟨-, co, -, rfl⟩⟩ := switchToSched_inv h'
  · rfl
  · rfl

theorem coroYield_event (h' : coroYield s t q = .ok s') : s'.event = s.event := by
  simp only [coroYield, bind_eq_ok] at h'
  obtain ⟨-, -, a, -, k, -, h, -, -, -, s₁, hready, -, -, hswitch⟩ := h'
  exact (switchToSched_event hswitch).trans (coroReady_event hready)

theorem coroSwitchToParallel_event {rs : Option Rstatus}
    (h' : coroSwitchToParallel s t q = .ok (s', rs)) : s'.event = s.event := by
  simp only [coroSwitchToParallel, bind_eq_ok] at h'
  obtain ⟨-, -, a, -, k, -, hrest⟩ := h'
  split at hrest
  · simp only [pure_eq_ok, Except.ok.injEq, Prod.mk.injEq] at hrest
    rw [← hrest.1]
  · simp only [coroReadyImmediatly, bind_eq_ok, pure_eq_ok, Except.ok.injEq, Prod.mk.injEq] at hrest
    obtain ⟨s₁, ⟨b, -, k₁, -, -, -, h, -, hins⟩, s₂, hyield, rfl, -⟩ := hrest
    have hev := insertHead_event hins
    exact (coroYield_event hyield).trans hev

theorem schedRunOnceFrom_event {n : Nat} (h' : schedRunOnceFrom n s = .ok s') :
    s'.event = s.event := by
  induction n generalizing s with
  | zero => exact absurd h' (by simp [schedRunOnceFrom])
  | succ n ih =>
    rw [schedRunOnceFrom] at h'
    split at h'
    · simp only [pure_eq_ok, Except.ok.injEq] at h'
      rw [h']
    · split at h'
      · simp only [pure_eq_ok, Except.ok.injEq] at h'
        rw [h']
      · obtain ⟨⟨s₁, head⟩, hpop, hrest⟩ := bind_eq_ok.mp h'
        rcases pop_inv hpop with ⟨rfl, rfl⟩ | ⟨c, q, rfl, rfl⟩
        · simp only [pure_eq_ok, Except.ok.injEq] at hrest
          rw [hrest]
        · obtain ⟨k, -, hrest⟩ := bind_eq_ok.mp hrest
          split at hrest
          · exact (ih hrest).trans rfl
          · obtain ⟨s₂, hready, hrest⟩ := bind_eq_ok.mp hrest
            obtain ⟨k₂, -, hrest⟩ := bind_eq_ok.mp hrest
            have hev := coroReady_event hready
            refine Eq.trans ?_ hev
            split at hrest
            · obtain ⟨⟨s₃, rs⟩, hswitch, hrest⟩ := bind_eq_ok.mp hrest
              simp only [pure_eq_ok, Except.ok.injEq] at hrest
              exact hrest ▸ coroSwitchToParallel_event hswitch
            · obtain ⟨-, -, hrest⟩ := bind_eq_ok.mp hrest
              unfold switchToCoro at hrest
              split at hrest
              · simp only [pure_eq_ok, Except.ok.injEq] at hrest
                rw [← hrest]
                rfl
              · exact absurd hrest (by simp)

/-- **`register_event`** stores the request. -/
theorem registerEvent_event (h' : registerEvent s t p = .ok s') :
    (s'.event p).events = epollEvents (s.event p).mask := by
  simp only [registerEvent, bind_eq_ok] at h'
  obtain ⟨-, -, -, -, -, -, c, -, hyield⟩ := h'
  rw [coroYield_event hyield]
  simp [State.note]

/-- **`event_callback`** adds the report. -/
theorem eventCallback_event (h' : eventCallback s (some p) w = .ok s') :
    (s'.event p).events = reportBits (s.event p).events w := by
  simp only [eventCallback, deref_some, ok_bind, bind_eq_ok] at h'
  obtain ⟨s₁, hready, honce⟩ := h'
  rw [schedRunOnceFrom_event honce, coroReady_event hready]
  simp only [State.note, Function.update_self, reportBits]
  split <;> split <;> rfl

/-! ## 4. What is told -/

/-- **Over the callbacks** each of the two bits is the request's bit or some word's. -/
theorem Callbacks.bits (h : Callbacks p s ws s') :
    ((s'.event p).events.getLsbD 0 = true ↔
        (s.event p).events.getLsbD 0 = true ∨ ∃ w ∈ ws, w.getLsbD 0 = true) ∧
      ((s'.event p).events.getLsbD 1 = true ↔
        (s.event p).events.getLsbD 1 = true ∨ ∃ w ∈ ws, w.getLsbD 1 = true) := by
  induction h with
  | nil rest => simp [rest]
  | snoc _ call rest ih =>
    rw [rest, eventCallback_event call]
    obtain ⟨h₀, h₁⟩ := reportBits_getLsbD (Event.events _) _
    rw [h₀, h₁, Bool.or_eq_true, Bool.or_eq_true, ih.1, ih.2]
    simp only [List.mem_append, List.mem_singleton]
    constructor <;> grind

/-- **When the readiness is told truthfully.**  After `register_event` and any sequence of calls of
`event_callback`, `ev->events` tells the readiness the kernel has delivered if and only if reading
was not requested or was delivered, and `EPOLLPRI` was delivered just when `EPOLLOUT` was. -/
theorem readiness_told (hreg : registerEvent s t p = .ok s₁) (hcalls : Callbacks p s₁ ws s₂) :
    Truthful (s₂.event p) ws ↔
      ((s.event p).mask &&& readMask = 0 ∨ ∃ w ∈ ws, w &&& EPOLLIN ≠ 0) ∧
        ((∃ w ∈ ws, w &&& EPOLLPRI ≠ 0) ↔ ∃ w ∈ ws, w &&& EPOLLOUT ≠ 0) := by
  obtain ⟨hread, hwrite⟩ := hcalls.bits
  obtain ⟨hr, hw⟩ := epollEvents_getLsbD (s.event p).mask
  rw [registerEvent_event hreg, hr] at hread
  rw [registerEvent_event hreg, hw] at hwrite
  have hin : ∀ y : BitVec 32, y &&& EPOLLIN ≠ 0 ↔ y.getLsbD 0 = true :=
    fun _ => and_readMask_ne_zero
  have hpri : ∀ y : BitVec 32, y &&& EPOLLPRI ≠ 0 ↔ y.getLsbD 1 = true :=
    fun _ => and_writeMask_ne_zero
  have hmask : (s.event p).mask &&& readMask = 0 ↔ ¬ (s.event p).mask.getLsbD 0 = true := by
    rw [← and_readMask_ne_zero, not_not]
  rw [Truthful, and_readMask_ne_zero, and_writeMask_ne_zero, hread, hwrite, hmask]
  simp only [hin, hpri, Bool.false_eq_true, false_or]
  refine and_congr_left fun _ => ?_
  by_cases hm : (s.event p).mask.getLsbD 0 = true
  · simp only [hm, true_or, true_iff, not_true, false_or]
  · simp only [hm, Bool.false_eq_true, false_or, not_false_eq_true, true_or]

/-- `16` asks to read, and `EPOLLIN` is delivered. -/
theorem readiness_told_read :
    ∃ s s₁ s₂ s₃, Machine.exec Corosched.step Machine.Any
        (State.boot (some ⟨false, fun _ => ⟨0, none⟩⟩))
        [.main .master .user (some ⟨16, by decide⟩),
          .main .master .eventLoop (some ⟨32, by decide⟩), .envRun, .master, .master, .master] =
            some (.ok s) ∧
      registerEvent
        { s with event := Function.update s.event 7 ⟨readMask, 5, 0, some ⟨16, by decide⟩⟩ }
        .master 7 = .ok s₁ ∧
      Machine.exec Corosched.step Machine.Any s₁
        [.master, .master, .master, .epoll (some [⟨EPOLLIN, some 7⟩])] = some (.ok s₂) ∧
      eventCallback s₂ (some 7) EPOLLIN = .ok s₃ ∧ Truthful (s₃.event 7) [EPOLLIN] := by
  have hrun : ∃ s s₁ s₂ s₃, Machine.exec Corosched.step Machine.Any
        (State.boot (some ⟨false, fun _ => ⟨0, none⟩⟩))
        [.main .master .user (some ⟨16, by decide⟩),
          .main .master .eventLoop (some ⟨32, by decide⟩), .envRun, .master, .master, .master] =
            some (.ok s) ∧
      registerEvent
        { s with event := Function.update s.event 7 ⟨readMask, 5, 0, some ⟨16, by decide⟩⟩ }
        .master 7 = .ok s₁ ∧
      Machine.exec Corosched.step Machine.Any s₁
        [.master, .master, .master, .epoll (some [⟨EPOLLIN, some 7⟩])] = some (.ok s₂) ∧
      s₂.event 7 = s₁.event 7 ∧ eventCallback s₂ (some 7) EPOLLIN = .ok s₃ :=
    ⟨_, _, _, _, rfl, rfl, rfl, rfl, rfl⟩
  obtain ⟨s, s₁, s₂, s₃, hexec, hreg, hexec', hev, hcall⟩ := hrun
  have hcalls : Callbacks 7 s₁ ([] ++ [EPOLLIN]) s₃ := (Callbacks.nil hev).snoc hcall rfl
  refine ⟨s, s₁, s₂, s₃, hexec, hreg, hexec', hcall, (readiness_told hreg hcalls).mpr ⟨?_, ?_⟩⟩
  · exact Or.inr ⟨EPOLLIN, by simp, by decide⟩
  · simp only [List.nil_append, List.mem_singleton, exists_eq_left]
    decide

/-- `16` asks to read and to write, and `EPOLLOUT` is delivered: the field tells that it can read
and that it cannot write. -/
theorem readiness_mistaken :
    ∃ s s₁ s₂ s₃, Machine.exec Corosched.step Machine.Any
        (State.boot (some ⟨false, fun _ => ⟨0, none⟩⟩))
        [.main .master .user (some ⟨16, by decide⟩),
          .main .master .eventLoop (some ⟨32, by decide⟩), .envRun, .master, .master, .master] =
            some (.ok s) ∧
      registerEvent
        { s with event :=
          Function.update s.event 7 ⟨readMask ||| writeMask, 5, 0, some ⟨16, by decide⟩⟩ }
        .master 7 = .ok s₁ ∧
      Machine.exec Corosched.step Machine.Any s₁
        [.master, .master, .master, .epoll (some [⟨EPOLLOUT, some 7⟩])] = some (.ok s₂) ∧
      eventCallback s₂ (some 7) EPOLLOUT = .ok s₃ ∧ Callbacks 7 s₁ [EPOLLOUT] s₃ ∧
      (s₃.event 7).events = EPOLLIN ||| EPOLLOUT ||| EPOLLET ∧
      ¬ Truthful (s₃.event 7) [EPOLLOUT] := by
  have hrun : ∃ s s₁ s₂ s₃, Machine.exec Corosched.step Machine.Any
        (State.boot (some ⟨false, fun _ => ⟨0, none⟩⟩))
        [.main .master .user (some ⟨16, by decide⟩),
          .main .master .eventLoop (some ⟨32, by decide⟩), .envRun, .master, .master, .master] =
            some (.ok s) ∧
      registerEvent
        { s with event :=
          Function.update s.event 7 ⟨readMask ||| writeMask, 5, 0, some ⟨16, by decide⟩⟩ }
        .master 7 = .ok s₁ ∧
      Machine.exec Corosched.step Machine.Any s₁
        [.master, .master, .master, .epoll (some [⟨EPOLLOUT, some 7⟩])] = some (.ok s₂) ∧
      s₂.event 7 = s₁.event 7 ∧ eventCallback s₂ (some 7) EPOLLOUT = .ok s₃ ∧
      (s₃.event 7).events = EPOLLIN ||| EPOLLOUT ||| EPOLLET :=
    ⟨_, _, _, _, rfl, rfl, rfl, rfl, rfl, rfl⟩
  obtain ⟨s, s₁, s₂, s₃, hexec, hreg, hexec', hev, hcall, hbits⟩ := hrun
  refine ⟨s, s₁, s₂, s₃, hexec, hreg, hexec', hcall, (Callbacks.nil hev).snoc hcall rfl, hbits, ?_⟩
  rintro ⟨hread, -⟩
  rw [hbits] at hread
  obtain ⟨w, hw, hin⟩ := hread.mp (by decide)
  rw [List.mem_singleton.mp hw] at hin
  exact hin (by decide)

end Corosched
