/-
# `cs_log.c`

The functions that put a message together in a buffer on the stack and write it with one call.
Every piece of the message is appended with `_scnprintf` of `cs_util.c`, which leaves out what does
not fit.  The buffer has arbitrary contents at first, and a write outside of it is a fault.

`log_writes_a_line` is about `_log` and `_log_stderr`, for an open log and a closed one.
`hexdump_shows` is about `_log_hexdump` with an open log: it says which data have the same dump, and
that what is written can be read back.
-/
import Corosched.Fault
import Corosched.Lib.Bounded

namespace Corosched
namespace Log

/-! ## 1. `_vscnprintf` -/

abbrev Byte := BitVec 8

/-- The text of a literal. -/
def chars (cs : List Char) : List Byte := cs.map fun c => BitVec.ofNat 8 c.toNat

/-- What a format and its arguments come to: a text, and whether there was no error behind it. -/
structure Formatted where
  text : List Byte
  ok : Bool

/-- `vsnprintf(buf + off, size, …)`: the buffer and the result. -/
def vsnprintf (buf : List Byte) (off : Int) (size : BitVec 64) (f : Formatted) :
    Except Fault (List Byte × Int) :=
  let w := if size = 0 then [] else f.text.take (size.toNat - 1) ++ [0]
  let n : Int := if f.ok ∧ f.text.length < 2147483648 then f.text.length else -1
  match (if 0 ≤ off then Bounded.store buf off.toNat w else none) with
  | some buf => pure (buf, n)
  | none => throw .dangling

/-- `_vscnprintf(buf + off, size, …)`. -/
def vscnprintf (buf : List Byte) (off : Int) (size : BitVec 64) (f : Formatted) :
    Except Fault (List Byte × Int) := do
  let (buf, n) ← vsnprintf buf off size f
  if n ≤ 0 then pure (buf, 0)
  else if n < (size.setWidth 32).toInt then pure (buf, n)
  -- this would be -1 for a buffer of no bytes
  else pure (buf, ((size - 1).setWidth 32).toInt)

/-- `buf` and `len`. -/
structure Out where
  buf : List Byte
  len : Int

/-- `len += cs_scnprintf(buf + len, size - len, …)`. -/
def Out.print (o : Out) (size : Int) (f : Formatted) : Except Fault Out := do
  let (buf, n) ← vscnprintf o.buf o.len (BitVec.ofInt 64 (size - o.len)) f
  pure ⟨buf, o.len + n⟩

/-- `buf[len++] = c`. -/
def Out.put (o : Out) (c : Byte) : Except Fault Out :=
  match (if 0 ≤ o.len then Bounded.store o.buf o.len.toNat [c] else none) with
  | some buf => pure ⟨buf, o.len + 1⟩
  | none => throw .dangling

/-- The `len` bytes at `buf`. -/
def Out.bytes (o : Out) : Except Fault (List Byte) :=
  if 0 ≤ o.len ∧ o.len.toNat ≤ o.buf.length then pure (o.buf.take o.len.toNat)
  else throw .dangling

/-! ## 2. `_log` and `_log_stderr` -/

/-- `struct logger`, as far as these functions use it, and `errno`. -/
structure Logger where
  fd : Int
  nerror : Nat
  errno : Int

/-- What `write` returned, and what it left in `errno`. -/
structure Wrote where
  n : Int
  errno : Int

/-- What a call has done: the logger then, what was given to `write` and for which descriptor, and
whether `abort` was called behind it. -/
structure Logged where
  logger : Logger
  written : Option (Int × List Byte)
  aborted : Bool

/-- From `cs_write` on: an error is counted, and `errno` restored. -/
def Logger.wrote (l : Logger) (errnoSave : Int) (w : Wrote) : Logger :=
  let l := { l with errno := w.errno }
  let l := if w.n < 0 then { l with nerror := l.nerror + 1 } else l
  { l with errno := errnoSave }

def LOG_MAX_LEN : Nat := 256
def STDERR_FILENO : Int := 2

/-- `%d`. -/
def decimal (n : Int) : List Byte :=
  (if n < 0 then chars ['-'] else []) ++ chars (Nat.toDigits 10 n.natAbs)

/-- `"[%.*s] [%s] "`, for the time without its line end and the level. -/
def header (timestr level : List Byte) : Formatted :=
  ⟨chars ['['] ++ timestr.take (timestr.length - 1) ++ chars [']', ' ', '['] ++ level ++
    chars [']', ' '], true⟩

/-- `" [%s:%d]"`, for the file and the line. -/
def trailer (file : List Byte) (line : Int) : Formatted :=
  ⟨chars [' ', '['] ++ file ++ chars [':'] ++ decimal line ++ chars [']'], true⟩

/-- `_log(level, file, line, panic, …)`, with the time, the message, the first contents of `buf`
and what `write` does. -/
def log (l : Logger) (buf timestr level file : List Byte) (line : Int) (panic : Bool)
    (msg : Formatted) (w : Wrote) : Except Fault Logged := do
  if l.fd < 0 then pure ⟨l, none, false⟩
  else do
    let errnoSave := l.errno
    let size : Int := LOG_MAX_LEN
    let o ← Out.print ⟨buf, 0⟩ size (header timestr level)
    let o ← o.print size msg
    let o ← o.print size (trailer file line)
    let o ← o.put 10
    let bytes ← o.bytes
    pure ⟨l.wrote errnoSave w, some (l.fd, bytes), panic⟩

/-- `_log_stderr(…)`. -/
def logStderr (l : Logger) (buf : List Byte) (msg : Formatted) (w : Wrote) :
    Except Fault Logged := do
  let errnoSave := l.errno
  let size : Int := 4 * LOG_MAX_LEN
  let o ← Out.print ⟨buf, 0⟩ size msg
  let o ← o.put 10
  let bytes ← o.bytes
  pure ⟨l.wrote errnoSave w, some (STDERR_FILENO, bytes), false⟩

/-! ## 3. `_log_hexdump` -/

/-- A hexadecimal digit. -/
def hexDigit (d : Nat) : Byte := BitVec.ofNat 8 (if d < 10 then 48 + d else 87 + d)

/-- `%0wx`, for a number of at most `w` digits. -/
def hex : Nat → Nat → List Byte
  | 0, _ => []
  | w + 1, n => hex w (n / 16) ++ [hexDigit (n % 16)]

/-- `"%08x  "`. -/
def offset (off : BitVec 32) : List Byte := hex 8 off.toNat ++ chars [' ', ' ']

/-- `str = (i == 7) ? "  " : " "`. -/
def gap (i : Nat) : List Byte := if i = 7 then chars [' ', ' '] else chars [' ']

/-- `isprint`. -/
def isprint (c : Byte) : Bool := 32 ≤ c.toNat ∧ c.toNat < 127

/-- `for (i = 0; datalen != 0 && i < 16; data++, datalen--, i++)`, where the text for the byte is
printed in each round.  The first argument is `16 - i`. -/
def eachByte (size : Int) (text : Nat → Byte → List Byte) :
    Nat → Out → List Byte → Int → Except Fault (Out × Nat × List Byte × Int)
  | 0, o, data, datalen => pure (o, 16, data, datalen)
  | n + 1, o, data, datalen =>
    if datalen = 0 then pure (o, 16 - (n + 1), data, datalen)
    else match data with
      | [] => throw .dangling
      | c :: data => do
        let o ← o.print size ⟨text (16 - (n + 1)) c, true⟩
        eachByte size text n o data (datalen - 1)

/-- `for ( ; i < 16; i++)`.  The first argument is `16 - i`. -/
def eachBlank (size : Int) : Nat → Out → Except Fault Out
  | 0, o => pure o
  | n + 1, o => do
    let o ← o.print size ⟨chars [' ', ' '] ++ gap (16 - (n + 1)), true⟩
    eachBlank size n o

def hexCell (i : Nat) (c : Byte) : List Byte := hex 2 c.toNat ++ gap i

def charCell (_ : Nat) (c : Byte) : List Byte := if isprint c then [c] else chars ['.']

/-- `while (datalen != 0 && (len < size - 1))`.  The first argument is the budget. -/
def hexdumpRows (size : Int) : Nat → Out → List Byte → Int → BitVec 32 → Except Fault Out
  | 0, _, _, _, _ => throw .diverge
  | fuel + 1, o, data, datalen, off =>
    if datalen ≠ 0 ∧ o.len < size - 1 then do
      let o ← o.print size ⟨offset off, true⟩
      let (o, i, _, _) ← eachByte size hexCell 16 o data datalen
      let o ← eachBlank size (16 - i) o
      let o ← o.print size ⟨chars [' ', ' ', '|'], true⟩
      let (o, _, data, datalen) ← eachByte size charCell 16 o data datalen
      let o ← o.print size ⟨chars ['|', '\n'], true⟩
      hexdumpRows size fuel o data datalen (off + 16)
    else pure o

/-- `_log_hexdump(file, line, data, datalen, …)`, where `data` can be read for the given bytes; the
file, the line and the message are not used. -/
def logHexdump (fuel : Nat) (l : Logger) (buf data : List Byte) (datalen : Int) (w : Wrote) :
    Except Fault Logged := do
  if l.fd < 0 then pure ⟨l, none, false⟩
  else do
    let errnoSave := l.errno
    let size : Int := 8 * LOG_MAX_LEN
    let o ← hexdumpRows size fuel ⟨buf, 0⟩ data datalen 0
    let bytes ← o.bytes
    pure ⟨l.wrote errnoSave w, some (l.fd, bytes), false⟩

/-! ## 4. What a buffer has -/

variable {o : Out} {size n : Nat} {s t : List Byte} {f : Formatted} {l : Logger}
  {buf timestr level file data : List Byte}

/-- What is left of a text for which `vsnprintf` may return an error. -/
def Formatted.shown (f : Formatted) : List Byte :=
  if f.ok ∧ f.text.length < 2147483648 then f.text else []

/-- **The buffer of `size` bytes has the text `s`**, as far as it fits with a zero behind it. -/
structure Out.Has (o : Out) (size : Nat) (s : List Byte) : Prop where
  length : o.buf.length = size
  shows : ∃ n : Nat, o.len = n ∧ Bounded.Shows (size - 1) o.buf n s

theorem Out.Has.start (h : buf.length = size) : Out.Has ⟨buf, 0⟩ size [] :=
  ⟨h, 0, rfl, .start _ _⟩

/-- What `_vscnprintf` makes of the result of `vsnprintf`: the number of bytes that it has written
before the zero. -/
theorem vscnprintf_eq {buf' : List Byte} {off m : Nat} (hm : 0 < m) (hmax : m < 2147483648)
    (hstore : Bounded.store buf off (f.text.take (m - 1) ++ [0]) = some buf') :
    vscnprintf buf off (BitVec.ofNat 64 m) f
      = .ok (buf', (min (m - 1) f.shown.length : Nat)) := by
  have hsize : (BitVec.ofNat 64 m).toNat = m := by
    rw [BitVec.toNat_ofNat]
    omega
  have hne : BitVec.ofNat 64 m ≠ 0 := by
    intro h0
    rw [h0] at hsize
    simp at hsize
    omega
  have hint : ((BitVec.ofNat 64 m).setWidth 32).toInt = m := by
    rw [BitVec.toInt_eq_toNat_of_lt] <;> simp only [BitVec.toNat_setWidth, hsize] <;> omega
  have hlast : ((BitVec.ofNat 64 m - 1).setWidth 32).toInt = (m - 1 : Nat) := by
    have h1 : (BitVec.ofNat 64 m - 1).toNat = m - 1 := by
      rw [BitVec.toNat_sub, hsize, show (1 : BitVec 64).toNat = 1 from rfl]
      omega
    rw [BitVec.toInt_eq_toNat_of_lt] <;> simp only [BitVec.toNat_setWidth, h1] <;> omega
  have hcode : vsnprintf buf off (BitVec.ofNat 64 m) f = .ok (buf',
      if f.ok ∧ f.text.length < 2147483648 then (f.text.length : Int) else -1) := by
    simp only [vsnprintf, if_neg hne, hsize, Int.natCast_nonneg, if_pos, Int.toNat_natCast, hstore,
      pure_eq_ok]
  rw [vscnprintf, hcode, ok_bind, Formatted.shown, hint, hlast]
  by_cases hok : f.ok ∧ f.text.length < 2147483648
  · simp only [if_pos hok]
    split_ifs with h0 hfit
    · rw [show f.text.length = 0 by omega, Nat.min_zero]
      rfl
    · rw [Nat.min_eq_right (by omega)]
      rfl
    · rw [Nat.min_eq_left (by omega)]
      rfl
  · simp [hok]

/-- **An append.**  Each text is appended to what the buffer has. -/
theorem Out.Has.print (h : o.Has size s) (hsize : 0 < size) (hmax : size < 2147483648)
    (f : Formatted) : ∃ o', o.print size f = .ok o' ∧ o'.Has size (s ++ f.shown) := by
  obtain ⟨buf, len⟩ := o
  obtain ⟨hlength, n, hlen, hshows⟩ := h
  simp only at hlength hlen hshows
  subst hlen
  have hn := hshows.len_le
  have hroom : n + (f.text.take (size - n - 1) ++ [0]).length ≤ buf.length := by
    rw [List.length_append, List.length_take, List.length_singleton]
    omega
  have hof : BitVec.ofInt 64 ((size : Int) - (n : Int)) = BitVec.ofNat 64 (size - n) := by
    rw [← Int.ofNat_sub (by omega)]
    rfl
  by_cases hok : f.ok ∧ f.text.length < 2147483648
  · have hw : f.text.take (size - 1 - n) <+: f.text.take (size - n - 1) ++ [0] := by
      rw [Nat.sub_right_comm]
      exact List.prefix_append _ _
    obtain ⟨buf', hstore, hbuf, hshows'⟩ := hshows.append f.text hw hroom
    refine ⟨⟨buf', n + (min (size - n - 1) f.shown.length : Nat)⟩, ?_, hbuf.trans hlength,
      _, rfl, ?_⟩
    · rw [Out.print, hof, vscnprintf_eq (by omega) (by omega) hstore]
      rfl
    · rw [Formatted.shown, if_pos hok, Nat.sub_right_comm]
      exact hshows'
  · -- what was written before an error stays behind the text, where the next one comes
    obtain ⟨buf', hstore, hbuf, hshows'⟩ := hshows.scratch hroom
    refine ⟨⟨buf', n + (min (size - n - 1) f.shown.length : Nat)⟩, ?_, hbuf.trans hlength,
      _, rfl, ?_⟩
    · rw [Out.print, hof, vscnprintf_eq (by omega) (by omega) hstore]
      rfl
    · rw [Formatted.shown, if_neg hok, List.append_nil, List.length_nil, Nat.min_zero, Nat.add_zero]
      exact hshows'

/-- What `write` is given. -/
theorem Out.Has.bytes (h : o.Has size s) : o.bytes = .ok (s.take (size - 1)) := by
  obtain ⟨buf, len⟩ := o
  obtain ⟨hlength, n, hlen, hshows⟩ := h
  simp only at hlength hlen hshows
  subst hlen
  have hn := hshows.len_le
  rw [Out.bytes, if_pos ⟨Int.natCast_nonneg n, show n ≤ buf.length by omega⟩, Int.toNat_natCast,
    hshows.text]
  rfl

/-- There is always room for the line end. -/
theorem Out.Has.put (h : o.Has size s) (hsize : 0 < size) (c : Byte) :
    ∃ o', o.put c = .ok o' ∧ o'.bytes = .ok (s.take (size - 1) ++ [c]) := by
  obtain ⟨buf, len⟩ := o
  obtain ⟨hlength, n, hlen, hshows⟩ := h
  simp only at hlength hlen hshows
  subst hlen
  have hn := hshows.len_le
  have hroom : n + [c].length ≤ buf.length := by
    rw [List.length_singleton]
    omega
  obtain ⟨buf', hstore, hbuf, htake⟩ := Bounded.store_eq_some hroom
  have hline := htake 1 (Nat.le_refl _)
  rw [hshows.text] at hline
  refine ⟨⟨buf', n + 1⟩, ?_, ?_⟩
  · rw [Out.put, if_pos (Int.natCast_nonneg n), Int.toNat_natCast, hstore]
    rfl
  · have hfit : n + 1 ≤ buf'.length := hbuf ▸ hroom
    rw [Out.bytes, if_pos ⟨Int.natCast_nonneg (n + 1), hfit⟩,
      show ((n : Int) + 1).toNat = n + 1 from rfl, hline]
    rfl

theorem Logger.wrote_eq (l : Logger) (w : Wrote) :
    l.wrote l.errno w = { l with nerror := if w.n < 0 then l.nerror + 1 else l.nerror } := by
  unfold Logger.wrote
  split_ifs <;> rfl

/-- `_log` with an open log: the line end is put behind what the buffer has. -/
theorem log_eq (hfd : 0 ≤ l.fd) (hbuf : buf.length = LOG_MAX_LEN) (timestr level file : List Byte)
    (line : Int) (panic : Bool) (msg : Formatted) (w : Wrote) :
    log l buf timestr level file line panic msg w
      = .ok ⟨{ l with nerror := if w.n < 0 then l.nerror + 1 else l.nerror },
        some (l.fd, ((header timestr level).shown ++ msg.shown ++
          (trailer file line).shown).take 255 ++ [10]), panic⟩ := by
  obtain ⟨o₁, hcode₁, h₁⟩ := (Out.Has.start hbuf).print (by decide) (by decide)
    (header timestr level)
  obtain ⟨o₂, hcode₂, h₂⟩ := h₁.print (by decide) (by decide) msg
  obtain ⟨o₃, hcode₃, h₃⟩ := h₂.print (by decide) (by decide) (trailer file line)
  obtain ⟨o₄, hput, hbytes⟩ := h₃.put (by decide) 10
  simp only [log, if_neg (Int.not_lt.mpr hfd), hcode₁, hcode₂, hcode₃, hput, hbytes, ok_bind,
    pure_eq_ok, Logger.wrote_eq, List.nil_append]
  rfl

/-- `_log_stderr` does not look at the descriptor of the log. -/
theorem logStderr_eq (l : Logger) (hbuf : buf.length = 4 * LOG_MAX_LEN) (msg : Formatted)
    (w : Wrote) :
    logStderr l buf msg w
      = .ok ⟨{ l with nerror := if w.n < 0 then l.nerror + 1 else l.nerror },
        some (STDERR_FILENO, msg.shown.take 1023 ++ [10]), false⟩ := by
  obtain ⟨o₁, hcode₁, h₁⟩ := (Out.Has.start hbuf).print (by decide) (by decide) msg
  obtain ⟨o₂, hput, hbytes⟩ := h₁.put (by decide) 10
  have hsize : (4 * (LOG_MAX_LEN : Int)) = (4 * LOG_MAX_LEN : Nat) := rfl
  simp only [logStderr, hsize, hcode₁, hput, hbytes, ok_bind, pure_eq_ok, Logger.wrote_eq,
    List.nil_append]
  rfl

/-- **Every message is one line.**  With an open log, `_log` writes the header, the message, the
file and the line, cut off behind 255 bytes, and a line end; with a closed one it does nothing, and
does not abort either.  Whatever the log is, `_log_stderr` writes the message, cut off behind 1023
bytes, and a line end.  They never leave the buffer, however long the message is, also if it cannot
be formatted; they keep `errno`, and count an error of `write`. -/
theorem log_writes_a_line (l : Logger) (msg : Formatted) (w : Wrote) :
    (∀ buf timestr level file line panic, buf.length = LOG_MAX_LEN →
      log l buf timestr level file line panic msg w
        = .ok (if l.fd < 0 then ⟨l, none, false⟩
          else ⟨{ l with nerror := if w.n < 0 then l.nerror + 1 else l.nerror },
            some (l.fd, ((header timestr level).shown ++ msg.shown ++
              (trailer file line).shown).take 255 ++ [10]), panic⟩)) ∧
    (∀ buf, buf.length = 4 * LOG_MAX_LEN →
      logStderr l buf msg w
        = .ok ⟨{ l with nerror := if w.n < 0 then l.nerror + 1 else l.nerror },
          some (STDERR_FILENO, msg.shown.take 1023 ++ [10]), false⟩) := by
  constructor
  · intro buf timestr level file line panic hbuf
    by_cases hfd : l.fd < 0
    · rw [if_pos hfd, log, if_pos hfd]
      rfl
    · rw [if_neg hfd]
      exact log_eq (Int.not_lt.mp hfd) hbuf timestr level file line panic msg w
  · intro buf hbuf
    exact logStderr_eq l hbuf msg w

/-- A message of 300 bytes: what `_log` writes ends before the file. -/
theorem log_writes_a_line_cut :
    ∃ l' line, log ⟨3, 0, 11⟩ (List.replicate 256 0) (chars ['T', '\n']) (chars ['L'])
        (chars ['f']) 7 false ⟨List.replicate 300 97, true⟩ ⟨-1, 5⟩
          = .ok ⟨l', some (3, line), false⟩ ∧
      l' = ⟨3, 1, 11⟩ ∧
      line = chars ['[', 'T', ']', ' ', '[', 'L', ']', ' '] ++ List.replicate 247 97 ++ [10] := by
  refine ⟨_, _, (log_writes_a_line ⟨3, 0, 11⟩ _ _).1 _ _ _ _ _ _ ?_, rfl, ?_⟩
  · rw [List.length_replicate]
    rfl
  · decide +kernel

/-! ## 5. The rows of a dump -/

variable {bs cs rest : List Byte} {i r : Nat} {off : BitVec 32}

/-- The texts for the bytes of a row, from the `i`th on. -/
def cells (text : Nat → Byte → List Byte) : Nat → List Byte → List Byte
  | _, [] => []
  | i, c :: cs => text i c ++ cells text (i + 1) cs

/-- The last `n` cells of a row, for which there are no bytes. -/
def blanks : Nat → List Byte
  | 0 => []
  | n + 1 => chars [' ', ' '] ++ gap (16 - (n + 1)) ++ blanks n

/-- The columns of a row behind the bytes. -/
def column (bs : List Byte) : List Byte :=
  blanks (16 - bs.length) ++ (chars [' ', ' ', '|'] ++ (cells charCell 0 bs ++ chars ['|', '\n']))

/-- The row for at most 16 bytes. -/
def row (off : BitVec 32) (bs : List Byte) : List Byte :=
  offset off ++ (cells hexCell 0 bs ++ column bs)

/-- The first `r` rows. -/
def dump : Nat → BitVec 32 → List Byte → List Byte
  | 0, _, _ => []
  | r + 1, off, data =>
    if data = [] then [] else row off (data.take 16) ++ dump r (off + 16) (data.drop 16)

@[simp] theorem dump_nil (r : Nat) (off : BitVec 32) : dump r off [] = [] := by
  cases r <;> simp [dump]

@[simp] theorem length_chars (cs : List Char) : (chars cs).length = cs.length := List.length_map _

@[simp] theorem length_hex (w n : Nat) : (hex w n).length = w := by
  induction w generalizing n with
  | zero => rfl
  | succ w ih => simp [hex, ih]

@[simp] theorem length_offset (off : BitVec 32) : (offset off).length = 10 := by
  rw [offset, List.length_append, length_hex]
  rfl

theorem length_gap (i : Nat) : (gap i).length = if i = 7 then 2 else 1 := by
  unfold gap
  split <;> rfl

theorem length_charCell (i : Nat) (c : Byte) : (charCell i c).length = 1 := by
  unfold charCell
  split <;> rfl

theorem length_hexCell (i : Nat) (c : Byte) : (hexCell i c).length = if i = 7 then 4 else 3 := by
  rw [hexCell, List.length_append, length_hex, length_gap]
  split <;> rfl

theorem length_hexCells (i : Nat) (bs : List Byte) : (cells hexCell i bs).length
    = 3 * bs.length + if i ≤ 7 ∧ 7 < i + bs.length then 1 else 0 := by
  induction bs generalizing i with
  | nil => simp [cells]
  | cons c cs ih =>
    rw [cells, List.length_append, length_hexCell, ih, List.length_cons]
    split_ifs <;> omega

theorem length_charCells (i : Nat) (bs : List Byte) :
    (cells charCell i bs).length = bs.length := by
  induction bs generalizing i with
  | nil => rfl
  | cons c cs ih =>
    rw [cells, List.length_append, length_charCell, ih, List.length_cons, Nat.add_comm]

theorem length_blanks (hn : n ≤ 16) :
    (blanks n).length = 3 * n + if 9 ≤ n then 1 else 0 := by
  induction n with
  | zero => rfl
  | succ n ih =>
    rw [blanks, List.length_append, List.length_append, length_gap, ih (by omega), length_chars]
    simp only [List.length_cons, List.length_nil]
    split_ifs <;> omega

/-- A row has 64 characters, and one more for each byte. -/
theorem length_row (off : BitVec 32) (h : bs.length ≤ 16) :
    (row off bs).length = 64 + bs.length := by
  simp only [row, column, List.length_append, length_offset, length_hexCells, length_charCells,
    length_blanks (by omega : 16 - bs.length ≤ 16), length_chars, List.length_cons, List.length_nil]
  split_ifs <;> omega

theorem cells_append (text : Nat → Byte → List Byte) (i : Nat) (bs cs : List Byte) :
    cells text i (bs ++ cs) = cells text i bs ++ cells text (i + bs.length) cs := by
  induction bs generalizing i with
  | nil => rfl
  | cons b bs ih =>
    rw [List.cons_append, cells, cells, ih, List.append_assoc, List.length_cons,
      Nat.add_right_comm, Nat.add_assoc]

/-! ## 6. The loops print the rows -/

theorem Out.Has.print_text (h : o.Has size s) (hsize : 0 < size) (hmax : size < 2147483648)
    (t : List Byte) (ht : t.length < 2147483648) :
    ∃ o', o.print size ⟨t, true⟩ = .ok o' ∧ o'.Has size (s ++ t) := by
  have := h.print hsize hmax ⟨t, true⟩
  rwa [Formatted.shown, if_pos ⟨rfl, ht⟩] at this

/-- The loop over the bytes of a row. -/
theorem eachByte_spec (h : o.Has size s) (hsize : 0 < size) (hmax : size < 2147483648)
    {text : Nat → Byte → List Byte} (htext : ∀ i c, (text i c).length < 2147483648)
    (hn : n ≤ 16) (bs rest : List Byte) :
    ∃ o', eachByte size text n o (bs ++ rest) bs.length
        = .ok (o', 16 - (n - bs.length), bs.drop n ++ rest, (bs.drop n).length) ∧
      o'.Has size (s ++ cells text (16 - n) (bs.take n)) := by
  induction n generalizing o s bs with
  | zero =>
    refine ⟨o, ?_, by simpa [cells] using h⟩
    simp [eachByte]
  | succ n ih =>
    cases bs with
    | nil =>
      refine ⟨o, ?_, by simpa [cells] using h⟩
      simp [eachByte]
    | cons c cs =>
      obtain ⟨o₁, hcode₁, h₁⟩ := h.print_text hsize hmax (text (16 - (n + 1)) c) (htext _ _)
      obtain ⟨o₂, hcode₂, h₂⟩ := ih h₁ (by omega) cs
      have hlen : ((c :: cs).length : Int) - 1 = cs.length := by simp
      refine ⟨o₂, ?_, ?_⟩
      · rw [List.cons_append, eachByte, if_neg (by simp; omega)]
        simp only [hcode₁, ok_bind]
        rw [hlen, hcode₂, List.length_cons, Nat.add_sub_add_right, List.drop_succ_cons]
      · rw [List.take_succ_cons, cells, show 16 - (n + 1) + 1 = 16 - n by omega,
          ← List.append_assoc]
        exact h₂

/-- The loop over the cells without a byte. -/
theorem eachBlank_spec (h : o.Has size s) (hsize : 0 < size) (hmax : size < 2147483648) (n : Nat) :
    ∃ o', eachBlank size n o = .ok o' ∧ o'.Has size (s ++ blanks n) := by
  induction n generalizing o s with
  | zero => exact ⟨o, rfl, by simpa [blanks] using h⟩
  | succ n ih =>
    obtain ⟨o₁, hcode₁, h₁⟩ := h.print_text hsize hmax
      (chars [' ', ' '] ++ gap (16 - (n + 1))) (by
        rw [List.length_append, length_gap]
        split <;> decide)
    obtain ⟨o₂, hcode₂, h₂⟩ := ih h₁
    refine ⟨o₂, ?_, ?_⟩
    · rw [eachBlank, hcode₁, ok_bind, hcode₂]
    · rw [blanks, ← List.append_assoc]
      exact h₂

/-- **One row** is printed in each round, for the next 16 bytes or for what is left. -/
theorem hexdumpRows_round (h : o.Has size s) (hsize : 0 < size) (hmax : size < 2147483648)
    (hne : bs ≠ []) (hlen : o.len < size - 1) (fuel : Nat) (rest : List Byte) (off : BitVec 32) :
    ∃ o', hexdumpRows size (fuel + 1) o (bs ++ rest) bs.length off
        = hexdumpRows size fuel o' (bs.drop 16 ++ rest) (bs.drop 16).length (off + 16) ∧
      o'.Has size (s ++ row off (bs.take 16)) := by
  have hcell : ∀ i c, (hexCell i c).length < 2147483648 := by
    intro i c
    rw [length_hexCell]
    split <;> decide
  have hchar : ∀ i c, (charCell i c).length < 2147483648 := by
    intro i c
    rw [length_charCell]
    decide
  obtain ⟨o₁, hcode₁, h₁⟩ := h.print_text hsize hmax (offset off) (by
    rw [length_offset]
    decide)
  obtain ⟨o₂, hcode₂, h₂⟩ := eachByte_spec h₁ hsize hmax hcell (Nat.le_refl _) bs rest
  obtain ⟨o₃, hcode₃, h₃⟩ := eachBlank_spec h₂ hsize hmax (16 - (16 - (16 - bs.length)))
  obtain ⟨o₄, hcode₄, h₄⟩ := h₃.print_text hsize hmax (chars [' ', ' ', '|']) (by decide)
  obtain ⟨o₅, hcode₅, h₅⟩ := eachByte_spec h₄ hsize hmax hchar (Nat.le_refl _) bs rest
  obtain ⟨o₆, hcode₆, h₆⟩ := h₅.print_text hsize hmax (chars ['|', '\n']) (by decide)
  refine ⟨o₆, ?_, ?_⟩
  · rw [hexdumpRows, if_pos ⟨by simpa using hne, hlen⟩]
    simp only [hcode₁, hcode₂, hcode₃, hcode₄, hcode₅, hcode₆, ok_bind]
  · have hblank : 16 - (16 - (16 - bs.length)) = 16 - (bs.take 16).length := by
      rw [List.length_take]
      omega
    rw [hblank] at h₆
    simpa only [row, column, Nat.sub_self, List.append_assoc] using h₆

theorem Out.Has.len_lt (h : o.Has size s) (hsize : 0 < size) :
    o.len < size - 1 ↔ s.length < size - 1 := by
  obtain ⟨-, n, hlen, hshows⟩ := h
  have := hshows.len_eq
  omega

theorem Out.Has.full (h : o.Has size s) (hfull : size - 1 ≤ s.length) (t : List Byte) :
    o.Has size (s ++ t) := by
  obtain ⟨hlength, n, hlen, hshows⟩ := h
  exact ⟨hlength, n, hlen, hshows.full hfull t⟩

/-- The loop ends behind the last byte, or when the buffer is full: then further rows would change
nothing. -/
theorem hexdumpRows_exit (h : o.Has size s) (hsize : 0 < size)
    (hexit : bs = [] ∨ size - 1 ≤ s.length) (r fuel : Nat) (rest : List Byte) (off : BitVec 32) :
    hexdumpRows size (fuel + 1) o (bs ++ rest) bs.length off = .ok o ∧
      o.Has size (s ++ dump r off bs) := by
  rcases hexit with rfl | hfull
  · rw [dump_nil, List.append_nil]
    exact ⟨by simp [hexdumpRows], h⟩
  · refine ⟨?_, h.full hfull _⟩
    rw [hexdumpRows, if_neg (by rw [h.len_lt hsize]; omega)]
    rfl

/-- **The whole loop**: the rows are printed until the buffer is full. -/
theorem hexdumpRows_spec (h : o.Has size s) (hsize : 0 < size) (hmax : size < 2147483648)
    {r fuel : Nat} (hfuel : r < fuel) (hrows : size - 1 ≤ s.length + 80 * r)
    (bs rest : List Byte) (off : BitVec 32) :
    ∃ o', hexdumpRows size fuel o (bs ++ rest) bs.length off = .ok o' ∧
      o'.Has size (s ++ dump r off bs) := by
  induction r generalizing o s bs off fuel with
  | zero =>
    obtain ⟨fuel, rfl⟩ := Nat.exists_eq_add_of_lt hfuel
    exact ⟨o, hexdumpRows_exit h hsize (Or.inr hrows) 0 _ rest off⟩
  | succ r ih =>
    obtain ⟨fuel, rfl⟩ : ∃ f, fuel = f + 1 := ⟨fuel - 1, by omega⟩
    by_cases hexit : bs = [] ∨ size - 1 ≤ s.length
    · exact ⟨o, hexdumpRows_exit h hsize hexit (r + 1) fuel rest off⟩
    · obtain ⟨hne, hroom⟩ := not_or.mp hexit
      obtain ⟨o₁, hcode₁, h₁⟩ := hexdumpRows_round h hsize hmax hne
        ((h.len_lt hsize).mpr (by omega)) fuel rest off
      rw [hcode₁, dump, if_neg hne, ← List.append_assoc]
      by_cases hlong : 16 ≤ bs.length
      · refine ih h₁ (by omega) ?_ (bs.drop 16) (off + 16)
        rw [List.length_append, length_row off (List.length_take_le _ _), List.length_take]
        omega
      · -- a row of less than 16 bytes is the last one
        obtain ⟨fuel, rfl⟩ : ∃ f, fuel = f + 1 := ⟨fuel - 1, by omega⟩
        exact ⟨o₁, hexdumpRows_exit h₁ hsize
          (Or.inl (List.drop_eq_nil_of_le (by omega))) r fuel rest _⟩

/-! ## 7. What can be read in a dump -/

/-- The value of a hexadecimal digit. -/
def hexVal (c : Byte) : Option Nat :=
  if 48 ≤ c.toNat ∧ c.toNat < 58 then some (c.toNat - 48)
  else if 97 ≤ c.toNat ∧ c.toNat < 103 then some (c.toNat - 87)
  else none

/-- The bytes in the last `n` cells of a row, up to the first cell that is blank or cut off. -/
def readCells : Nat → List Byte → List Byte
  | n + 1, a :: b :: t =>
    match hexVal a, hexVal b with
    | some x, some y =>
      BitVec.ofNat 8 (16 * x + y) :: readCells n (t.drop (gap (16 - (n + 1))).length)
    | _, _ => []
  | _, _ => []

/-- The bytes in the first `r` rows. -/
def readDump : Nat → List Byte → List Byte
  | 0, _ => []
  | r + 1, t => readCells 16 (t.drop 10) ++ readDump r (t.drop 80)

theorem hexVal_hexDigit {d : Nat} (h : d < 16) : hexVal (hexDigit d) = some d :=
  (by decide : ∀ d : Fin 16, hexVal (hexDigit d) = some d.val) ⟨d, h⟩

theorem hex_two (c : Byte) :
    hex 2 c.toNat = [hexDigit (c.toNat / 16), hexDigit (c.toNat % 16)] := by
  have := c.isLt
  simp only [hex, List.nil_append, List.cons_append]
  rw [Nat.mod_eq_of_lt (by omega : c.toNat / 16 < 16)]

@[simp] theorem readCells_nil (n : Nat) : readCells n [] = [] := by
  cases n <;> rfl

@[simp] theorem readDump_nil (r : Nat) : readDump r [] = [] := by
  induction r with
  | zero => rfl
  | succ r ih => rw [readDump, List.drop_nil, List.drop_nil, readCells_nil, ih, List.nil_append]

/-- Nothing is read behind the end or from a blank on. -/
theorem readCells_stop (n : Nat) (h : ∀ c ∈ t.head?, c = 32) : readCells n t = [] := by
  cases n with
  | zero => simp [readCells]
  | succ n =>
    match t with
    | [] => rfl
    | [_] => rfl
    | a :: b :: t =>
      obtain rfl := h a rfl
      rfl

/-- **The cells of a row are read back.** -/
theorem readCells_cells (hn : n ≤ 16) (hlen : bs.length ≤ n)
    (hrest : bs.length = n ∨ ∀ c ∈ rest.head?, c = 32) :
    readCells n (cells hexCell (16 - n) bs ++ rest) = bs := by
  induction n generalizing bs with
  | zero =>
    obtain rfl := List.eq_nil_of_length_eq_zero (Nat.le_zero.mp hlen)
    simp [readCells]
  | succ n ih =>
    cases bs with
    | nil => exact readCells_stop _ (hrest.resolve_left (by simp))
    | cons c cs =>
      have hc := c.isLt
      simp only [List.length_cons, Nat.add_right_cancel_iff, Nat.add_le_add_iff_right] at hlen hrest
      have hcells := ih (by omega) hlen hrest
      rw [show 16 - n = 16 - (n + 1) + 1 by omega] at hcells
      have hbyte : BitVec.ofNat 8 (16 * (c.toNat / 16) + c.toNat % 16) = c := by
        rw [Nat.div_add_mod, BitVec.ofNat_toNat, BitVec.setWidth_eq]
      rw [cells, hexCell, hex_two]
      simp only [List.cons_append, List.nil_append, List.append_assoc, readCells,
        hexVal_hexDigit (by omega : c.toNat / 16 < 16),
        hexVal_hexDigit (by omega : c.toNat % 16 < 16), List.drop_left, hbyte]
      rw [hcells]

/-- The column behind the cells starts with a blank, if there are less than 16 bytes or not. -/
theorem head_column (bs rest : List Byte) : (column bs ++ rest).head? = some 32 := by
  unfold column
  cases 16 - bs.length <;> rfl

theorem drop_row (off : BitVec 32) (bs rest : List Byte) :
    (row off bs ++ rest).drop 10 = cells hexCell 0 bs ++ (column bs ++ rest) := by
  rw [row, List.append_assoc, List.append_assoc]
  exact List.drop_left' (length_offset off)

/-- A row is read back, with what follows it. -/
theorem readCells_row (off : BitVec 32) (h : bs.length ≤ 16) (rest : List Byte) :
    readCells 16 ((row off bs ++ rest).drop 10) = bs := by
  rw [drop_row]
  refine readCells_cells (Nat.le_refl _) h (Or.inr fun c hc => ?_)
  rw [head_column] at hc
  exact (Option.some.inj hc).symm

/-- The first 47 characters of a row show 12 bytes. -/
theorem take_row (off : BitVec 32) (h : 12 ≤ bs.length) :
    (row off bs).take 47 = offset off ++ cells hexCell 0 (bs.take 12) := by
  have hcells := cells_append hexCell 0 (bs.take 12) (bs.drop 12)
  rw [List.take_append_drop, List.length_take, Nat.min_eq_left h] at hcells
  have hrow : row off bs = (offset off ++ cells hexCell 0 (bs.take 12)) ++
      (cells hexCell (0 + 12) (bs.drop 12) ++ column bs) := by
    simp only [row, hcells, List.append_assoc]
  rw [hrow]
  refine List.take_left' ?_
  rw [List.length_append, length_offset, length_hexCells, List.length_take, Nat.min_eq_left h]
  rfl

/-- A row that is cut off behind 47 characters. -/
theorem readCells_cut (off : BitVec 32) (h : bs.length ≤ 16) :
    readCells 16 (((row off bs).take 47).drop 10) = bs.take 12 := by
  by_cases hlong : 12 ≤ bs.length
  · rw [take_row off hlong, List.drop_left' (length_offset off)]
    -- behind the 12 bytes the row is cut off
    have hend : readCells 16 (cells hexCell (16 - 16) (bs.take 12) ++ []) = bs.take 12 :=
      readCells_cells (Nat.le_refl _) (by rw [List.length_take]; omega) (Or.inr (by simp))
    rwa [List.append_nil] at hend
  · rw [List.take_of_length_le (by omega : bs.length ≤ 12), List.drop_take]
    have hdrop := drop_row off bs []
    rw [List.append_nil, List.append_nil] at hdrop
    have hcells : (cells hexCell 0 bs).length < 47 - 10 := by
      rw [length_hexCells]
      split <;> omega
    rw [hdrop, List.take_append, List.take_of_length_le (Nat.le_of_lt hcells)]
    refine readCells_cells (Nat.le_refl _) h (Or.inr fun c hc => ?_)
    have hhead := head_column bs []
    rw [List.append_nil] at hhead
    rw [List.head?_take, if_neg (by omega), hhead] at hc
    exact (Option.some.inj hc).symm

/-- A dump of at most 16 bytes has one row. -/
theorem dump_short (off : BitVec 32) (r : Nat) (hne : data ≠ []) (h : data.length ≤ 16) :
    dump (r + 1) off data = row off data := by
  rw [dump, if_neg hne, List.drop_eq_nil_of_le h, dump_nil, List.append_nil,
    List.take_of_length_le h]

theorem take_dump (off : BitVec 32) (r k : Nat) (h : 16 ≤ data.length) :
    (dump (r + 1) off data).take (80 + k)
      = row off (data.take 16) ++ (dump r (off + 16) (data.drop 16)).take k := by
  have hlen := length_row off (List.length_take_le 16 data)
  rw [List.length_take, Nat.min_eq_left h] at hlen
  rw [dump, if_neg (by rintro rfl; simp at h), List.take_append, hlen, Nat.add_sub_cancel_left,
    List.take_of_length_le (by omega)]

/-- The first 47 characters of a dump are in its first row. -/
theorem take_dump_row (off : BitVec 32) (r : Nat) (hne : data ≠ []) :
    (dump (r + 1) off data).take 47 = (row off (data.take 16)).take 47 := by
  by_cases h : 16 ≤ data.length
  · have hrow := congrArg (List.take 47) (take_dump off r 0 h)
    rwa [List.take_zero, List.append_nil, List.take_take] at hrow
  · rw [dump_short off r hne (by omega), List.take_of_length_le (by omega : data.length ≤ 16)]

/-- **Reading a dump** that is cut off in the middle of its last row. -/
theorem readDump_dump (r : Nat) (off : BitVec 32) (data : List Byte) :
    readDump (r + 1) ((dump (r + 1) off data).take (80 * r + 47)) = data.take (16 * r + 12) := by
  by_cases hne : data = []
  · simp [hne]
  induction r generalizing off data with
  | zero =>
    rw [readDump, readDump, List.append_nil, Nat.mul_zero, Nat.zero_add, take_dump_row off 0 hne,
      readCells_cut off (List.length_take_le _ _), List.take_take]
    rfl
  | succ r ih =>
    by_cases h : 16 ≤ data.length
    · have hlen := length_row off (List.length_take_le 16 data)
      rw [List.length_take, Nat.min_eq_left h] at hlen
      have htake : data.take (16 * (r + 1) + 12)
          = data.take 16 ++ (data.drop 16).take (16 * r + 12) := by
        rw [show 16 * (r + 1) + 12 = 16 + (16 * r + 12) by omega, List.take_add]
      rw [show 80 * (r + 1) + 47 = 80 + (80 * r + 47) by omega, take_dump off _ _ h, readDump,
        readCells_row off (List.length_take_le _ _), List.drop_left' hlen, htake]
      by_cases hrest : data.drop 16 = []
      · simp [hrest]
      · rw [ih _ _ hrest]
    · -- the only row is not cut off
      have hlen := length_row off (by omega : data.length ≤ 16)
      rw [dump_short off _ hne (by omega), List.take_of_length_le (by omega), readDump,
        List.drop_eq_nil_of_le (by omega : (row off data).length ≤ 80), readDump_nil,
        List.append_nil, List.take_of_length_le (by omega)]
      have hread := readCells_row off (by omega : data.length ≤ 16) []
      rwa [List.append_nil] at hread

/-- A dump that is cut off says nothing of the bytes behind. -/
theorem dump_take (r : Nat) (off : BitVec 32) (data : List Byte) :
    (dump (r + 1) off data).take (80 * r + 47)
      = (dump (r + 1) off (data.take (16 * r + 12))).take (80 * r + 47) := by
  induction r generalizing off data with
  | zero =>
    by_cases h : 12 ≤ data.length
    · have hne : data ≠ [] := by rintro rfl; simp at h
      have hlen : (data.take 12).length = 12 := by rw [List.length_take]; omega
      have hne' : data.take 12 ≠ [] := by intro h0; simp [h0] at hlen
      simp only [Nat.mul_zero, Nat.zero_add]
      rw [take_dump_row off 0 hne, take_dump_row off 0 hne',
        take_row off (by rw [List.length_take]; omega),
        take_row off (by rw [List.length_take]; omega)]
      simp only [List.take_take]
      rfl
    · rw [List.take_of_length_le (by omega : data.length ≤ 16 * 0 + 12)]
  | succ r ih =>
    by_cases h : 16 ≤ data.length
    · have hle : 16 ≤ (data.take (16 * (r + 1) + 12)).length := by rw [List.length_take]; omega
      rw [show 80 * (r + 1) + 47 = 80 + (80 * r + 47) by omega, take_dump off _ _ h,
        take_dump off _ _ hle, ih, List.take_take, Nat.min_eq_left (by omega), List.drop_take,
        show 16 * (r + 1) + 12 - 16 = 16 * r + 12 by omega]
    · rw [List.take_of_length_le (by omega : data.length ≤ 16 * (r + 1) + 12)]

/-! ## 8. `_log_hexdump` -/

/-- What is written for the data. -/
def dumped (data : List Byte) : List Byte := (dump 26 0 data).take (8 * LOG_MAX_LEN - 1)

/-- **What a dump shows.**  With an open log and for all data, `_log_hexdump` ends after at most 27
tests of its loop, never reads behind the data and never leaves its buffer; it writes once.  The
first 412 bytes can be read back from what it writes, and nothing else is in it: two dumps are the
same if and only if these bytes are. -/
theorem hexdump_shows {fuel : Nat} (hfuel : 27 ≤ fuel) (hfd : 0 ≤ l.fd)
    (hbuf : buf.length = 8 * LOG_MAX_LEN) (data : List Byte) (w : Wrote) :
    logHexdump fuel l buf data data.length w
        = .ok ⟨{ l with nerror := if w.n < 0 then l.nerror + 1 else l.nerror },
          some (l.fd, dumped data), false⟩ ∧
      readDump 26 (dumped data) = data.take 412 ∧
      ∀ data', dumped data = dumped data' ↔ data.take 412 = data'.take 412 := by
  refine ⟨?_, readDump_dump 25 0 data, fun data' => ⟨fun h => ?_, fun h => ?_⟩⟩
  · obtain ⟨o, hcode, ho⟩ := hexdumpRows_spec (Out.Has.start hbuf) (by decide) (by decide)
      (show 26 < fuel by omega) (by decide) data [] 0
    rw [List.append_nil] at hcode
    have hsize : (8 * (LOG_MAX_LEN : Int)) = (8 * LOG_MAX_LEN : Nat) := rfl
    simp only [logHexdump, if_neg (Int.not_lt.mpr hfd), hsize, hcode, ho.bytes, ok_bind, pure_eq_ok,
      Logger.wrote_eq, List.nil_append]
    rfl
  · have hread := congrArg (readDump 26) h
    rwa [dumped, dumped, show 8 * LOG_MAX_LEN - 1 = 80 * 25 + 47 from rfl, readDump_dump,
      readDump_dump] at hread
  · have htake := dump_take 25 0 data
    have htake' := dump_take 25 0 data'
    rw [show 16 * 25 + 12 = 412 from rfl] at htake htake'
    rw [h] at htake
    exact htake.trans htake'.symm

/-- Two bytes are written as one row, and read back. -/
theorem hexdump_shows_two :
    ∃ buf out, logHexdump 27 ⟨3, 0, 0⟩ buf [104, 10] 2 ⟨66, 0⟩
        = .ok ⟨⟨3, 0, 0⟩, some (3, out), false⟩ ∧
      out.length = 66 ∧ readDump 26 out = [104, 10] := by
  have hbuf : (List.replicate 2048 (0 : Byte)).length = 8 * LOG_MAX_LEN := List.length_replicate
  obtain ⟨hcode, hread, -⟩ := hexdump_shows (l := ⟨3, 0, 0⟩) (Nat.le_refl 27) (by decide) hbuf
    [104, 10] ⟨66, 0⟩
  refine ⟨_, _, hcode, by decide +kernel, ?_⟩
  rw [hread]
  exact List.take_of_length_le (by decide)

end Log
end Corosched
