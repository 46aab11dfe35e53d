import Xnix.Lib.Flat
import Xnix.Lib.Ring
import Xnix.Lib.Run

/-!
# A terminal and its clients

`servers/term/main.c`: the line that is edited in cooked mode, the queue that readers take from, and
the read that waits for input.
-/

namespace Xnix

open Function

/-- `TERM_INPUT_BUF_SIZE` and `TERM_LINE_BUF_SIZE`. -/
def termBufSize : ℕ := 256

/-- What clients see of their reads: an answer at once, a read that has to wait, and the reply to
one that waited. -/
inductive TermLog
  | given (bytes : List (BitVec 8))
  | deferred (tid : ℕ)
  | reply (tid : ℕ) (bytes : List (BitVec 8))
  deriving DecidableEq

/-- `input_buf` is a ring from `input_tail`, its head, to `input_head`. `pending` has `pending_tid`
and `pending_max_len` of a read that waits. -/
structure Terminal where
  raw : Bool
  input : Lib.Ring (BitVec 8)
  lineBuf : Lib.Flat
  linePos : ℕ
  pending : Option (ℕ × ℕ)
  log : List TermLog

inductive TermAction
  | key (c : BitVec 8)
  | read (tid maxLen : ℕ)
  | setRaw (raw : Bool)
  | flushInput

def inputAvailable (r : Lib.Ring (BitVec 8)) : ℕ :=
  if r.head ≤ r.tail then r.tail - r.head else termBufSize - r.head + r.tail

def inputPut (r : Lib.Ring (BitVec 8)) (c : BitVec 8) : Lib.Ring (BitVec 8) :=
  if (r.tail + 1) % termBufSize = r.head then r else r.push termBufSize c

/-- Calls of `input_get`, until there is nothing left. -/
def inputGets : ℕ → Lib.Ring (BitVec 8) → List (BitVec 8) × Lib.Ring (BitVec 8)
  | 0, r => ([], r)
  | n + 1, r =>
    if r.head = r.tail then ([], r)
    else
      let x := inputGets n (r.advance termBufSize)
      (r.front :: x.1, x.2)

namespace Terminal

variable (t : Terminal)

/-- What a reader gets, up to its limit, and what is left. -/
def take (maxLen : ℕ) : List (BitVec 8) × Lib.Ring (BitVec 8) :=
  inputGets (min (inputAvailable t.input) maxLen) t.input

def tryFulfillPendingRead : Terminal :=
  match t.pending with
  | none => t
  | some (tid, maxLen) =>
    if inputAvailable t.input = 0 then t
    else
      let x := t.take maxLen
      { t with input := x.2, pending := none, log := t.log ++ [.reply tid x.1] }

/-- The case `IO_READ` of the handler. -/
def ioRead (tid maxLen : ℕ) : Terminal :=
  let maxLen := if maxLen = 0 then 1 else maxLen
  if 0 < inputAvailable t.input then
    let x := t.take maxLen
    { t with input := x.2, log := t.log ++ [.given x.1] }
  else { t with pending := some (tid, maxLen), log := t.log ++ [.deferred tid] }

def isErase (c : BitVec 8) : Bool := c = 0x08 ∨ c = 0x7F

def isEnter (c : BitVec 8) : Bool := c = 0x0D ∨ c = 0x0A

def isPrintable (c : BitVec 8) : Bool := 32 ≤ c ∧ c < 127

/-- `term_process_input`, up to the echo and the signal for Ctrl+C. -/
def termProcessInput (c : BitVec 8) : Terminal :=
  if t.raw then { t with input := inputPut t.input c }.tryFulfillPendingRead
  else if c = 0x03 then t
  else if isErase c then if 0 < t.linePos then { t with linePos := t.linePos - 1 } else t
  else if isEnter c then
    { t with
      input := inputPut ((t.lineBuf.slice 0 t.linePos).foldl inputPut t.input) 0x0A
      linePos := 0 }.tryFulfillPendingRead
  else if isPrintable c ∧ t.linePos < termBufSize - 1 then
    { t with lineBuf := update t.lineBuf t.linePos c, linePos := t.linePos + 1 }
  else t

/-- The case `TTY_IOCTL_FLUSH_INPUT` of the handler. -/
def flushInput : Terminal :=
  { t with input := { t.input with head := 0, tail := 0 }, linePos := 0, pending := none }

def step : TermAction → Option Terminal
  | .key c => some (t.termProcessInput c)
  | .read tid maxLen => some (t.ioRead tid maxLen)
  | .setRaw raw => some { t with raw }
  | .flushInput => some t.flushInput

/-- A terminal that no read has reached. -/
structure Init (t : Terminal) : Prop where
  pending : t.pending = none
  log : t.log = []

end Terminal

end Xnix
