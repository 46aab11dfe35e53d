import Xnix.Ramfs

/-!
# The INI parser

`ini_parse_buffer` of `user/init/ini_parser.c`. The line is what its buffer holds up to the NUL. The
handler has a state of its own and says whether to go on.
-/

namespace Xnix

def iniMaxLine : ℕ := 256
def iniMaxSection : ℕ := 64
def iniMaxKey : ℕ := 32
def iniMaxValue : ℕ := 192

def isBlank (c : UInt8) : Bool := c = 32 ∨ c = 9

def skipWhitespace (s : CString) : CString := s.dropWhile isBlank

def trimTrailing (s : CString) : CString := s.rdropWhile fun c => isBlank c ∨ c = 13 ∨ c = 10

/-- The section, the key and the value of a call. -/
abbrev IniCall := CString × CString × CString

abbrev IniHandler (σ : Type*) := σ → IniCall → σ × Bool

/-- `section`, the line so far, and the context of the handler. -/
structure IniState (σ : Type*) where
  sect : CString
  line : CString
  ctx : σ

/-- A call of the handler, which may stop the parser. -/
def callHandler {σ : Type*} (handler : IniHandler σ) (ctx : σ) (call : IniCall) : Except σ σ :=
  let (ctx, goOn) := handler ctx call
  if goOn then .ok ctx else .error ctx

/-- A key or a value out of the text that holds it. -/
def iniField (text : CString) (size : ℕ) : CString :=
    trimTrailing ((skipWhitespace text).take (size - 1))

/-- `parse_line`: the section after it and the call it makes. -/
def parseLine (line sect : CString) : CString × Option IniCall :=
  match skipWhitespace line with
  | [] => (sect, none)
  | c :: p =>
    if c = 35 ∨ c = 59 then (sect, none)
    else if c = 91 then
      (if 93 ∈ p then (p.takeWhile (· ≠ 93)).take (iniMaxSection - 1) else sect, none)
    else if 61 ∈ line then
      (sect, some (sect, iniField (line.takeWhile (· ≠ 61)) iniMaxKey,
        iniField ((line.dropWhile (· ≠ 61)).drop 1) iniMaxValue))
    else (sect, none)

section Buffer

variable {σ : Type*} (handler : IniHandler σ)

/-- One round of the loop of `ini_parse_buffer`. -/
def parseChar (s : IniState σ) (c : UInt8) : Except σ (IniState σ) :=
  if c = 10 ∨ c = 0 then
    let (sect, call) := parseLine s.line s.sect
    match call with
    | none => .ok ⟨sect, [], s.ctx⟩
    | some call => (callHandler handler s.ctx call).map fun ctx => ⟨sect, [], ctx⟩
  else if s.line.length < iniMaxLine - 1 then .ok { s with line := s.line ++ [c] }
  else .ok s

/-- `ini_parse_buffer`: the context in the end, as an error when the handler stopped the parser. -/
def iniParseBuffer (buf : List UInt8) (ctx : σ) : Except σ σ :=
  ((buf ++ [10]).foldlM (parseChar handler) ⟨[], [], ctx⟩).map IniState.ctx

end Buffer

end Xnix
