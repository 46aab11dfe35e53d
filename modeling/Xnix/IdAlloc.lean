import Xnix.Lib.Bitmap
import Xnix.Lib.Run

/-!
# Process and thread identifiers

`kernel/process/process.c` and `kernel/sched/tid.c` hand out identifiers from a bitmap by the same
code: the lowest clear bit is taken, and when there is none the bitmap is moved to a block for twice
as many. The heap gives out whole pages that hold what their last user left, so the bitmap here goes
on past its `capacity`.
-/

namespace Xnix

/-- The bitmap and capacity of the PIDs or of the TIDs. `live` is not in the source: the identifiers
given out and not freed. -/
structure IdTable where
  bitmap : Lib.Bitmap
  capacity : ℕ
  live : List ℕ

namespace IdTable

/-- The bytes of the block that `kmalloc` takes for `size` bytes: whole pages without the header. -/
def kmallocBlock (size : ℕ) : ℕ := (8 + size + 4095) / 4096 * 4096 - 8

/-- A bitmap for `max` identifiers in memory that held `garbage`; the identifier 0 is reserved. -/
def create (max : ℕ) (garbage : Lib.Bitmap) : IdTable where
  bitmap := (garbage.zeroBytes ((max + 31) / 32 * 32 / 8)).set 0
  capacity := (max + 31) / 32 * 32
  live := []

/-- The loop over the bits `j` of word `i`. -/
def scanBits (word : BitVec 32) (capacity i : ℕ) : ℕ → ℕ → Option ℕ
  | 0, _ => none
  | left + 1, j =>
    if capacity ≤ i * 32 + j then none
    else if word.getLsbD j = false then some (i * 32 + j)
    else scanBits word capacity i left (j + 1)

def scanWords (bitmap : Lib.Bitmap) (capacity : ℕ) : ℕ → ℕ → Option ℕ
  | 0, _ => none
  | left + 1, i =>
    if bitmap i = 0xFFFFFFFF#32 then scanWords bitmap capacity left (i + 1)
    else
      match scanBits (bitmap i) capacity i 32 0 with
      | some id => some id
      | none => scanWords bitmap capacity left (i + 1)

variable (s : IdTable)

def scan : Option ℕ := scanWords s.bitmap s.capacity ((s.capacity + 31) / 32) 0

def take (id : ℕ) : IdTable :=
  { s with bitmap := s.bitmap.set id, live := id :: s.live }

/-- The bitmap with twice the capacity, in a block that held `garbage`. -/
def grown (garbage : Lib.Bitmap) : IdTable :=
  { s with
    bitmap := Lib.Bitmap.copyBytes s.bitmap (garbage.zeroBytes ((s.capacity * 2 % 2 ^ 32 + 31) / 8))
      ((s.capacity + 31) / 8)
    capacity := s.capacity * 2 % 2 ^ 32 }

/-- Double the capacity and give out the first new identifier. `memory` is what `kzalloc` answers.
Without a value the copy has run over the end of the block. -/
def grow : Option Lib.Bitmap → Option (IdTable × Option ℕ)
  | none => some (s, none)
  | some garbage =>
    if (s.capacity + 31) / 8 ≤ kmallocBlock ((s.capacity * 2 % 2 ^ 32 + 31) / 8) then
      let s := s.grown garbage
      some (s.take (s.capacity / 2), some (s.capacity / 2))
    else none

def alloc (memory : Option Lib.Bitmap) : Option (IdTable × Option ℕ) :=
  match s.scan with
  | some id => some (s.take id, some id)
  | none => s.grow memory

/-- The capacity as the signed number that an identifier is compared with. -/
def signedCapacity : ℤ := if s.capacity < 2 ^ 31 then s.capacity else s.capacity - 2 ^ 32

/-- Free an identifier. A negative one shifts by a negative number. -/
def free (id : ℤ) : Option IdTable :=
  let freed := { s with live := s.live.erase id.toNat }
  if id = 0 ∨ s.signedCapacity ≤ id then some freed
  else if id < 0 then none
  else some { freed with bitmap := s.bitmap.clear id.toNat }

inductive Action
  | alloc (memory : Option Lib.Bitmap)
  | free (id : ℤ)

end IdTable

def cfgMaxProcesses : ℕ := 1024

def pidInit (garbage : Lib.Bitmap) : IdTable := .create cfgMaxProcesses garbage

variable (s : IdTable)

def processAllocPid (memory : Option Lib.Bitmap) : Option (IdTable × Option ℕ) := s.alloc memory

def freePid (pid : ℤ) : Option IdTable := s.free pid

def pidStep : IdTable.Action → Option IdTable
  | .alloc memory => (processAllocPid s memory).map Prod.fst
  | .free pid => freePid s pid

def cfgMaxThreads : ℕ := 4096

def tidInit (garbage : Lib.Bitmap) : IdTable := .create cfgMaxThreads garbage

def tidAlloc (memory : Option Lib.Bitmap) : Option (IdTable × Option ℕ) := s.alloc memory

def tidFree (tid : ℤ) : Option IdTable := s.free tid

def tidStep : IdTable.Action → Option IdTable
  | .alloc memory => (tidAlloc s memory).map Prod.fst
  | .free tid => tidFree s tid

end Xnix
