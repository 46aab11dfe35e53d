import Mathlib.Data.Fintype.BigOperators

/-!
# Handle tables

`kernel/handle/alloc.c`: the entries of one process' handle table and the two allocators. A slot of
type `HANDLE_NONE` is all zeroes, so a table is a list of optional entries and its capacity the
length of the list. Sizes are 32-bit words in the source and are reduced modulo `2 ^ 32` where the
source computes them.
-/

namespace Xnix

/-- `handle_type_t` without `HANDLE_NONE`, which is the absence of an entry. -/
inductive HandleType
  | endpoint | physmem | event | vmar | thread | process | procWatch | pipeRead | pipeWrite
  deriving DecidableEq, Repr

/-- The `HANDLE_RIGHT_*` bitmap of an entry. -/
abbrev Rights := BitVec 32

def handleRightRead : Rights := 0x01#32
def handleRightWrite : Rights := 0x02#32
def handleRightTransfer : Rights := 0x08#32
def handleRightDuplicate : Rights := 0x10#32
def handleRightAll : Rights := 0x1F#32

/-- `rights & bit` as the source tests it. -/
def Rights.has (r bit : Rights) : Bool := r &&& bit != 0#32

/-- Every right of `r` is a right of `s`. -/
def Rights.Within (r s : Rights) : Prop := r &&& s = r

instance (r s : Rights) : Decidable (r.Within s) := inferInstanceAs (Decidable (_ = _))

def handleInvalid : ℕ := 0xFFFFFFFF

def cfgHandleTableSize : ℕ := 1024

/-- `sizeof(struct handle_entry)`: type, object, rights and sixteen bytes of name. -/
def sizeofHandleEntry : ℕ := 28

def handleNameLen : ℕ := 15

/-- `CFG_KERNEL_DIRECT_MAP_MB` in bytes: `kmalloc` takes its pages from the directly mapped region,
so no block is larger. -/
def kernelDirectMap : ℕ := 512 * 2 ^ 20

def pageSize : ℕ := 4096

def sizeofKmallocHeader : ℕ := 8

/-- The pages `kmalloc` asks for: both sums are 32-bit. -/
def kmallocPages (size : ℕ) : ℕ :=
  ((sizeofKmallocHeader + size) % 2 ^ 32 + pageSize - 1) % 2 ^ 32 / pageSize

/-- The bytes a block of `kmalloc(size)` has for its user: `old_size` of `krealloc`. -/
def kmallocRoom (size : ℕ) : ℕ := kmallocPages size * pageSize - sizeofKmallocHeader

/-- `alloc_pages` can only find `kmallocPages size` free pages if that is a positive number of pages
of the direct map. -/
def kmallocFits (size : ℕ) : Bool :=
  decide (0 < kmallocPages size) && decide (kmallocPages size * pageSize ≤ kernelDirectMap)

/-- The bytes of a C string, without the terminating zero. -/
abbrev CString := List UInt8

structure HandleEntry (Oid : Type) where
  type : HandleType
  object : Oid
  rights : Rights
  name : CString
  deriving DecidableEq, Repr

/-- `struct handle_table`: `entries` up to `capacity`. -/
abbrev HandleTable (Oid : Type) := List (Option (HandleEntry Oid))

/-- What memory answers during one call: whether an allocation is granted, and whether the word at
an index outside the table is zero. -/
structure Mem where
  grant : Bool
  strayZero : Bool
  deriving DecidableEq, Repr

/-- Where an allocator put an entry. `stray h` is index `h` outside the table. -/
inductive Slot
  | invalid
  | at (h : ℕ)
  | stray (h : ℕ)
  deriving DecidableEq, Repr

section Alloc
variable {Oid : Type}

/-- The name field after `strncpy` and termination. -/
def clipName (name : CString) : CString := name.take handleNameLen

/-- The entry both allocators write: all rights and the clipped name. -/
def freshEntry (type : HandleType) (object : Oid) (name : CString) : HandleEntry Oid :=
  ⟨type, object, handleRightAll, clipName name⟩

def handleTableCreate : HandleTable Oid := List.replicate cfgHandleTableSize none

variable (t : HandleTable Oid)

/-- The table after a granted `krealloc` to `newCap` entries and the `memset` of the new part. -/
def growTo (newCap : ℕ) : HandleTable Oid :=
  t ++ List.replicate (newCap - t.length) none

/-- `krealloc` of a table to `newCap` entries; the byte count is a 32-bit product. A refusal leaves
the table (`some none`). There is no next state when the count wraps to zero, since the freed block
stays the table's block, or when the block is smaller than the entries that the kernel goes on to
use. -/
def kreallocTable (m : Mem) (t : HandleTable Oid) (newCap : ℕ) :
    Option (Option (HandleTable Oid)) :=
  let newSize := newCap * sizeofHandleEntry % 2 ^ 32
  let oldSize := kmallocRoom (t.length * sizeofHandleEntry)
  let use (room : ℕ) : Option (Option (HandleTable Oid)) :=
    if newCap * sizeofHandleEntry ≤ room ∧ t.length < newCap then some (some (growTo t newCap))
    else none
  if newSize = 0 then none
  else if newSize ≤ oldSize then use oldSize
  else if m.grant ∧ kmallocFits newSize then use (kmallocRoom newSize)
  else some none

/-- `handle_alloc`: the first free slot, else the first new slot of the doubled table. -/
def handleAllocIn (m : Mem) (t : HandleTable Oid) (e : HandleEntry Oid) :
    Option (HandleTable Oid × Slot) :=
  match t.findIdx? Option.isNone with
  | some h => some (t.set h (some e), .at h)
  | none =>
    (kreallocTable m t (t.length * 2 % 2 ^ 32)).map fun
      | none => (t, .invalid)
      | some t' => (t'.set t.length (some e), .at t.length)

/-- The capacity `handle_alloc_at` asks for when the hint lies outside the table. -/
def hintCap (hint : ℕ) : ℕ :=
  max ((hint + 16) % 2 ^ 32) (t.length * 2 % 2 ^ 32)

/-- The slot check and the write of `handle_alloc_at`, after the table has been grown. -/
def handleWriteAt (m : Mem) (t : HandleTable Oid) (e : HandleEntry Oid) (hint : ℕ) :
    Option (HandleTable Oid × Slot) :=
  if hint < t.length then
    match t[hint]? with
    | some none => some (t.set hint (some e), .at hint)
    | _ => handleAllocIn m t e
  else if m.strayZero then some (t, .stray hint)
  else handleAllocIn m t e

def handleAllocAtIn (m : Mem) (t : HandleTable Oid) (e : HandleEntry Oid) (hint : ℕ) :
    Option (HandleTable Oid × Slot) :=
  if hint = handleInvalid then handleAllocIn m t e
  else if hint < t.length then handleWriteAt m t e hint
  else
    (kreallocTable m t (hintCap t hint)).bind fun
      | none => some (t, .invalid)
      | some t' => handleWriteAt m t' e hint

/-- A table that fits the direct map and has a slot. -/
structure TableFits (t : HandleTable Oid) : Prop where
  pos : 0 < t.length
  le : t.length * sizeofHandleEntry ≤ kernelDirectMap

/-- The capacity `handle_alloc_at` computes for this hint and the sizes of its block do not wrap. -/
def HintOk (hint : ℕ) : Prop :=
  hint = handleInvalid ∨ hint < t.length ∨
    (hint + 16) * sizeofHandleEntry + sizeofKmallocHeader < 2 ^ 32

instance (t : HandleTable Oid) (hint : ℕ) : Decidable (HintOk t hint) :=
  inferInstanceAs (Decidable (_ ∨ _ ∨ _))

end Alloc

end Xnix
