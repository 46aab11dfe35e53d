import Xnix.Lib.Extents
import Xnix.Lib.Flat
import Xnix.Lib.Run

/-!
# The heap of a user program

`user/libs/libc/src/stdlib/malloc.c`: a first-fit allocator over `sbrk`. A block is a header of
three words and its data; the free blocks are in a list sorted by address. The headers stand in the
same memory as the data, so every access to one is a load or a store there. What `sbrk` answers is
an argument. A walk along the free list gives up after `2 ^ 32` blocks, which only a list that runs
in a circle has.
-/

namespace Xnix

/-- The memory of the program and `free_list`. `obtained` is not in the source: the memory that
`sbrk` gave. -/
structure Heap where
  mem : Lib.Flat
  freeList : ℕ
  obtained : List Lib.Extent

namespace Heap

/-- `HEADER_SIZE`: the 12 bytes of a header, rounded up. -/
def headerSize : ℕ := 16

def minAlloc : ℕ := 16

def minSbrkSize : ℕ := 4096

def magicAlloc : ℕ := 0xA110CA7E

def magicFree : ℕ := 0xF2EEB10C

def alignUp (x : ℕ) : ℕ := (x + 7) % 2 ^ 32 / 8 * 8

variable (h : Heap)

def size (block : ℕ) : ℕ := h.mem.load block

def next (block : ℕ) : ℕ := h.mem.load (block + 4)

def magic (block : ℕ) : ℕ := h.mem.load (block + 8)

def setSize (block v : ℕ) : Heap := { h with mem := h.mem.store block v }

def setNext (block v : ℕ) : Heap := { h with mem := h.mem.store (block + 4) v }

def setMagic (block v : ℕ) : Heap := { h with mem := h.mem.store (block + 8) v }

/-- The number of blocks after which a walk gives up. -/
def walkLimit : ℕ := 2 ^ 32

/-- The bytes that `request_memory` asks `sbrk` for. -/
def sbrkTotal (size : ℕ) : ℕ :=
  let total := (headerSize + size) % 2 ^ 32
  if total < minSbrkSize then minSbrkSize else total

/-- `request_memory`: a new block, or 0. -/
def requestMemory (size : ℕ) (sbrk : Option ℕ) : Heap × ℕ :=
  match sbrk with
  | none => (h, 0)
  | some ptr =>
    let h := { h with obtained := ⟨ptr, sbrkTotal size⟩ :: h.obtained }
    let h := h.setSize ptr (sbrkTotal size - headerSize)
    let h := h.setNext ptr 0
    (h.setMagic ptr magicFree, ptr)

/-- The loop of `add_to_free_list`: the last block of the list from `prev` on that lies before
`block`. -/
def findPrev (h : Heap) (block : ℕ) : ℕ → ℕ → Option ℕ
  | 0, _ => none
  | left + 1, prev =>
    if h.next prev ≠ 0 ∧ h.next prev < block then h.findPrev block left (h.next prev) else some prev

def addToFreeList (block : ℕ) : Option Heap :=
  let h := h.setMagic block magicFree
  if h.freeList = 0 ∨ block < h.freeList then
    some { h.setNext block h.freeList with freeList := block }
  else
    (h.findPrev block walkLimit h.freeList).map fun prev =>
      (h.setNext block (h.next prev)).setNext prev block

/-- The loop of `coalesce`. -/
def coalesceFrom : ℕ → Heap → ℕ → Option Heap
  | 0, _, _ => none
  | left + 1, h, curr =>
    if curr ≠ 0 ∧ h.next curr ≠ 0 then
      if (curr + headerSize + h.size curr) % 2 ^ 32 = h.next curr then
        let h := h.setSize curr (h.size curr + (headerSize + h.size (h.next curr)))
        let h := h.setNext curr (h.next (h.next curr))
        coalesceFrom left h curr
      else coalesceFrom left h (h.next curr)
    else some h

def coalesce : Option Heap := coalesceFrom walkLimit h h.freeList

/-- The size that `malloc` looks for. -/
def roundSize (size : ℕ) : ℕ := if alignUp size < minAlloc then minAlloc else alignUp size

/-- The first-fit loop of `malloc`: the block that fits, or 0, and the block before it. -/
def searchFrom (h : Heap) (size : ℕ) : ℕ → ℕ → ℕ → Option (ℕ × ℕ)
  | 0, _, _ => none
  | left + 1, prev, block =>
    if block = 0 then some (prev, 0)
    else if size ≤ h.size block then some (prev, block)
    else h.searchFrom size left block (h.next block)

def search (size : ℕ) : Option (ℕ × ℕ) := h.searchFrom size walkLimit 0 h.freeList

/-- `block->size >= size + HEADER_SIZE + MIN_ALLOC`: the block is split. -/
def Splits (block size : ℕ) : Prop := (size + headerSize + minAlloc) % 2 ^ 32 ≤ h.size block

instance (h : Heap) (block size : ℕ) : Decidable (h.Splits block size) :=
    inferInstanceAs (Decidable (_ ≤ _))

/-- `new_block`: the address of what is split off a block. -/
def newBlock (block size : ℕ) : ℕ := (block + headerSize + size) % 2 ^ 32

/-- Split a block: the header of what is left, with the link `next`, and the new size of the
block. -/
def split (block size next : ℕ) : Heap :=
  let new := newBlock block size
  let h' := h.setSize new ((h.size block + (2 ^ 32 - size) + (2 ^ 32 - headerSize)) % 2 ^ 32)
  let h' := h'.setNext new next
  let h' := h'.setMagic new magicFree
  h'.setSize block size

/-- The part of `malloc` that takes a block of the free list. -/
def takeBlock (size prev block : ℕ) : Heap :=
  let h := if h.Splits block size then (h.split block size (h.next block)).setNext block
    (newBlock block size) else h
  let h := if prev ≠ 0 then h.setNext prev (h.next block) else { h with freeList := h.next block }
  (h.setNext block 0).setMagic block magicAlloc

def takeNew (size block : ℕ) : Option Heap :=
  let h' :=
    if h.Splits block size then (h.split block size 0).addToFreeList (newBlock block size)
      else some h
  h'.map fun h => h.setMagic block magicAlloc

/-- `malloc`, with the pointer it returns. -/
def malloc (n : ℕ) (sbrk : Option ℕ) : Option (Heap × ℕ) :=
  if n = 0 then some (h, 0)
  else do
    let (prev, block) ← h.search (roundSize n)
    if block ≠ 0 then
      some (h.takeBlock (roundSize n) prev block, (block + headerSize) % 2 ^ 32)
    else
      let (h, block) := h.requestMemory (roundSize n) sbrk
      if block = 0 then some (h, 0)
      else do
        let h ← h.takeNew (roundSize n) block
        some (h, (block + headerSize) % 2 ^ 32)

def blockOf (ptr : ℕ) : ℕ := (ptr + (2 ^ 32 - headerSize)) % 2 ^ 32

def free (ptr : ℕ) : Option Heap :=
  if ptr = 0 then some h
  else if h.magic (blockOf ptr) = magicFree then some h
  else if h.magic (blockOf ptr) ≠ magicAlloc then some h
  else do
    let h ← h.addToFreeList (blockOf ptr)
    h.coalesce

def calloc (nmemb size : ℕ) (sbrk : Option ℕ) : Option (Heap × ℕ) :=
  if nmemb ≠ 0 ∧ (2 ^ 32 - 1) / nmemb < size then some (h, 0)
  else do
    let total := nmemb * size % 2 ^ 32
    let (h, ptr) ← h.malloc total sbrk
    some (if ptr ≠ 0 then { h with mem := h.mem.fill ptr total 0#8 } else h, ptr)

def realloc (ptr n : ℕ) (sbrk : Option ℕ) : Option (Heap × ℕ) :=
  if ptr = 0 then h.malloc n sbrk
  else if n = 0 then (h.free ptr).map (·, 0)
  else if h.magic (blockOf ptr) ≠ magicAlloc then some (h, 0)
  else if alignUp n ≤ h.size (blockOf ptr) then some (h, ptr)
  else do
    let (h, new) ← h.malloc (alignUp n) sbrk
    if new = 0 then some (h, 0)
    else do
      let h ← { h with mem := h.mem.copy new ptr (h.size (blockOf ptr)) }.free ptr
      some (h, new)

end Heap

/-- A program and its heap: the pointers it holds with the sizes it asked for, and the freed
pointers whose header is no part of another block. -/
structure HeapSys where
  heap : Heap
  live : List (ℕ × ℕ)
  freed : List ℕ

namespace HeapSys
open Heap

def give (s : HeapSys) (heap : Heap) (ptr n : ℕ) : HeapSys where
  heap := heap
  live := (ptr, n) :: s.live
  freed := s.freed.filter fun q => ¬ (ptr ≤ q ∧ q < ptr + headerSize + heap.size (blockOf ptr))

def drop (s : HeapSys) (ptr : ℕ) : HeapSys :=
  if ptr ∈ s.live.map Prod.fst then
    { s with live := s.live.filter (·.1 ≠ ptr), freed := ptr :: s.freed }
  else s

def malloc (s : HeapSys) (n : ℕ) (sbrk : Option ℕ) : Option (HeapSys × ℕ) := do
  let (h, ptr) ← s.heap.malloc n sbrk
  some (if ptr = 0 then { s with heap := h } else s.give h ptr n, ptr)

def calloc (s : HeapSys) (nmemb size : ℕ) (sbrk : Option ℕ) : Option (HeapSys × ℕ) := do
  let (h, ptr) ← s.heap.calloc nmemb size sbrk
  some (if ptr = 0 then { s with heap := h } else s.give h ptr (nmemb * size), ptr)

def free (s : HeapSys) (ptr : ℕ) : Option HeapSys := do
  let h ← s.heap.free ptr
  some { s.drop ptr with heap := h }

/-- A `realloc` that returns the same pointer changes its size; another pointer is a new block in
place of the old one. -/
def realloc (s : HeapSys) (ptr n : ℕ) (sbrk : Option ℕ) : Option (HeapSys × ℕ) := do
  let (h, new) ← s.heap.realloc ptr n sbrk
  some (if new = 0 then (if n = 0 then { s.drop ptr with heap := h } else { s with heap := h })
    else if new = ptr then { s with heap := h, live := (ptr, n) :: s.live.filter (·.1 ≠ ptr) }
    else (s.give h new n).drop ptr, new)

inductive Action
  | malloc (n : ℕ) (sbrk : Option ℕ)
  | calloc (nmemb size : ℕ) (sbrk : Option ℕ)
  | realloc (ptr n : ℕ) (sbrk : Option ℕ)
  | free (ptr : ℕ)
  /-- The program stores a byte. -/
  | store (addr : ℕ) (byte : BitVec 8)

def step (s : HeapSys) : Action → Option HeapSys
  | .malloc n sbrk => (s.malloc n sbrk).map Prod.fst
  | .calloc nmemb size sbrk => (s.calloc nmemb size sbrk).map Prod.fst
  | .realloc ptr n sbrk => (s.realloc ptr n sbrk).map Prod.fst
  | .free ptr => s.free ptr
  | .store addr byte =>
    some { s with heap := { s.heap with mem := Function.update s.heap.mem addr byte } }

/-- The program before its first allocation. -/
def init (mem : Lib.Flat) : HeapSys := ⟨⟨mem, 0, []⟩, [], []⟩

end HeapSys

end Xnix
