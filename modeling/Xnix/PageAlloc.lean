import Xnix.Handle
import Xnix.Lib.Bitmap
import Xnix.Lib.Run

/-!
# The physical page allocator

`kernel/mm/page_alloc.c`: a bitmap with one bit for each page of the managed range, set when the
page is allocated, and a counter of the free pages. Addresses and counters are 32-bit words; a sum
that can pass `2 ^ 32` is reduced. `page_lock` is held throughout each operation, so an operation is
one step.
-/

namespace Xnix

def pageAlignUp (addr : ℕ) : ℕ := (addr + pageSize - 1) % 2 ^ 32 / pageSize * pageSize

def pageAlignDown (addr : ℕ) : ℕ := addr / pageSize * pageSize

/-- What `page_alloc_init` computes once: `memory_start`, `memory_end`, `total_pages` and
`low_pages`. -/
structure MemoryRange where
  memoryStart : ℕ
  memoryEnd : ℕ
  totalPages : ℕ
  lowPages : ℕ
  start_aligned : memoryStart % pageSize = 0
  start_pos : 0 < totalPages → 0 < memoryStart
  end_eq : memoryEnd = memoryStart + totalPages * pageSize
  end_lt : memoryEnd < 2 ^ 32
  low_le : lowPages ≤ totalPages

/-- `bitmap_pages`: the pages at the start of memory that hold the bitmap, one bit for each raw
page. -/
def bitmapPages (rawPages : ℕ) : ℕ := ((rawPages + 7) / 8 + pageSize - 1) / pageSize

theorem bitmapPages_le (n : ℕ) : bitmapPages n ≤ n := by
  unfold bitmapPages pageSize
  omega

theorem bitmapPages_pos {n : ℕ} (h : 0 < n) : 0 < bitmapPages n := by
  unfold bitmapPages pageSize
  omega

/-- The range that `page_alloc_init` sets up: the bitmap first, then the pages it manages.
`low_pages` are below the end of the direct map. -/
def pageAllocRange (rawStart rawPages : ℕ) (hs : rawStart % pageSize = 0)
    (he : rawStart + rawPages * pageSize < 2 ^ 32) : MemoryRange where
  memoryStart := rawStart + bitmapPages rawPages * pageSize
  memoryEnd := rawStart + rawPages * pageSize
  totalPages := rawPages - bitmapPages rawPages
  lowPages :=
    if rawStart + bitmapPages rawPages * pageSize < kernelDirectMap ∧
        kernelDirectMap < rawStart + rawPages * pageSize then
      (kernelDirectMap - (rawStart + bitmapPages rawPages * pageSize)) / pageSize
    else rawPages - bitmapPages rawPages
  start_aligned := by rw [Nat.add_mul_mod_self_right, hs]
  start_pos h := by
    have := bitmapPages_pos (n := rawPages) (by omega)
    unfold pageSize
    omega
  end_eq := by
    have := bitmapPages_le rawPages
    unfold pageSize
    omega
  end_lt := he
  low_le := by
    unfold pageSize kernelDirectMap
    split <;> omega

/-- The allocator: `page_bitmap` and `now_free_pages`. -/
structure PageAlloc where
  range : MemoryRange
  pageBitmap : Lib.Bitmap
  nowFreePages : ℕ

namespace PageAlloc

variable (a : PageAlloc)

def addrOf (pfn : ℕ) : ℕ := (a.range.memoryStart + pfn * pageSize) % 2 ^ 32

/-- The bits of `count` pages from `pfn` on are set and the pages counted as no longer free. -/
def takeRun (pfn count : ℕ) : PageAlloc :=
  { a with
    pageBitmap := a.pageBitmap.setRange pfn count
    nowFreePages := (a.nowFreePages + 2 ^ 32 - count) % 2 ^ 32 }

/-- The loop of `alloc_page` and `alloc_page_high`: the first clear bit from `lo` up to `hi`, or the
address 0. -/
def allocBetween (lo hi : ℕ) : PageAlloc × ℕ :=
  match a.pageBitmap.first (hi - lo) lo with
  | some i => (a.takeRun i 1, a.addrOf i)
  | none => (a, 0)

def allocPage : PageAlloc × ℕ := a.allocBetween 0 a.range.lowPages

def allocPageHigh : PageAlloc × ℕ := a.allocBetween a.range.lowPages a.range.totalPages

def allocPages (count : ℕ) : PageAlloc × ℕ :=
  if count = 0 then (a, 0)
  else if count = 1 then a.allocPage
  else match a.pageBitmap.findRun count a.range.lowPages 0 0 0 with
    | some startPfn => (a.takeRun startPfn count, a.addrOf startPfn)
    | none => (a, 0)

def pfnOf (addr : ℕ) : ℕ := (addr - a.range.memoryStart) / pageSize

/-- `free_page`; the pages it refuses are only reported. -/
def freePage (page : ℕ) : PageAlloc :=
  if page = 0 then a
  else if page < a.range.memoryStart ∨ a.range.memoryEnd ≤ page then a
  else if page % pageSize ≠ 0 then a
  else if !a.pageBitmap.test (a.pfnOf page) then a
  else { a with
    pageBitmap := a.pageBitmap.clear (a.pfnOf page)
    nowFreePages := (a.nowFreePages + 1) % 2 ^ 32 }

/-- The addresses that `free_pages` goes through. -/
def pagesFrom (page count : ℕ) : List ℕ :=
  (List.range count).map fun i => (page + i * pageSize) % 2 ^ 32

def freePages (page count : ℕ) : PageAlloc :=
  if page = 0 ∨ count = 0 then a else (pagesFrom page count).foldl freePage a

end PageAlloc

/-- An entry of the memory map, from `start` up to `endAddr`. -/
structure ArchMemRegion where
  start : ℕ
  endAddr : ℕ
  type : ℕ

def archMemUsable : ℕ := 1

/-- The loops of `bitmap_clear_range` over single bits: at most `left` bits from `i` on, as long as
`more` holds. -/
def clearWhile (more : ℕ → Bool) : ℕ → Lib.Bitmap → ℕ → Lib.Bitmap × ℕ
  | 0, b, i => (b, i)
  | left + 1, b, i => if more i then clearWhile more left (b.clear i) (i + 1) else (b, i)

/-- `memset` of the words from `lo` up to `hi` with 0. -/
def zeroWords (b : Lib.Bitmap) (lo hi : ℕ) : Lib.Bitmap :=
    fun w => if lo ≤ w ∧ w < hi then 0#32 else b w

def bitmapClearRange (totalPages : ℕ) (b : Lib.Bitmap) (startPfn endPfn : ℕ) : Lib.Bitmap :=
  if endPfn ≤ startPfn ∨ totalPages < endPfn then b
  else
    let (b, i) := clearWhile (· % 32 != 0) (endPfn - startPfn) b startPfn
    let wordEnd := endPfn / 32
    (clearWhile (fun _ => true) (endPfn - wordEnd * 32) (zeroWords b (i / 32) wordEnd)
      (wordEnd * 32)).1

/-- `start_pfn` and `end_pfn` of a region, for the regions that the loop of `page_alloc_init` does
not skip. -/
def MemoryRange.regionPages (m : MemoryRange) (r : ArchMemRegion) : Option (ℕ × ℕ) :=
  if r.type ≠ archMemUsable then none
  else if r.endAddr ≤ m.memoryStart ∨ m.memoryEnd ≤ r.start then none
  else
    let s := pageAlignUp (if r.start < m.memoryStart then m.memoryStart else r.start)
    let e := pageAlignDown (if m.memoryEnd < r.endAddr then m.memoryEnd else r.endAddr)
    if e ≤ s then none else some ((s - m.memoryStart) / pageSize, (e - m.memoryStart) / pageSize)

def PageAlloc.freeRegion (a : PageAlloc) (r : ArchMemRegion) : PageAlloc :=
  match a.range.regionPages r with
  | none => a
  | some (startPfn, endPfn) => { a with
    pageBitmap := bitmapClearRange a.range.totalPages a.pageBitmap startPfn endPfn
    nowFreePages := (a.nowFreePages + (endPfn - startPfn)) % 2 ^ 32 }

/-- `page_alloc_init` over the contents `b` of the memory where the bitmap is placed. -/
def pageAllocInit (rawStart rawPages : ℕ) (hs : rawStart % pageSize = 0)
    (he : rawStart + rawPages * pageSize < 2 ^ 32) (b : Lib.Bitmap) (regions : List ArchMemRegion) :
    PageAlloc :=
  let range := pageAllocRange rawStart rawPages hs he
  let bitmapBytes := (rawPages + 7) / 8
  let b := Lib.Bitmap.copyBytes (fun _ => BitVec.allOnes 32) b bitmapBytes
  if regions.isEmpty then ⟨range, b.zeroBytes bitmapBytes, range.totalPages⟩
  else regions.foldl PageAlloc.freeRegion ⟨range, b, 0⟩

inductive PageAction
  | allocPage
  | allocPageHigh
  | allocPages (count : ℕ)
  | freePage (page : ℕ)
  | freePages (page count : ℕ)

/-- The allocator with its callers: for each block that was handed out, the addresses of its pages
that were not freed since. -/
structure PageSys where
  alloc : PageAlloc
  held : List (List ℕ)

def PageSys.give (s : PageSys) (count : ℕ) (r : PageAlloc × ℕ) : PageSys :=
  ⟨r.1, if r.2 = 0 then s.held else PageAlloc.pagesFrom r.2 count :: s.held⟩

def PageSys.drop (s : PageSys) (pages : List ℕ) (a : PageAlloc) : PageSys :=
  ⟨a, s.held.map fun block => block.filter (· ∉ pages)⟩

def PageSys.step (s : PageSys) : PageAction → Option PageSys
  | .allocPage => some (s.give 1 s.alloc.allocPage)
  | .allocPageHigh => some (s.give 1 s.alloc.allocPageHigh)
  | .allocPages count => some (s.give count (s.alloc.allocPages count))
  | .freePage page => some (s.drop [page] (s.alloc.freePage page))
  | .freePages page count =>
    some (s.drop (if page = 0 then []
      else PageAlloc.pagesFrom page count) (s.alloc.freePages page count))

end Xnix
