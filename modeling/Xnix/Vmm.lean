import Xnix.PageAlloc
import Xnix.Physmem

/-!
# Page tables

`arch/x86/core/vmm.c`. The current directory is reached through its last entry, which points to the
directory itself; any other page is first mapped into one of the two windows of the CPU, whose page
table every directory shares. So the kernel's loads and stores go through the same translation as
everything else (`translate`), and `none` is a page fault in the kernel. Memory is not assumed to be
well formed in any way.
-/

namespace Xnix

def pageMask : BitVec 32 := 0xFFFFF000#32

def ptePresent : BitVec 32 := 0x01#32
def pteRw : BitVec 32 := 0x02#32
def pteUser : BitVec 32 := 0x04#32
def ptePwt : BitVec 32 := 0x08#32
def ptePcd : BitVec 32 := 0x10#32

/-- A test of a bit of an entry or of flags, `word & bit`. -/
def hasBit (word bit : BitVec 32) : Bool := word &&& bit != 0#32

/-- The page that an entry points to, `entry & PAGE_MASK`. -/
def pageOf (entry : BitVec 32) : ℕ := (entry &&& pageMask).toNat

def vmmFlagsToX86 (flags : BitVec 32) : BitVec 32 :=
  ptePresent ||| (if hasBit flags vmmProtWrite then pteRw else 0#32) |||
    (if hasBit flags vmmProtUser then pteUser else 0#32) |||
    (if hasBit flags vmmProtNocache then ptePcd ||| ptePwt else 0#32)

def pdIndex (vaddr : ℕ) : ℕ := vaddr / 2 ^ 22
def ptIndex (vaddr : ℕ) : ℕ := vaddr / 2 ^ 12 % 1024

/-- `CFG_MAX_CPUS` of a build with SMP. -/
def cfgMaxCpus : ℕ := 8

abbrev Cpu := Fin cfgMaxCpus

/-- The entry of every directory that holds the window table of a CPU, `BASE_PD_IDX - cpu`. -/
def windowPdIdx (cpu : Cpu) : ℕ := 1018 - cpu

def tempVaddrBase (cpu : Cpu) : ℕ := windowPdIdx cpu * 2 ^ 22
def tempPtVaddr (cpu : Cpu) : ℕ := 0xFFC00000 + windowPdIdx cpu * 2 ^ 12

/-- `window_id`: the first shows a page directory, the second a page table or any other page. -/
inductive Window
  | one | two
  deriving DecidableEq

/-- `pt_idx`: the entry of the window table. -/
def Window.slot : Window → ℕ
  | .one => 1023
  | .two => 1022

def Window.vaddr (cpu : Cpu) (w : Window) : ℕ := tempVaddrBase cpu + w.slot * 2 ^ 12

/-- The current directory, and its page table `pdIdx`, in the current address space. -/
def recursivePd : ℕ := 0xFFFFF000
def recursivePt (pdIdx : ℕ) : ℕ := 0xFFC00000 + pdIdx * 2 ^ 12

/-- Physical memory with its allocator, the directory each CPU has loaded and the kernel's
directory. -/
structure Vmm where
  pages : PageAlloc
  mem : Lib.Memory
  cr3 : Cpu → ℕ
  kernelPd : ℕ

namespace Vmm

variable (s : Vmm) (cpu : Cpu)

/-- The physical page that a kernel access to a virtual page reaches. -/
def translate (vaddr : ℕ) : Option ℕ :=
  let pde := s.mem (s.cr3 cpu) (pdIndex vaddr)
  if hasBit pde ptePresent then
    let pte := s.mem (pageOf pde) (ptIndex vaddr)
    if hasBit pte ptePresent then some (pageOf pte) else none
  else none

def setEntry (page i : ℕ) (w : BitVec 32) : Vmm := { s with mem := s.mem.write page i w }

/-- `ptr[i]`, for a pointer to the start of a page. -/
def load (ptr i : ℕ) : Option (BitVec 32) :=
  (s.translate cpu ptr).map fun page => s.mem page i

def store (ptr i : ℕ) (w : BitVec 32) : Option Vmm :=
  (s.translate cpu ptr).map fun page => s.setEntry page i w

def clearPage (ptr : ℕ) : Option Vmm :=
  (s.translate cpu ptr).map fun page => { s with mem := s.mem.setPage page fun _ => 0#32 }

/-- The bytes that `memcpy` reads from a page, from an offset on. -/
def loadBytes (ptr offset len : ℕ) : Option (List (BitVec 8)) :=
  (s.translate cpu ptr).map fun page => s.mem.readBytes (page + offset) len

/-- `memcpy` into a page, from an offset on. -/
def storeBytes (ptr offset : ℕ) (bytes : List (BitVec 8)) : Option Vmm :=
  (s.translate cpu ptr).map fun page => { s with mem := s.mem.writeBytes (page + offset) bytes }

/-- The entry that `map_temp_page` writes. -/
def windowEntry (paddr : ℕ) : BitVec 32 :=
    (BitVec.ofNat 32 paddr &&& pageMask) ||| ptePresent ||| pteRw

/-- `map_temp_page`: the state with the window in use, and its address. -/
def mapTempPage (w : Window) (paddr : ℕ) : Option (Vmm × ℕ) :=
  (s.store cpu (tempPtVaddr cpu) w.slot (windowEntry paddr)).map fun s => (s, w.vaddr cpu)

def unmapTempPage (w : Window) : Option Vmm :=
  s.store cpu (tempPtVaddr cpu) w.slot 0#32

def vmmKmap (paddr : ℕ) : Option (Vmm × ℕ) := s.mapTempPage cpu .two paddr
def vmmKunmap : Option Vmm := s.unmapTempPage cpu .two

/-- A page is cleared through the second window. -/
def kmapClear (page : ℕ) : Option Vmm := do
  let (s, k) ← s.vmmKmap cpu page
  let s ← s.clearPage cpu k
  s.vmmKunmap cpu

/-- Bytes of a page are read through the second window. -/
def kmapRead (page offset len : ℕ) : Option (Vmm × List (BitVec 8)) := do
  let (s, k) ← s.vmmKmap cpu page
  let bytes ← s.loadBytes cpu k offset len
  let s ← s.vmmKunmap cpu
  some (s, bytes)

/-- Bytes are written to a page through the second window. -/
def kmapWrite (page offset : ℕ) (bytes : List (BitVec 8)) : Option Vmm := do
  let (s, k) ← s.vmmKmap cpu page
  let s ← s.storeBytes cpu k offset bytes
  s.vmmKunmap cpu

def isCurrent (pdPhys : ℕ) : Bool := pdPhys == s.cr3 cpu || pdPhys == 0

def openPd (pdPhys : ℕ) : Option (Vmm × ℕ) :=
  if s.isCurrent cpu pdPhys then some (s, recursivePd) else s.mapTempPage cpu .one pdPhys

/-- `pt_virt` of the table that a directory entry points to. -/
def openPt (pdPhys pdIdx : ℕ) (pde : BitVec 32) : Option (Vmm × ℕ) :=
  if s.isCurrent cpu pdPhys then some (s, recursivePt pdIdx)
    else s.mapTempPage cpu .two (pageOf pde)

/-- The end of the use of a window, which the current directory did not take. -/
def closeWindow (pdPhys : ℕ) (w : Window) : Option Vmm :=
  if s.isCurrent cpu pdPhys then some s else s.unmapTempPage cpu w

def pdeFlags (flags : BitVec 32) : BitVec 32 :=
  ptePresent ||| pteRw ||| if hasBit flags vmmProtUser then pteUser else 0#32

/-- `need`: the rights an entry must have. -/
def pdeNeed (flags : BitVec 32) : BitVec 32 :=
  ptePresent ||| (if hasBit flags vmmProtUser then pteUser else 0#32) |||
    if hasBit flags vmmProtWrite then pteRw else 0#32

/-- The page table entry of a mapping. -/
def pteOf (paddr flags : BitVec 32) : BitVec 32 := (paddr &&& pageMask) ||| vmmFlagsToX86 flags

/-- The end of `vmm_map_page` and `vmm_unmap_page`: the table is opened, the entry written and the
windows are closed. -/
def writePte (pdPhys pdVirt vaddr : ℕ) (pte : BitVec 32) : Option Vmm := do
  let pde ← s.load cpu pdVirt (pdIndex vaddr)
  let (s, ptVirt) ← s.openPt cpu pdPhys (pdIndex vaddr) pde
  let s ← s.store cpu ptVirt (ptIndex vaddr) pte
  let s ← s.closeWindow cpu pdPhys .two
  s.closeWindow cpu pdPhys .one

/-- A new table, cleared through the second window, and the directory entry for it. -/
def enterTable (pdVirt pdIdx pt : ℕ) (flags : BitVec 32) : Option Vmm := do
  let (s, ptr) ← s.mapTempPage cpu .two pt
  let s ← s.clearPage cpu ptr
  let s ← s.unmapTempPage cpu .two
  s.store cpu pdVirt pdIdx (BitVec.ofNat 32 pt ||| pdeFlags flags)

/-- An entry that has not all the rights a mapping needs is given them. -/
def widenEntry (pdVirt pdIdx : ℕ) (pde flags : BitVec 32) : Option Vmm :=
  if pde &&& pdeNeed flags ≠ pdeNeed flags then s.store cpu pdVirt pdIdx (pde ||| pdeNeed flags)
    else some s

def vmmMapPage (pdPhys vaddr : ℕ) (paddr flags : BitVec 32) : Option (Vmm × ℤ) :=
  if vaddr < pageSize ∧ hasBit flags vmmProtUser then some (s, -1)
  else do
    let (s, pdVirt) ← s.openPd cpu pdPhys
    let pde ← s.load cpu pdVirt (pdIndex vaddr)
    if hasBit pde ptePresent then
      let s ← s.widenEntry cpu pdVirt (pdIndex vaddr) pde flags
      let s ← s.writePte cpu pdPhys pdVirt vaddr (pteOf paddr flags)
      some (s, 0)
    else if s.pages.allocPage.2 = 0 then
      let s ← s.closeWindow cpu pdPhys .one
      some (s, -eNoMem)
    else
      let s ← enterTable { s with pages := s.pages.allocPage.1 } cpu pdVirt (pdIndex vaddr)
        s.pages.allocPage.2 flags
      let s ← s.writePte cpu pdPhys pdVirt vaddr (pteOf paddr flags)
      some (s, 0)

def vmmUnmapPage (pdPhys vaddr : ℕ) : Option Vmm := do
  let (s, pdVirt) ← s.openPd cpu pdPhys
  let pde ← s.load cpu pdVirt (pdIndex vaddr)
  if hasBit pde ptePresent then s.writePte cpu pdPhys pdVirt vaddr 0#32
  else s.closeWindow cpu pdPhys .one

/-- The entries that `vmm_get_paddr` and `vmm_query_flags` read: that of the directory, and that of
the table if there is one. -/
def readEntries (pdPhys vaddr : ℕ) : Option (Vmm × BitVec 32 × Option (BitVec 32)) := do
  let (s, pdVirt) ← s.openPd cpu pdPhys
  let pde ← s.load cpu pdVirt (pdIndex vaddr)
  if hasBit pde ptePresent then
    let (s, ptVirt) ← s.openPt cpu pdPhys (pdIndex vaddr) pde
    let pte ← s.load cpu ptVirt (ptIndex vaddr)
    let s ← s.closeWindow cpu pdPhys .two
    let s ← s.closeWindow cpu pdPhys .one
    some (s, pde, some pte)
  else
    let s ← s.closeWindow cpu pdPhys .one
    some (s, pde, none)

/-- The physical address that an entry gives; the page and the offset have no bit in common. -/
def paddrOf (pte : BitVec 32) (vaddr : ℕ) : ℕ := pageOf pte + vaddr % pageSize

/-- What `vmm_get_paddr` makes of the entries. -/
def entriesPaddr (pte : Option (BitVec 32)) (vaddr : ℕ) : ℕ :=
  match pte with
  | some pte => if hasBit pte ptePresent then paddrOf pte vaddr else 0
  | none => 0

def vmmGetPaddr (pdPhys vaddr : ℕ) : Option (Vmm × ℕ) := do
  let (s, _, pte) ← s.readEntries cpu pdPhys vaddr
  some (s, entriesPaddr pte vaddr)

def mmQueryPresent : BitVec 32 := 1#32 <<< 0
def mmQueryUser : BitVec 32 := 1#32 <<< 1
def mmQueryWrite : BitVec 32 := 1#32 <<< 2

/-- What `vmm_query_flags` makes of the entries: the return value, `*out_paddr` and `*out_flags`. -/
def entriesFlags (pde : BitVec 32) (pte : Option (BitVec 32)) (vaddr : ℕ) : ℤ × ℕ × BitVec 32 :=
  match pte with
  | some pte =>
    if hasBit pte ptePresent then
      (0, paddrOf pte vaddr, mmQueryPresent |||
        (if hasBit pde pteUser && hasBit pte pteUser then mmQueryUser else 0#32) |||
        if hasBit pde pteRw && hasBit pte pteRw then mmQueryWrite else 0#32)
    else (-1, 0, 0#32)
  | none => (-1, 0, 0#32)

/-- `vmm_query_flags`, with somewhere to put the address and the flags. -/
def vmmQueryFlags (pdPhys vaddr : ℕ) : Option (Vmm × ℤ × ℕ × BitVec 32) := do
  let (s, pde, pte) ← s.readEntries cpu pdPhys vaddr
  some (s, entriesFlags pde pte vaddr)

/-- A directory entry of the kernel is copied if it is present. -/
def copyEntry (pdVirt kpdVirt i : ℕ) : Option Vmm := do
  let pde ← s.load cpu kpdVirt i
  if hasBit pde ptePresent then s.store cpu pdVirt i pde else some s

/-- The entries that `vmm_create_pd` copies, in its order: the low 4 MB, the kernel half, and the
windows once more. -/
def kernelEntries : List ℕ :=
  0 :: (List.range 255).map (768 + ·) ++ (List.finRange cfgMaxCpus).map windowPdIdx

def openKernelPd : Option (Vmm × ℕ) :=
  if s.kernelPd = s.cr3 cpu then some (s, recursivePd) else s.mapTempPage cpu .two s.kernelPd

def closeKernelPd : Option Vmm :=
  if s.kernelPd = s.cr3 cpu then some s else s.unmapTempPage cpu .two

/-- The new directory is filled in through the first window: cleared, the kernel's entries copied,
and the recursive entry set. -/
def initPd (pdPhys : ℕ) : Option Vmm := do
  let (s, pdVirt) ← s.mapTempPage cpu .one pdPhys
  let s ← s.clearPage cpu pdVirt
  let (s, kpdVirt) ← s.openKernelPd cpu
  let s ← kernelEntries.foldlM (fun s i => s.copyEntry cpu pdVirt kpdVirt i) s
  let s ← s.closeKernelPd cpu
  let s ← s.store cpu pdVirt 1023 (BitVec.ofNat 32 pdPhys ||| ptePresent ||| pteRw)
  s.unmapTempPage cpu .one

/-- `vmm_create_pd`: the address is 0 when there is no page. -/
def vmmCreatePd : Option (Vmm × ℕ) :=
  if s.pages.allocPage.2 = 0 then some (s, 0)
  else (initPd { s with pages := s.pages.allocPage.1 } cpu s.pages.allocPage.2).map fun s' =>
    (s', s.pages.allocPage.2)

/-- `vmm_destroy_pd` takes an entry for that of a user table. -/
def isUserTable (pde : BitVec 32) : Bool := hasBit pde ptePresent && hasBit pde pteUser

/-- A step of the loop of `vmm_destroy_pd`: the table of an entry is freed if it is a user table. -/
def freeTable (pdVirt i : ℕ) : Option Vmm := do
  let pde ← s.load cpu pdVirt i
  if isUserTable pde then some { s with pages := s.pages.freePage (pageOf pde) } else some s

def vmmDestroyPd (pdPhys : ℕ) : Option Vmm :=
  if pdPhys = s.kernelPd then some s
  else do
    let (s, pdVirt) ← s.mapTempPage cpu .one pdPhys
    let s ← (List.range 1022).foldlM (fun s i => s.freeTable cpu pdVirt i) s
    let s ← s.unmapTempPage cpu .one
    some { s with pages := s.pages.freePage pdPhys }

def vmmSwitchPd (pdPhys : ℕ) : Vmm :=
  if pdPhys = 0 then s else { s with cr3 := Function.update s.cr3 cpu pdPhys }

end Vmm

end Xnix
