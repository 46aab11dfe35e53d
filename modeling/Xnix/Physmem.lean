import Xnix.Syscall

/-!
# Mapping physical memory

`sys_mmap_phys` and `physmem_map_to_user` (`kernel/sys/sys_mm.c`, `kernel/mm/physmem.c`). Of an
address space only `mmap_next` and the pages it maps are kept; a mapped page says which page of
which region it shows and with which protection. Whether a page table entry can be made is an answer
of memory.
-/

namespace Xnix

def vmmProtRead : BitVec 32 := 1#32 <<< 0
def vmmProtWrite : BitVec 32 := 1#32 <<< 1
def vmmProtUser : BitVec 32 := 1#32 <<< 2
def vmmProtNocache : BitVec 32 := 1#32 <<< 3

def abiFbMapBase : ℕ := 0x40000000

/-- A page of a region as user space sees it. -/
structure UserPage (Oid : Type) where
  object : Oid
  index : ℕ
  prot : BitVec 32
  deriving DecidableEq

/-- The part of an address space that mappings of physical memory use. -/
structure UserSpace (Oid : Type) where
  mmapNext : ℕ
  page : ℕ → Option (UserPage Oid)

section Mapping
variable {Pid Oid : Type}

/-- The size both functions map: all from the offset when none is given or the 32-bit sum passes the
end. -/
def clampSize (region : PhysmemRegion) (offset size : ℕ) : ℕ :=
  if size = 0 ∨ region.size < (offset + size) % 2 ^ 32 then
    (region.size + 2 ^ 32 - offset) % 2 ^ 32
  else size

def numPages (offset size : ℕ) : ℕ :=
  let startPage := offset / pageSize * pageSize
  let endPage := ((offset + size) % 2 ^ 32 + pageSize - 1) % 2 ^ 32 / pageSize * pageSize
  (endPage + 2 ^ 32 - startPage) % 2 ^ 32 / pageSize

def pageProt (type : PhysmemType) (prot : BitVec 32) : BitVec 32 :=
  vmmProtUser ||| (if type = .shm then 0#32 else vmmProtNocache) |||
    (if prot &&& 0x01#32 != 0#32 then vmmProtRead else 0#32) |||
    (if prot &&& 0x02#32 != 0#32 then vmmProtWrite else 0#32)

def mapAddr (base i : ℕ) : ℕ := (base + i * pageSize) % 2 ^ 32

/-- The loop of `mm->map` from page `i` on; a failure unmaps the pages before it. -/
def mapLoop (mapOk : ℕ → Bool) (base : ℕ) (f : ℕ → UserPage Oid) :
    ℕ → ℕ → (ℕ → Option (UserPage Oid)) → (ℕ → Option (UserPage Oid)) × Bool
  | 0, _, m => (m, true)
  | left + 1, i, m =>
    if mapOk i then mapLoop mapOk base f left (i + 1)
      (Function.update m (mapAddr base i) (some (f i)))
    else (fun v => if (List.range i).any fun j => mapAddr base j == v then none else m v, false)

section
variable (a : UserSpace Oid)

def mapBase (region : PhysmemRegion) : ℕ :=
  if region.type = .shm then a.mmapNext else abiFbMapBase

/-- The pages of `size` bytes of a region from `offset` on are mapped. -/
def mapRegion (mapOk : ℕ → Bool) (o : Oid) (region : PhysmemRegion)
    (offset size : ℕ) (prot : BitVec 32) : (ℕ → Option (UserPage Oid)) × Bool :=
  mapLoop mapOk (mapBase a region)
    (fun i => ⟨o, offset / pageSize + i, pageProt region.type prot⟩) (numPages offset size) 0 a.page

/-- `mmap_next` after a mapping: only shared memory moves it. -/
def mapNext (region : PhysmemRegion) (n : ℕ) : ℕ :=
  if region.type = .shm then (a.mmapNext + n * pageSize) % 2 ^ 32 else a.mmapNext

/-- `physmem_map_to_user`: the new address space and the address, 0 for a failure. -/
def physmemMapToUser (mapOk : ℕ → Bool) (o : Oid) (region : PhysmemRegion)
    (offset size : ℕ) (prot : BitVec 32) : UserSpace Oid × ℕ :=
  if region.size ≤ offset then (a, 0)
  else match mapRegion a mapOk o region offset (clampSize region offset size) prot with
  | (pages, true) =>
    (⟨mapNext a region (numPages offset (clampSize region offset size)), pages⟩,
      (mapBase a region + offset % pageSize) % 2 ^ 32)
  | (pages, false) => (⟨a.mmapNext, pages⟩, 0)

end

def Kernel.region (k : Kernel Pid Oid) (o : Oid) : Option PhysmemRegion :=
  match (k.obj o).map Object.kind with
  | some (.physmem region) => some region
  | _ => none

variable [DecidableEq Oid]

/-- `sys_mmap_phys`. `outSize` is the answer of `copy_to_user` when an output pointer is given. -/
def sysMmapPhys (k : Kernel Pid Oid) (p : Pid) (a : UserSpace Oid) (mapOk : ℕ → Bool)
    (h offset size : ℕ) (prot : BitVec 32) (outSize : Option ℤ) :
    Option (Kernel Pid Oid × UserSpace Oid × ℤ) :=
  match k.proc p with
  | none => some (k, a, -eInval)
  | some pr =>
    if !capCheck pr capMmMmap then some (k, a, -ePerm)
    else (handleAcquire k p h (some .physmem)).bind fun
      | (k, none) => some (k, a, -eInval)
      | (k, some e) =>
        (k.region e.object).bind fun region =>
          let actualSize := clampSize region offset size
          let r := physmemMapToUser a mapOk e.object region offset actualSize prot
          (handleObjectPut k e.type e.object).map fun k =>
            (k, r.1, if r.2 = 0 then -eNoMem
              else if outSize.any (· < 0) then outSize.getD 0 else toInt32 r.2)

end Mapping

end Xnix
