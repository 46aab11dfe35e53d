import Xnix.UserCopy

/-!
# Loading an ELF image

`process_load_elf` of `kernel/exec/elf.c`. The image is in physical memory at `elfData` and its
headers are read through the window. Each page of a segment is allocated, mapped and cleared when it
is not in the directory, then the bytes of the file are copied page by page; after the segments come
the heap and the stack. An early return is an `.error`.
-/

namespace Xnix

/-- `USER_STACK_TOP`, `USER_STACK_SIZE` and `ABI_SHM_MAP_BASE`. -/
def userStackTop : ℕ := kernelVirtBase - pageSize
def userStackSize : ℕ := 64 * 1024
def abiShmMapBase : ℕ := 0x50000000

/-- The byte, the half word and the word at an offset of a structure, least byte first. -/
def byteAt (bytes : List (BitVec 8)) (i : ℕ) : ℕ := (bytes.getD i 0#8).toNat
def halfAt (bytes : List (BitVec 8)) (i : ℕ) : ℕ := byteAt bytes i + 2 ^ 8 * byteAt bytes (i + 1)
def wordAt (bytes : List (BitVec 8)) (i : ℕ) : ℕ := halfAt bytes i + 2 ^ 16 * halfAt bytes (i + 2)

/-- The fields of `Elf32_Ehdr` that are used. -/
structure ElfHeader where
  eIdent : List ℕ
  eType : ℕ
  eMachine : ℕ
  eVersion : ℕ
  eEntry : ℕ
  ePhoff : ℕ
  ePhentsize : ℕ
  ePhnum : ℕ
  deriving DecidableEq

def ehdrSize : ℕ := 52

def ElfHeader.ofBytes (bytes : List (BitVec 8)) : ElfHeader where
  eIdent := (List.range 16).map (byteAt bytes)
  eType := halfAt bytes 16
  eMachine := halfAt bytes 18
  eVersion := wordAt bytes 20
  eEntry := wordAt bytes 24
  ePhoff := wordAt bytes 28
  ePhentsize := halfAt bytes 42
  ePhnum := halfAt bytes 44

/-- The fields of `Elf32_Phdr` that are used. -/
structure ProgramHeader where
  pType : ℕ
  pOffset : ℕ
  pVaddr : ℕ
  pFilesz : ℕ
  pMemsz : ℕ
  pFlags : ℕ
  deriving DecidableEq

def phdrSize : ℕ := 32

def ProgramHeader.ofBytes (bytes : List (BitVec 8)) : ProgramHeader where
  pType := wordAt bytes 0
  pOffset := wordAt bytes 4
  pVaddr := wordAt bytes 8
  pFilesz := wordAt bytes 16
  pMemsz := wordAt bytes 20
  pFlags := wordAt bytes 24

def ptLoad : ℕ := 1
def pfW : BitVec 32 := 2#32

/-- `elf_verify_header`: `ELFMAG0` to `ELFMAG3`, `ELFCLASS32`, `ELFDATA2LSB`, `ET_EXEC`, `EM_386`
and `EV_CURRENT`. -/
def elfVerifyHeader (hdr : ElfHeader) : ℤ :=
  if hdr.eIdent.take 4 ≠ [0x7F, 0x45, 0x4C, 0x46] then -eInval
  else if hdr.eIdent.getD 4 0 ≠ 1 then -eInval
  else if hdr.eIdent.getD 5 0 ≠ 1 then -eInval
  else if hdr.eType ≠ 2 then -eInval
  else if hdr.eMachine ≠ 3 then -eInval
  else if hdr.eVersion ≠ 1 then -eInval
  else 0

/-- What a load sets in the process, and the entry point. -/
structure Loaded where
  entry : ℕ
  heapStart : ℕ
  heapCurrent : ℕ
  heapMax : ℕ
  mmapNext : ℕ
  stackPages : ℕ

namespace Vmm

/-- The loop's body of `elf_memcpy_from_phys`; the bytes are those stored so far. -/
def readPiece (cpu : Cpu) (srcPhys copied chunk : ℕ) (r : Vmm × List (BitVec 8)) :
    Option (Except (Vmm × ℤ) (Vmm × List (BitVec 8))) :=
  let cur := srcPhys + copied
  if 0xFFFFFFFF < cur then some (.error (r.1, -eFault))
  else (r.1.kmapRead cpu (pageAlignDown cur) (cur % pageSize) chunk).map fun (s, bytes) =>
    .ok (s, r.2 ++ bytes)

def elfMemcpyFromPhys (s : Vmm) (cpu : Cpu) (srcPhys len : ℕ) :
    Option (Except (Vmm × ℤ) (Vmm × List (BitVec 8))) :=
  Lib.chunks (fun copied => pageRoom (srcPhys + copied)) (readPiece cpu srcPhys) len (s, [])

/-- The loop's body of `elf_memcpy_phys_to_phys`. -/
def movePiece (cpu : Cpu) (dstPhys srcPhys copied chunk : ℕ) (s : Vmm) :
    Option (Except (Vmm × ℤ) Vmm) :=
  let curSrc := srcPhys + copied
  let curDst := dstPhys + copied
  if 0xFFFFFFFF < curSrc ∨ 0xFFFFFFFF < curDst then some (.error (s, -eFault))
  else do
    let (s, buf) ← s.kmapRead cpu (pageAlignDown curSrc) (curSrc % pageSize) chunk
    let s ← s.kmapWrite cpu (pageAlignDown curDst) (curDst % pageSize) buf
    some (.ok s)

/-- A piece fits in the rest of both pages and in the buffer of 256 bytes. -/
def moveLimit (dstPhys srcPhys copied : ℕ) : ℕ :=
  min (min (pageRoom (srcPhys + copied)) (pageRoom (dstPhys + copied))) 256

def elfMemcpyPhysToPhys (cpu : Cpu) (dstPhys srcPhys len : ℕ) (s : Vmm) :
    Option (Except (Vmm × ℤ) Vmm) :=
  Lib.chunks (moveLimit dstPhys srcPhys) (movePiece cpu dstPhys srcPhys) len s

/-- `flags` of a segment's page: write permission is always given. -/
def segmentFlags (pFlags : ℕ) : BitVec 32 :=
  vmmProtUser ||| vmmProtRead ||| (if hasBit (BitVec.ofNat 32 pFlags) pfW then vmmProtWrite
    else 0#32) ||| vmmProtWrite

/-- A page is allocated, mapped in the new process and cleared. -/
def newPage (cpu : Cpu) (pd vaddr : ℕ) (flags : BitVec 32) (s : Vmm) :
    Option (Except (Vmm × ℤ) (Vmm × ℕ)) :=
  let page := s.pages.allocPageHigh.2
  if page = 0 then some (.error (s, -eNoMem))
  else do
    let (s, ret) ← vmmMapPage { s with pages := s.pages.allocPageHigh.1 } cpu pd vaddr
      (BitVec.ofNat 32 page) flags
    if ret ≠ 0 then some (.error ({ s with pages := s.pages.freePage page }, -eNoMem))
    else
      let s ← s.kmapClear cpu page
      some (.ok (s, page))

/-- A page of a segment: one that is mapped already is used as it is. -/
def loadPage (cpu : Cpu) (pd pFlags vaddr : ℕ) (s : Vmm) : Option (Except (Vmm × ℤ) Vmm) := do
  let (s, existPaddr) ← s.vmmGetPaddr cpu pd vaddr
  if existPaddr = 0 then
    Lib.andThen (newPage cpu pd vaddr (segmentFlags pFlags) s) fun r => some (.ok r.1)
  else some (.ok s)

/-- `for (vaddr = page_start; vaddr < page_end; vaddr += PAGE_SIZE)`. -/
def pagesBetween (pageStart pageEnd : ℕ) : List ℕ :=
  (List.range ((pageEnd - pageStart) / pageSize)).map fun i => pageStart + i * pageSize

/-- The bytes of the file for one page of a segment. -/
def copyFilePiece (cpu : Cpu) (pd src vaddr copied chunkSize : ℕ) (s : Vmm) :
    Option (Except (Vmm × ℤ) Vmm) := do
  let cur := (vaddr + copied) % 2 ^ 32
  let (s, paddr) ← s.vmmGetPaddr cpu pd (pageAlignDown cur)
  if paddr = 0 then some (.error (s, -eFault))
  else s.elfMemcpyPhysToPhys cpu (pageAlignDown paddr + cur % pageSize) (src + copied) chunkSize

/-- A segment: its pages, then its bytes. The second component is `max_seg_end`. -/
def loadSegment (cpu : Cpu) (pd elfData elfSize : ℕ) (ph : ProgramHeader) (r : Vmm × ℕ) :
    Option (Except (Vmm × ℤ) (Vmm × ℕ)) :=
  let vaddrEnd := (ph.pVaddr + ph.pMemsz) % 2 ^ 32
  if ph.pMemsz < ph.pFilesz then some (.error (r.1, -eInval))
  else if elfSize < ph.pOffset + ph.pFilesz then some (.error (r.1, -eInval))
  else if vaddrEnd < ph.pVaddr then some (.error (r.1, -eInval))
  else
    Lib.andThen (Lib.forEach (loadPage cpu pd ph.pFlags)
      (pagesBetween (pageAlignDown ph.pVaddr) (pageAlignUp vaddrEnd)) r.1) fun s =>
    Lib.andThen (Lib.chunks (fun copied => pageRoom (ph.pVaddr + copied))
      (copyFilePiece cpu pd (elfData + ph.pOffset) ph.pVaddr) ph.pFilesz s) fun s =>
    some (.ok (s, if r.2 < vaddrEnd then vaddrEnd else r.2))

def loadHeader (cpu : Cpu) (pd elfData elfSize ePhoff i : ℕ) (r : Vmm × ℕ) :
    Option (Except (Vmm × ℤ) (Vmm × ℕ)) :=
  let phdrOff := (ePhoff + i * phdrSize) % 2 ^ 32
  Lib.andThen (r.1.elfMemcpyFromPhys cpu (elfData + phdrOff) phdrSize) fun (s, bytes) =>
    let ph := ProgramHeader.ofBytes bytes
    if ph.pType ≠ ptLoad then some (.ok (s, r.2))
      else loadSegment cpu pd elfData elfSize ph (s, r.2)

def stackAddr (i : ℕ) : ℕ := userStackTop - i * pageSize

/-- A page of the stack; the list is `stack_mem` so far. -/
def loadStackPage (cpu : Cpu) (pd i : ℕ) (r : Vmm × List ℕ) :
    Option (Except (Vmm × List ℕ) (Vmm × List ℕ)) :=
  (newPage cpu pd (stackAddr i) (vmmProtUser ||| vmmProtRead ||| vmmProtWrite) r.1).map fun
    | .error (s, _) => .error (s, r.2)
    | .ok (s, page) => .ok (s, r.2 ++ [page])

/-- `stack_fail`: the pages that were mapped are unmapped, then freed. -/
def stackFail (cpu : Cpu) (pd : ℕ) (s : Vmm) (stackMem : List ℕ) : Option Vmm :=
  ((List.range stackMem.length).foldlM
    (fun (s : Vmm) i => s.vmmUnmapPage cpu pd (stackAddr (i + 1))) s).map fun s =>
    { s with pages := stackMem.foldl PageAlloc.freePage s.pages }

def loadStack (cpu : Cpu) (pd : ℕ) (s : Vmm) : Option (Except (Vmm × ℤ) Vmm) :=
  (Lib.forEach (loadStackPage cpu pd) ((List.range (userStackSize / pageSize)).map (· + 1))
    (s, [])).bind fun
    | .error (s, stackMem) => (stackFail cpu pd s stackMem).map fun s => .error (s, -eNoMem)
    | .ok (s, _) => some (.ok s)

/-- `process_load_elf` for a process with directory `pd`. -/
def processLoadElf (cpu : Cpu) (pd elfData elfSize : ℕ) (s : Vmm) :
    Option (Except (Vmm × ℤ) (Vmm × Loaded)) :=
  if elfData = 0 ∨ elfSize = 0 ∨ elfSize < ehdrSize then some (.error (s, -eInval))
  else
    Lib.andThen (s.elfMemcpyFromPhys cpu elfData ehdrSize) fun (s, bytes) =>
    let hdr := ElfHeader.ofBytes bytes
    if elfVerifyHeader hdr ≠ 0 then some (.error (s, -eInval))
    else if hdr.ePhentsize ≠ phdrSize then some (.error (s, -eInval))
    else if elfSize < hdr.ePhoff + hdr.ePhnum * hdr.ePhentsize then some (.error (s, -eInval))
    else
      Lib.andThen (Lib.forEach (loadHeader cpu pd elfData elfSize hdr.ePhoff)
        (List.range hdr.ePhnum) (s, 0)) fun (s, maxSegEnd) =>
      Lib.andThen (s.loadStack cpu pd) fun s =>
      some (.ok (s, {
        entry := hdr.eEntry, heapStart := pageAlignUp maxSegEnd
        heapCurrent := pageAlignUp maxSegEnd
        heapMax := userStackTop - userStackSize, mmapNext := abiShmMapBase
        stackPages := userStackSize / pageSize }))

end Vmm

end Xnix
