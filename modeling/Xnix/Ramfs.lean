import Mathlib.Data.List.DropRight
import Xnix.Lib.Chain
import Xnix.Lib.Flat
import Xnix.Lib.Run
import Xnix.Syscall

/-!
# The file system in memory

`user/init/ramfs.c`. Files and directories are the nodes of an array of 256; a directory heads the
list of its children and each node names its parent. Open files are the slots of an array of 64. The
server takes one request after the other. An operation has no value when it does not return (a list
that runs in a circle) or leaves the blocks of its files.
-/

namespace Xnix

def eBadf : ℤ := 9
def eExist : ℤ := 17
def eNotDir : ℤ := 20
def eIsDir : ℤ := 21
def eNFile : ℤ := 23
def eNoSpc : ℤ := 28
def eNameTooLong : ℤ := 36
def eNotEmpty : ℤ := 39

def vfsPathMax : ℕ := 256

def vfsOCreat : BitVec 32 := 0x0100
def vfsOTrunc : BitVec 32 := 0x0200
def vfsOExcl : BitVec 32 := 0x0800

/-- `flags & f`. -/
def hasFlag (flags f : BitVec 32) : Bool := flags &&& f != 0

def slash : UInt8 := 47

def ramfsNameMax : ℕ := 255
abbrev ramfsMaxNodes : ℕ := 256
def ramfsMaxHandles : ℕ := 64

abbrev NodeId := Fin ramfsMaxNodes

inductive RamType
  | file
  | dir
  deriving DecidableEq

/-- What `data` points to: nothing, a block of the heap with so many bytes, or one that was given
back. -/
inductive RamData
  | null
  | block (len : ℕ) (bytes : Lib.Flat)
  | freed

/-- `struct ramfs_node` without its list links. -/
structure RamNode where
  name : CString
  type : RamType
  size : ℕ
  data : RamData
  capacity : ℕ
  parent : Option NodeId
  inUse : Bool

/-- `struct ramfs_handle`; the node of a slot that is not in use is never read. -/
structure RamHandle where
  node : NodeId
  inUse : Bool

/-- `struct ramfs_ctx`. In `links` the head is a node's `children` and the link its `next`. -/
structure Ramfs where
  nodes : NodeId → RamNode
  links : Lib.Links NodeId NodeId
  handles : ℕ → RamHandle

def RamNode.zero : RamNode := ⟨[], .file, 0, .null, 0, none, false⟩

namespace Ramfs

def root : NodeId := ⟨0, by decide⟩

def init : Ramfs where
  nodes := Function.update (fun _ => .zero) root ⟨[slash], .dir, 0, .null, 0, none, true⟩
  links := ⟨fun _ => none, fun _ => none⟩
  handles := fun _ => ⟨root, false⟩

variable (fs : Ramfs)

def setNode (n : NodeId) (v : RamNode) : Ramfs :=
  { fs with nodes := Function.update fs.nodes n v }

/-- The node that `alloc_node` takes. -/
def allocNode : Option NodeId := (List.finRange ramfsMaxNodes).find? fun i => !(fs.nodes i).inUse

/-- The slot that `alloc_handle` takes. -/
def freeSlot : Option ℕ := (List.range ramfsMaxHandles).find? fun i => !(fs.handles i).inUse

def allocHandle (n : NodeId) : Ramfs × ℤ :=
  match fs.freeSlot with
  | some h => ({ fs with handles := Function.update fs.handles h ⟨n, true⟩ }, h)
  | none => (fs, -eNFile)

def getHandle (h : ℕ) : Option NodeId :=
  if ramfsMaxHandles ≤ h ∨ (fs.handles h).inUse = false then none else some (fs.handles h).node

/-- The loop over the children of a directory. -/
def findChild (fs : Ramfs) (name : CString) : ℕ → Option NodeId → Option (Option NodeId)
  | _, none => some none
  | 0, some _ => none
  | left + 1, some c =>
    if (fs.nodes c).name = name then some (some c) else findChild fs name left (fs.links.next c)

/-- The loop of `lookup_path` at `node`, with the rest `p` of the path. -/
def lookupFrom (fs : Ramfs) : ℕ → NodeId → CString → Option (Option NodeId)
  | 0, _, _ => none
  | left + 1, node, p =>
    if p = [] then some (some node)
    else
      let name := p.takeWhile (· ≠ slash)
      let rest := (p.dropWhile (· ≠ slash)).tail
      if name = [] then lookupFrom fs left node rest
      else if (fs.nodes node).type ≠ .dir then some none
      else
        match findChild fs name ramfsMaxNodes (fs.links.head node) with
        | none => none
        | some none => some none
        | some (some c) => lookupFrom fs left c rest

def lookupPath : CString → Option (Option NodeId)
  | [] => some none
  | c :: p =>
    if c ≠ slash then some none
    else if p = [] then some (some root)
    else lookupFrom fs (p.length + 1) root p

/-- `lookup_parent`: the parent directory and the name after the last `/`. -/
def lookupParent (path : CString) : Option (Option (NodeId × CString)) :=
  if path.head? ≠ some slash ∨ path.tail = [] then some none
  else
    let name := path.rtakeWhile (· ≠ slash)
    let parent := (path.rdropWhile (· ≠ slash)).dropLast
    if parent = [] then some (some (root, name))
    else if vfsPathMax ≤ parent.length then some none
    else (lookupPath fs parent).map fun n => n.map fun n => (n, name)

/-- The directory and the name of a new entry `path`, or the error, as in `ramfs_open`,
`ramfs_mkdir` and `ramfs_rename`. -/
def newEntry (path : CString) : Option (Except ℤ (NodeId × CString)) :=
  (lookupParent fs path).map fun found =>
    match found with
    | none => .error (-eNoEnt)
    | some (parent, name) =>
      if (fs.nodes parent).type ≠ .dir then .error (-eNoEnt)
      else if ramfsNameMax < name.length then .error (-eNameTooLong)
      else .ok (parent, name)

def newNode (n parent : NodeId) (name : CString) (type : RamType) : Ramfs where
  nodes := Function.update fs.nodes n ⟨name, type, 0, .null, 0, some parent, true⟩
  links := Lib.Links.push ⟨Function.update fs.links.head n none,
    Function.update fs.links.next n none⟩ parent n
  handles := fs.handles

def makeNode (path : CString) (type : RamType) : Option (Ramfs × Except ℤ NodeId) :=
  (newEntry fs path).map fun found =>
    match found with
    | .error e => (fs, .error e)
    | .ok (parent, name) =>
      match fs.allocNode with
      | none => (fs, .error (-eNoSpc))
      | some n => (fs.newNode n parent name type, .ok n)

def truncate (n : NodeId) : Ramfs := fs.setNode n { fs.nodes n with size := 0 }

def openFile (path : CString) (flags : BitVec 32) : Option (Ramfs × ℤ) :=
  (lookupPath fs path).bind fun found =>
    match found with
    | none =>
      if hasFlag flags vfsOCreat = false then some (fs, -eNoEnt)
      else
        (makeNode fs path .file).map fun made =>
          match made with
          | (fs', .error e) => (fs', e)
          | (fs', .ok n) => fs'.allocHandle n
    | some n =>
      if (fs.nodes n).type = .dir then some (fs, -eIsDir)
      else if hasFlag flags vfsOCreat && hasFlag flags vfsOExcl then some (fs, -eExist)
      else if hasFlag flags vfsOTrunc then some ((fs.truncate n).allocHandle n)
      else some (fs.allocHandle n)

def openDir (path : CString) : Option (Ramfs × ℤ) :=
  (lookupPath fs path).map fun found =>
    match found with
    | none => (fs, -eNoEnt)
    | some n => if (fs.nodes n).type ≠ .dir then (fs, -eNotDir) else fs.allocHandle n

def close (h : ℕ) : Ramfs × ℤ :=
  match fs.getHandle h with
  | none => (fs, -eBadf)
  | some n => ({ fs with handles := Function.update fs.handles h ⟨n, false⟩ }, 0)

def mkdir (path : CString) : Option (Ramfs × ℤ) :=
  (lookupPath fs path).bind fun found =>
    match found with
    | some _ => some (fs, -eExist)
    | none =>
      (makeNode fs path .dir).map fun made =>
        match made with
        | (fs', .error e) => (fs', e)
        | (fs', .ok _) => (fs', 0)

/-- Take a node off the list of its parent. -/
def detach (n : NodeId) : Option Ramfs :=
  match (fs.nodes n).parent with
  | none => some fs
  | some parent => (fs.links.unlink parent n).map fun links => { fs with links := links }

def freeNode (n : NodeId) : Option Ramfs :=
  match (fs.nodes n).data with
  | .freed => none
  | _ => some (fs.setNode n { fs.nodes n with data := .null, inUse := false })

def del (path : CString) : Option (Ramfs × ℤ) :=
  (lookupPath fs path).bind fun found =>
    match found with
    | none => some (fs, -eNoEnt)
    | some n =>
      if n = root then some (fs, -eBusy)
      else if (fs.nodes n).type = .dir ∧ fs.links.head n ≠ none then some (fs, -eNotEmpty)
      else (fs.detach n).bind fun fs => (fs.freeNode n).map fun fs => (fs, 0)

/-- Give a node that is in no list a name and a parent. -/
def attach (n parent : NodeId) (name : CString) : Ramfs :=
  { fs.setNode n { fs.nodes n with name := name, parent := some parent } with
    links := fs.links.push parent n }

def rename (oldPath newPath : CString) : Option (Ramfs × ℤ) :=
  (lookupPath fs oldPath).bind fun found =>
    match found with
    | none => some (fs, -eNoEnt)
    | some n =>
      if n = root then some (fs, -eBusy)
      else
        (lookupPath fs newPath).bind fun there =>
          match there with
          | some _ => some (fs, -eExist)
          | none =>
            (newEntry fs newPath).bind fun entry =>
              match entry with
              | .error e => some (fs, e)
              | .ok (parent, name) => (fs.detach n).map fun fs => (fs.attach n parent name, 0)

/-- `ramfs_read`: what it returns and the bytes it copies to the caller's buffer. -/
def read (h offset size : ℕ) : Option (ℤ × List (BitVec 8)) :=
  match fs.getHandle h with
  | none => some (-eBadf, [])
  | some n =>
    let node := fs.nodes n
    if node.type = .dir then some (-eIsDir, [])
    else if node.size ≤ offset then some (0, [])
    else
      let size := min size (node.size - offset)
      if size = 0 then some (0, [])
      else
        match node.data with
        | .null => some (toInt32 size, [])
        | .block len bytes =>
          if offset + size ≤ len then some (toInt32 size, bytes.slice offset size) else none
        | .freed => none

/-- `realloc`: whether it gives a block, and what the old pointer or the block then is. `memory` is
what the heap has.
-/
def realloc (data : RamData) (size : ℕ) (memory : Option Lib.Flat) : Option (Bool × RamData) :=
  match data with
  | .freed => none
  | .null =>
    match memory with
    | some garbage => if size = 0 then some (false, .null) else some (true, .block size garbage)
    | none => some (false, .null)
  | .block len bytes =>
    if size = 0 then some (false, .freed)
    else
      match memory with
      | some garbage => some (true, .block size fun i => if i < len then bytes i else garbage i)
      | none => some (false, .block len bytes)

/-- The growth of a file's block to `last` bytes, with the new bytes cleared; `false` when there is
no memory. -/
def growTo (node : RamNode) (last : ℕ) (memory : Option Lib.Flat) : Option (Bool × RamNode) :=
  if last ≤ node.capacity then some (true, node)
  else
    let newCap := (last + 4095) % 2 ^ 32 / 4096 * 4096
    (realloc node.data newCap memory).map fun (got, data) =>
      match got, data with
      | true, .block len bytes =>
        (true, { node with
          data := .block len (bytes.fill node.capacity (newCap - node.capacity) 0)
          capacity := newCap })
      | _, data => (false, { node with data := data })

/-- `memcpy(node->data + offset, buf, size)`. -/
def copyIn (data : RamData) (offset : ℕ) (buf : List (BitVec 8)) : Option RamData :=
  if buf = [] then some data
  else
    match data with
    | .block len bytes =>
      if offset + buf.length ≤ len then some (.block len (bytes.put offset buf)) else none
    | _ => none

/-- `ramfs_write` of the bytes of `buf`. -/
def write (h offset : ℕ) (buf : List (BitVec 8)) (memory : Option Lib.Flat) : Option (Ramfs × ℤ) :=
  match fs.getHandle h with
  | none => some (fs, -eBadf)
  | some n =>
    if (fs.nodes n).type = .dir then some (fs, -eIsDir)
    else
      let last := (offset + buf.length) % 2 ^ 32
      (growTo (fs.nodes n) last memory).bind fun (got, node) =>
        if got = false then some (fs.setNode n node, -eNoMem)
        else
          (copyIn node.data offset buf).map fun data =>
            (fs.setNode n { node with data := data, size := max node.size last },
              toInt32 buf.length)

end Ramfs

/-- The bytes that a file should have after a write. -/
def overwrite (file : List (BitVec 8)) (offset : ℕ) (buf : List (BitVec 8)) : List (BitVec 8) :=
  (file ++ List.replicate (offset - file.length) 0).take offset ++ buf ++
    file.drop (offset + buf.length)

/-- What a read should return: how many bytes of the extent the file has, and the bytes. -/
def readBack (file : List (BitVec 8)) (offset size : ℕ) : ℤ × List (BitVec 8) :=
  let bytes := (file.drop offset).take size
  (bytes.length, bytes)

/-- The file system with what its users know of it: `model` has the bytes of each file, `stamp`
tells which file a node holds, and `opened` which one each handle was opened on. -/
structure RamSys where
  fs : Ramfs
  model : NodeId → Option (List (BitVec 8))
  stamp : NodeId → ℕ
  opened : ℕ → ℕ
  clock : ℕ

namespace RamSys

inductive Action
  | openFile (path : CString) (flags : BitVec 32)
  | openDir (path : CString)
  | close (h : ℕ)
  | read (h offset size : ℕ)
  | write (h offset : ℕ) (buf : List (BitVec 8)) (memory : Option Lib.Flat)
  | mkdir (path : CString)
  | del (path : CString)
  | rename (oldPath newPath : CString)

def init : RamSys := ⟨.init, fun _ => none, fun _ => 0, fun _ => 0, 1⟩

/-- The operation on the file system and what it returns. -/
def serve (fs : Ramfs) : Action → Option (Ramfs × ℤ)
  | .openFile path flags => fs.openFile path flags
  | .openDir path => fs.openDir path
  | .close h => some (fs.close h)
  | .read h offset size => (fs.read h offset size).map fun r => (fs, r.1)
  | .write h offset buf memory => fs.write h offset buf memory
  | .mkdir path => fs.mkdir path
  | .del path => fs.del path
  | .rename oldPath newPath => fs.rename oldPath newPath

/-- The bytes that the files should have after an operation that returned `r`. -/
def expect (fs fs' : Ramfs) (model : NodeId → Option (List (BitVec 8))) (r : ℤ) :
    Action → NodeId → Option (List (BitVec 8))
  | .openFile _ flags =>
    if r < 0 then model
    else
      let n := (fs'.handles r.toNat).node
      if model n = none ∨ hasFlag flags vfsOTrunc then Function.update model n (some []) else model
  | .write h offset buf _ =>
    if r < 0 then model
    else
      let n := (fs.handles h).node
      Function.update model n ((model n).map fun file => overwrite file offset buf)
  | .del path =>
    match fs.lookupPath path with
    | some (some n) => if r < 0 then model else Function.update model n none
    | some none | none => model
  | _ => model

/-- The state after an operation that left `fs` and returned `r`. -/
def after (s : RamSys) (a : Action) (fs : Ramfs) (r : ℤ) : RamSys :=
  let stamp := fun n => if (fs.nodes n).inUse && !(s.fs.nodes n).inUse then s.clock else s.stamp n
  { fs := fs
    model := expect s.fs fs s.model r a
    stamp := stamp
    opened := fun h =>
      if (fs.handles h).inUse && !(s.fs.handles h).inUse then stamp (fs.handles h).node
        else s.opened h
    clock := s.clock + 1 }

def step (s : RamSys) (a : Action) : Option RamSys :=
    (serve s.fs a).map fun (fs, r) => s.after a fs r

end RamSys

end Xnix
