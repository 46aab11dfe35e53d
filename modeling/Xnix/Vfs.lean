import Xnix.Ramfs

/-!
# The VFS server

`user/servers/vfs/main.c` keeps the working directories of the processes and the table of mounts. It
makes the path of a request absolute, removes `.` and `..`, picks the mount with the longest path
and passes the rest on to the file system behind it, which answers through `vfs_dispatch`
(`libs/libc/src/vfs/dispatch.c`); `vfs_client.c` reads the answer. Messages are delivered and
answered in time.
-/

namespace Xnix

def eNoSys : ℤ := 38

def vfsMaxMounts : ℕ := 16
def vfsMaxProcesses : ℕ := 64

/-- The path components `.` and `..`. -/
def dot : CString := [46]
def dotDot : CString := [46, 46]

/-- The string in a buffer: what comes before the first zero. -/
def cstr (buffer : List UInt8) : CString := buffer.takeWhile (· ≠ 0)

/-- An active `struct vfs_cwd_entry`. -/
structure CwdEntry where
  pid : BitVec 32
  cwd : CString

/-- An active `struct vfs_mount`; `path_len` is the length of the path. -/
structure VfsMount where
  path : CString
  fsEp : ℕ
  deriving DecidableEq

/-- `cwd_table` and `mount_table`. -/
structure Vfsd where
  cwds : ℕ → Option CwdEntry
  mounts : ℕ → Option VfsMount

namespace Vfsd

def init : Vfsd := ⟨fun _ => none, fun _ => none⟩

variable (s : Vfsd)

def findCwd (pid : BitVec 32) : Option ℕ :=
  (List.range vfsMaxProcesses).find? fun i => (s.cwds i).any fun e => e.pid = pid

def getCwd (pid : BitVec 32) : CString :=
  match (s.findCwd pid).bind s.cwds with
  | some e => e.cwd
  | none => [slash]

def setCwd (pid : BitVec 32) (path : CString) : Vfsd × ℤ :=
  if path.head? ≠ some slash then (s, -eInval)
  else
    let slot := (s.findCwd pid).or ((List.range vfsMaxProcesses).find? fun i => (s.cwds i).isNone)
    match slot with
    | some i =>
      ({ s with cwds := Function.update s.cwds i (some ⟨pid, path.take (vfsPathMax - 1)⟩) }, 0)
    | none => (s, -eNoMem)

/-- The `stack` after one more component. -/
def pushComponent (stack : List CString) (name : CString) : List CString :=
  if name = dot then stack
  else if name = dotDot then stack.dropLast
  else if name ≠ [] then if stack.length < 32 then stack ++ [name] else stack
  else stack

/-- The loop over the components, at `cursor`. -/
def simplify : ℕ → List CString → CString → List CString
  | 0, stack, _ => stack
  | left + 1, stack, cursor =>
    if cursor = [] then stack
    else
      let stack := pushComponent stack (cursor.takeWhile (· ≠ slash))
      match cursor.dropWhile (· ≠ slash) with
      | [] => stack
      | _ :: rest => simplify left stack (rest.dropWhile (· = slash))

/-- `temp`: the path, or the path behind the working directory, as far as it fits. -/
def joinPath (cwd input : CString) : CString :=
  if input.head? = some slash then input.take (vfsPathMax - 1)
  else (cwd ++ slash :: input).take (vfsPathMax - 1)

/-- `vfsd_resolve_path` with the working directory `cwd`. -/
def resolvePath (cwd input : CString) : CString :=
  let temp := (joinPath cwd input).dropWhile (· = slash)
  let stack := simplify (temp.length + 1) [] temp
  if stack = [] then [slash]
  else stack.foldl (fun out name => (out ++ slash :: name).take (vfsPathMax - 1)) []

def mount (path : CString) (fsEp : ℕ) : Vfsd × ℤ :=
  if path.head? ≠ some slash then (s, -eInval)
  else if path.length = 0 ∨ vfsPathMax ≤ path.length then (s, -eInval)
  else
    let same := (List.range vfsMaxMounts).find? fun i => (s.mounts i).any fun m => m.path = path
    let slot := same.or ((List.range vfsMaxMounts).find? fun i => (s.mounts i).isNone)
    match slot with
    | some i => ({ s with mounts := Function.update s.mounts i (some ⟨path, fsEp⟩) }, 0)
    | none => (s, -eNoMem)

/-- The test of one mount in the loop of `vfsd_lookup`. -/
def covers (path : CString) (m : VfsMount) : Bool :=
  m.path.isPrefixOf path &&
    (m.path = [slash] || path[m.path.length]? = some slash || path[m.path.length]? = none)

/-- `best_match` after one more slot: a longer mount that covers the path takes its place. -/
def better (path : CString) (best : Option VfsMount) : Option VfsMount → Option VfsMount
  | none => best
  | some m => if (best.elim 0 fun b => b.path.length) < m.path.length ∧
    covers path m then some m else best

def bestMatch (path : CString) (slots : List ℕ) : Option VfsMount :=
  slots.foldl (fun best i => better path best (s.mounts i)) none

/-- `vfsd_lookup`: the endpoint or an error, and `rel_path_out`. -/
def lookup (path : CString) (maxLen : ℕ) : ℤ × CString :=
  if path.head? ≠ some slash then (-eInval, [])
  else
    match s.bestMatch path (List.range vfsMaxMounts) with
    | none => (-eNoEnt, [])
    | some m =>
      let rel := path.drop m.path.length
      match rel with
      | [] => if maxLen < 2 then (-eNameTooLong, []) else (toInt32 m.fsEp, [slash])
      | c :: _ =>
        if c = slash then if maxLen ≤ rel.length then (-eNameTooLong, []) else (toInt32 m.fsEp, rel)
        else if maxLen ≤ rel.length + 1 then (-eNameTooLong, (slash :: rel).take (maxLen - 1))
        else (toInt32 m.fsEp, slash :: rel)

end Vfsd

section Messages

instance neZero_eight : NeZero 8 := ⟨by decide⟩

/-- The registers and the buffer of `struct ipc_message`. -/
structure VfsMessage where
  regs : Fin 8 → BitVec 32
  buffer : List UInt8

/-- The answers of a file system; `none` is a missing entry of `struct vfs_operations`, and `σ` the
state behind `ctx`. -/
structure VfsOps (σ : Type) where
  info : Option (σ → CString → σ × ℤ × BitVec 32 × BitVec 32)
  mkdir : Option (σ → CString → σ × ℤ)
  del : Option (σ → CString → σ × ℤ)

def udmVfsInfo : BitVec 32 := 5
def udmVfsMkdir : BitVec 32 := 9
def udmVfsDel : BitVec 32 := 10
def udmVfsChdir : BitVec 32 := 14

def vfsTypeDir : BitVec 32 := 2

variable {σ : Type}

def zeroRegs : Fin 8 → BitVec 32 := fun _ => 0

/-- The checks of a path in a message: it is there and fits into a buffer. -/
def pathFits (buffer : List UInt8) : Bool := 0 < buffer.length && buffer.length < vfsPathMax

/-- One case of `vfs_dispatch` for an operation on a path. -/
def dispatchPath (op : Option (σ → CString → σ × ℤ)) (ctx : σ) (msg : VfsMessage) : σ × ℤ :=
  match op with
  | none => (ctx, -eNoSys)
  | some f => if pathFits msg.buffer then f ctx (cstr msg.buffer) else (ctx, -eInval)

/-- `vfs_dispatch`: the state of the file system and the registers of the reply. -/
def vfsDispatch (ops : VfsOps σ) (ctx : σ) (msg : VfsMessage) : σ × (Fin 8 → BitVec 32) :=
  if msg.regs 0 = udmVfsInfo then
    match ops.info with
    | none => (ctx, Function.update zeroRegs 0 (BitVec.ofInt 32 (-eNoSys)))
    | some f =>
      if pathFits msg.buffer then
        let (ctx, result, size, type) := f ctx (cstr msg.buffer)
        let regs := if result = 0 then Function.update (Function.update zeroRegs 2 size) 3 type
          else zeroRegs
        (ctx, Function.update regs 0 (BitVec.ofInt 32 result))
      else (ctx, Function.update zeroRegs 0 (BitVec.ofInt 32 (-eInval)))
  else
    let (ctx, result) :=
      if msg.regs 0 = udmVfsMkdir then dispatchPath ops.mkdir ctx msg
      else if msg.regs 0 = udmVfsDel then dispatchPath ops.del ctx msg
      else (ctx, -eNoSys)
    (ctx, Function.update zeroRegs 0 (BitVec.ofInt 32 result))

/-- The VFS server and the file systems behind its endpoints. -/
structure VfsSys (σ : Type) where
  server : Vfsd
  ops : ℕ → VfsOps σ
  ctx : σ

variable (s : VfsSys σ)

/-- `sys_ipc_call` to a file system. -/
def VfsSys.call (ep : ℤ) (msg : VfsMessage) : VfsSys σ × (Fin 8 → BitVec 32) :=
  let (ctx, regs) := vfsDispatch (s.ops ep.toNat) s.ctx msg
  ({ s with ctx := ctx }, regs)

/-- `vfsd_forward`: the registers of the reply, or an error. -/
def VfsSys.forward (msg : VfsMessage) (pid : BitVec 32) (path : CString) :
    VfsSys σ × Except ℤ (Fin 8 → BitVec 32) :=
  let absPath := Vfsd.resolvePath (s.server.getCwd pid) path
  let (fsEp, relPath) := s.server.lookup absPath vfsPathMax
  if fsEp < 0 then (s, .error fsEp)
  else
    let (s, regs) := s.call fsEp { msg with buffer := relPath }
    (s, .ok regs)

/-- The branch `UDM_VFS_CHDIR` of `vfsd_path_handler`: what it leaves in `data[1]`. -/
def VfsSys.handleChdir (msg : VfsMessage) : VfsSys σ × BitVec 32 :=
  let pid := msg.regs 1
  if pathFits msg.buffer then
    let absPath := Vfsd.resolvePath (s.server.getCwd pid) (cstr msg.buffer)
    let (fsEp, relPath) := s.server.lookup absPath vfsPathMax
    if fsEp < 0 then (s, BitVec.ofInt 32 fsEp)
    else
      let (s, regs) := s.call fsEp ⟨Function.update zeroRegs 0 udmVfsInfo, relPath⟩
      if (regs 1).toInt < 0 then (s, regs 1)
      else if regs 3 ≠ vfsTypeDir then (s, BitVec.ofInt 32 (-eNotDir))
      else
        let (server, ret) := s.server.setCwd pid absPath
        ({ s with server := server }, BitVec.ofInt 32 ret)
  else (s, BitVec.ofInt 32 (-eInval))

/-- `vfsd_path_handler` for a change of directory and for what is passed on: the registers of the
reply. -/
def VfsSys.pathHandler (msg : VfsMessage) : VfsSys σ × (Fin 8 → BitVec 32) :=
  if msg.regs 0 = udmVfsChdir then
    let (s, result) := s.handleChdir msg
    (s, Function.update (Function.update msg.regs 0 udmVfsChdir) 1 result)
  else if pathFits msg.buffer then
    match s.forward msg (msg.regs 1) (cstr msg.buffer) with
    | (s, .ok regs) => (s, regs)
    | (s, .error e) =>
      (s, Function.update (Function.update msg.regs 0 (BitVec.ofInt 32 e)) 1 (BitVec.ofInt 32 e))
  else
    (s, Function.update (Function.update msg.regs 0 (BitVec.ofInt 32 (-eInval))) 1
      (BitVec.ofInt 32 (-eInval)))

/-- The request that the client sends for a path. -/
def pathRequest (op pid : BitVec 32) (path : CString) : VfsMessage :=
  ⟨Function.update (Function.update zeroRegs 0 op) 1 pid, cstr path⟩

/-- A client call whose result is `(int32_t)reply.regs.data[1]`. -/
def VfsSys.clientCall (op pid : BitVec 32) (path : CString) : VfsSys σ × ℤ :=
  let (s, regs) := s.pathHandler (pathRequest op pid path)
  (s, (regs 1).toInt)

def VfsSys.vfsMkdir (pid : BitVec 32) (path : CString) : VfsSys σ × ℤ :=
  s.clientCall udmVfsMkdir pid path

def VfsSys.vfsDelete (pid : BitVec 32) (path : CString) : VfsSys σ × ℤ :=
  s.clientCall udmVfsDel pid path

def VfsSys.vfsChdir (pid : BitVec 32) (path : CString) : VfsSys σ × ℤ :=
  s.clientCall udmVfsChdir pid path

/-- `vfs_stat`: what it returns, with the size and the type it stores when that is 0. -/
def VfsSys.vfsStat (pid : BitVec 32) (path : CString) : VfsSys σ × ℤ × BitVec 32 × BitVec 32 :=
  let (s, regs) := s.pathHandler (pathRequest udmVfsInfo pid path)
  if (regs 1).toInt < 0 then (s, (regs 1).toInt, 0, 0) else (s, 0, regs 2, regs 3)

end Messages

end Xnix
