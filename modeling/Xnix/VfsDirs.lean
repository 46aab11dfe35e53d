import Xnix.Vfs

/-!
# Directories of the VFS server

`vfsd_opendir`, `vfsd_readdir` and `vfsd_close_handle` of `user/servers/vfs/main.c`. A directory
with mounts below it gets a slot of `dir_table`, and its listing is that of the backend behind the
names of these mounts; of any other directory the client gets the handle of the backend.
-/

namespace Xnix

def vfsNameMax : ℕ := 64

namespace Vfsd

/-- The name of a mount below `base`, when it is a direct child. -/
def childName (base mp : CString) : Option CString :=
  if mp.head? ≠ some slash ∨ mp = base then none
  else
    let rem :=
      if base = [slash] then some (mp.drop 1)
      else if ¬ base.isPrefixOf mp ∨ mp[base.length]? ≠ some slash then none
      else some (mp.drop (base.length + 1))
    rem.filter fun rem => rem ≠ [] ∧ slash ∉ rem

/-- One round of `vfsd_collect_mount_children`. -/
def addChild (base : CString) (names : List CString) (m : Option VfsMount) : List CString :=
  match m.bind fun m => childName base m.path with
  | none => names
  | some rem => if vfsMaxMounts ≤ names.length ∨ rem ∈ names then names
    else names ++ [rem.take (vfsNameMax - 1)]

def collectMountChildren (s : Vfsd) (base : CString) : List CString :=
  (List.range vfsMaxMounts).foldl (fun names i => addChild base names (s.mounts i)) []

def needsDirProxy (s : Vfsd) (base : CString) : Bool := 0 < (s.collectMountChildren base).length

/-- What a backend answers to `VFS_IOCTL_READDIR`: the call fails, or returns a result and a
name. -/
inductive DirAnswer
  | failed (ret : ℤ)
  | answer (result : ℤ) (name : CString)

/-- What a client gets: the name of an entry or an error. -/
inductive DirReply
  | entry (name : CString)
  | error (e : ℤ)
  deriving DecidableEq

/-- The loop of `vfsd_readdir` over the entries of the backend, for `left` more rounds at most. -/
def readBackend (hidden : CString → Bool) (backend : ℕ → DirAnswer) (target : ℕ) :
    ℕ → ℕ → ℕ → Option DirReply
  | 0, _, _ => none
  | left + 1, backendIndex, visibleIndex =>
    match backend backendIndex with
    | .failed ret => some (.error ret)
    | .answer result name =>
      if result ≤ 0 then some (.error (if result < 0 then result else -eNoEnt))
      else if hidden name then readBackend hidden backend target left (backendIndex + 1)
        visibleIndex
      else if visibleIndex = target then some (.entry name)
      else readBackend hidden backend target left (backendIndex + 1) (visibleIndex + 1)

/-- `vfsd_readdir` of a directory with the path `base`. -/
def readdir (s : Vfsd) (base : CString) (backend : ℕ → DirAnswer) (left index : ℕ) :
    Option DirReply :=
  let names := s.collectMountChildren base
  match names[index]? with
  | some name => some (.entry name)
  | none => readBackend (· ∈ names) backend (index - names.length) left 0 0

end Vfsd

/-- An active `struct vfs_dir_state`. -/
structure VfsDirState where
  backendEp : ℤ
  backendHandle : ℤ
  basePath : CString

/-- The server with its `dir_table`. The rest is not in the source: `opened` are the directories
that are open on backends by an OPENDIR of the server, `direct` those whose backend handle a client
has got, and `told` the slots that a client was told and has not closed. -/
structure DirSys where
  vfsd : Vfsd
  dirs : ℕ → Option VfsDirState
  opened : List (ℤ × ℤ)
  direct : List (ℤ × ℤ)
  told : ℕ → Bool

/-- What comes of an OPENDIR: the call fails without it or after it was done, or the backend refuses
or opens. -/
inductive OpenOutcome
  | failed
  | lost (handle : ℤ)
  | refused
  | opened (handle : ℤ)

/-- What comes of an IO_CLOSE. -/
inductive CloseOutcome
  | failed
  | lost
  | refused
  | closed

inductive DirAction
  | opendir (path : CString) (outcome : OpenOutcome) (delivered : Bool)
  | readdir (h index : ℕ)
  | close (h : ℕ) (outcome : CloseOutcome)
  | closeDirect (dir : ℤ × ℤ)

namespace DirSys

variable (s : DirSys)

def dirAlloc : Option ℕ := (List.range vfsMaxMounts).find? fun i => (s.dirs i).isNone

/-- `vfsd_opendir`, with a reply that the client gets or does not get. -/
def opendir (path : CString) (outcome : OpenOutcome) (delivered : Bool) : DirSys :=
  let ep := (s.vfsd.lookup path vfsPathMax).1
  if ep < 0 then s
  else
    match outcome with
    | .failed | .refused => s
    | .lost handle => { s with opened := (ep, handle) :: s.opened }
    | .opened handle =>
      let s := { s with opened := (ep, handle) :: s.opened }
      if ¬ s.vfsd.needsDirProxy
        path then { s with direct := if delivered then (ep, handle) :: s.direct else s.direct }
      else
        match s.dirAlloc with
        | none => s
        | some h => { s with
            dirs := Function.update s.dirs h (some ⟨ep, handle, path.take (vfsPathMax - 1)⟩)
            told := Function.update s.told h delivered }

/-- `vfsd_close_handle`; the client drops its handle whatever the result is. -/
def closeHandle (h : ℕ) (outcome : CloseOutcome) : DirSys :=
  match s.dirs h with
  | none => s
  | some st =>
    let s := { s with told := Function.update s.told h false }
    let free := { s with dirs := Function.update s.dirs h none }
    let closed := s.opened.filter (· ≠ (st.backendEp, st.backendHandle))
    match outcome with
    | .failed => s
    | .lost => { s with opened := closed }
    | .refused => free
    | .closed => { free with opened := closed }

/-- The requests, and a client that closes a directory on the backend itself. -/
def step : DirAction → Option DirSys
  | .opendir path outcome delivered => some (s.opendir path outcome delivered)
  | .readdir _ _ => some s
  | .close h outcome => some (s.closeHandle h outcome)
  | .closeDirect dir =>
    some { s with opened := s.opened.filter (· ≠ dir), direct := s.direct.filter (· ≠ dir) }

def Init : Prop := (∀ h, s.dirs h = none) ∧ s.opened = []

end DirSys

end Xnix
