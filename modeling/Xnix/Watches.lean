import Xnix.Lib.Run

/-!
# Process watches

`kernel/process/watch.c` with the references that `kernel/handle/object.c` takes and drops for
handles. Each step is one section of `g_process_watch_lock`, of any thread. A handle look-up holds a
reference until `handle_object_put`. `process_exit` marks the process before it signals.
-/

namespace Xnix

/-- Before the first handle, with a handle open ever since, and after the last one was closed. -/
inductive WatchLife
  | new | kept | lapsed
  deriving DecidableEq

/-- `struct process_watch`; `linked`: it is in the list. `aim` is the process named, `handles` and
`held` count table entries and system calls, and `signals` lists what was signalled. -/
structure Watch (Pid Eid : Type) where
  refcount : ℕ
  target : Option Pid
  notif : Eid
  bits : BitVec 32
  armed : Bool
  linked : Bool
  aim : Pid
  handles : ℕ
  held : ℕ
  life : WatchLife
  signals : List (Eid × BitVec 32)

structure WatchSys (Pid Eid Wid : Type) where
  watch : Wid → Option (Watch Pid Eid)
  zombie : Pid → Bool
  told : Pid → Bool

inductive WatchAction (Pid Eid Wid : Type)
  | create (w : Wid) (p : Pid) (e : Eid) (bits : BitVec 32)
  | publish (w : Wid)
  | acquire (w : Wid)
  | put (w : Wid)
  | openHandle (w : Wid)
  | close (w : Wid)
  | die (p : Pid)
  | signalExit (p : Pid)

section Watch
variable {Pid Eid : Type}

/-- `process_watch_create` up to the handle: the creator holds the one reference. -/
def Watch.create (zombie : Bool) (p : Pid) (e : Eid) (bits : BitVec 32) : Watch Pid Eid :=
  if zombie then ⟨1, none, e, bits, false, false, p, 0, 1, .new, [(e, bits)]⟩
  else ⟨1, some p, e, bits, true, true, p, 0, 1, .new, []⟩

variable (x : Watch Pid Eid)

/-- `process_watch_unref`: any reference that is dropped disarms the watch. -/
def Watch.unref : Watch Pid Eid :=
  { x with
    armed := false, linked := x.linked && !x.armed, refcount := x.refcount - 1,
    target := if x.refcount - 1 = 0 then none else x.target }

/-- The creator's `handle_alloc`. -/
def Watch.publish : Watch Pid Eid :=
  if x.life = .new ∧
    0 < x.held then { x with held := x.held - 1, handles := 1, life := .kept } else x

def Watch.acquire : Watch Pid Eid :=
  if 0 < x.handles then { x with refcount := x.refcount + 1, held := x.held + 1 } else x

def Watch.put : Watch Pid Eid :=
  if 0 < x.held then { x with held := x.held - 1 }.unref else x

/-- `handle_object_open`, for a handle made from one that is held. -/
def Watch.openHandle : Watch Pid Eid :=
  if x.life ≠ .new ∧
    0 < x.held then { x with refcount := x.refcount + 1, handles := x.handles + 1 } else x

def Watch.close : Watch Pid Eid :=
  if 0 < x.handles then
    { x with handles := x.handles - 1, life := if x.handles = 1 then .lapsed else x.life }.unref
  else x

/-- What `process_watch_signal_exit` does to a watch. -/
def Watch.fire [DecidableEq Pid] (p : Pid) (x : Watch Pid Eid) : Watch Pid Eid :=
  if x.linked ∧ x.armed ∧ x.target = some p then
    { x with
      armed := false, linked := false, target := none, signals := (x.notif, x.bits) :: x.signals }
  else x

end Watch

section Step
variable {Pid Eid Wid : Type} [DecidableEq Pid] [DecidableEq Wid]

def WatchSys.modify (s : WatchSys Pid Eid Wid) (w : Wid) (f : Watch Pid Eid → Watch Pid Eid) :
    WatchSys Pid Eid Wid :=
  { s with watch := Function.update s.watch w ((s.watch w).map f) }

def WatchSys.step (s : WatchSys Pid Eid Wid) :
    WatchAction Pid Eid Wid → Option (WatchSys Pid Eid Wid)
  | .create w p e bits =>
    if (s.watch w).isNone ∧ bits ≠ 0#32 then
      some { s with watch := Function.update s.watch w (some (.create (s.zombie p) p e bits)) }
    else some s
  | .publish w => some (s.modify w .publish)
  | .acquire w => some (s.modify w .acquire)
  | .put w => some (s.modify w .put)
  | .openHandle w => some (s.modify w .openHandle)
  | .close w => some (s.modify w .close)
  | .die p => some { s with zombie := Function.update s.zombie p true }
  | .signalExit p =>
    if s.zombie p then
      some { s with
        watch := fun w => (s.watch w).map (.fire p), told := Function.update s.told p true }
    else some s

end Step

structure WatchSys.Init {Pid Eid Wid : Type} (s : WatchSys Pid Eid Wid) : Prop where
  watch : ∀ w, s.watch w = none
  told : ∀ p, s.told p = false

end Xnix
