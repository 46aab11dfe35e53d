import Xnix.Lib.Run
import Xnix.Syscall

/-!
# The machine of handle system calls

The system calls of `Xnix.Syscall` as the actions of one machine. Each call is atomic. Operations
that hold a temporary reference while they run or sleep begin with `handle_acquire` and end with
`handle_object_put`; between the two their hold is in `ops`.
-/

namespace Xnix

/-- The kernel and the holds of the operations in progress. -/
structure World (Pid Oid : Type) where
  kernel : Kernel Pid Oid
  ops : List (Hold Oid)

/-- The actions. `o` is where the allocator puts the new object; `opBegin` and `opEnd` are the ends
of an operation on a handle. -/
inductive Call (Pid Oid : Type)
  | endpointCreate (p : Pid) (o : Oid) (name : CString)
  | eventCreate (p : Pid) (o : Oid)
  | pipeCreate (p : Pid) (o : Oid) (copied : Bool)
  | shmCreate (p : Pid) (o : Oid) (size : ℕ)
  | physmemCreate (p : Pid) (o : Oid) (region : PhysmemRegion) (name : CString)
  | procWatch (p target : Pid) (h : ℕ) (bits : BitVec 32) (o : Oid)
  | irqBind (p : Pid) (irq h : ℕ) (bits : BitVec 32)
  | irqUnbind (p : Pid) (irq : ℕ)
  | close (p : Pid) (h : ℕ)
  | duplicate (p : Pid) (srcH hint : ℕ) (name : UserName)
  | grant (p pid : Pid) (srcH : ℕ) (name : UserName) (rights : Rights)
  | ipcPass (src dst : Pid) (handles : List ℕ)
  | exec (p child : Pid) (handles : List SpawnHandle) (flags : InheritFlags) (loads : Bool)
  | exit (p : Pid)
  | destroy (p : Pid)
  | opBegin (p : Pid) (h : ℕ) (type : HandleType)
  | opEnd (i : ℕ)

section Step
variable {Pid Oid : Type}

def World.after {α : Type} (w : World Pid Oid) (r : Option (Kernel Pid Oid × α)) :
    Option (World Pid Oid) :=
  r.map fun x => { w with kernel := x.1 }

/-- The allocator returns no address that is in use. -/
def World.atFresh (w : World Pid Oid) (o : Oid) (r : Option (World Pid Oid)) :
    Option (World Pid Oid) :=
  if (w.kernel.obj o).isSome then some w else r

variable [DecidableEq Pid] [DecidableEq Oid]

def step (w : World Pid Oid) : Call Pid Oid → Option (World Pid Oid)
  | .endpointCreate p o name => w.atFresh o (w.after (endpointCreate w.kernel p o name))
  | .eventCreate p o => w.atFresh o (w.after (eventCreate w.kernel p o))
  | .pipeCreate p o copied => w.atFresh o (w.after (sysPipeCreate w.kernel p o copied))
  | .shmCreate p o size => w.atFresh o (w.after (sysShmCreate w.kernel p o size))
  | .physmemCreate p o region name =>
    w.atFresh o (w.after (physmemCreateHandleForProc w.kernel p o region name))
  | .procWatch p target h bits o =>
    w.atFresh o (w.after (processWatchCreate w.kernel p target h bits o))
  | .irqBind p irq h bits => w.after (sysIrqBind w.kernel p irq h bits)
  | .irqUnbind p irq => w.after (irqUnbindEvent w.kernel irq p)
  | .close p h => w.after (sysHandleClose w.kernel p h)
  | .duplicate p srcH hint name => w.after (sysHandleDuplicate w.kernel p srcH hint name)
  | .grant p pid srcH name rights => w.after (sysHandleGrant w.kernel p pid srcH name rights)
  | .ipcPass src dst handles => w.after (ipcCopyHandles w.kernel src dst handles)
  | .exec p child handles flags loads =>
    if (w.kernel.proc child).isSome then some w
    else w.after (sysExec w.kernel p child handles flags loads)
  | .exit p => some { w with kernel := processExit w.kernel p }
  | .destroy p => (processDestroy w.kernel p).map fun k => { w with kernel := k }
  | .opBegin p h type =>
    (handleAcquire w.kernel p h (some type)).map fun
      | (k, none) => { w with kernel := k }
      | (k, some e) => ⟨k, e.hold :: w.ops⟩
  | .opEnd i =>
    match w.ops[i]? with
    | none => some w
    | some x => (handleObjectPut w.kernel x.1 x.2).map fun k => ⟨k, w.ops.eraseIdx i⟩

/-- No call goes on with a hint that wraps: only `sys_handle_duplicate` passes on a hint of its
caller. -/
def HintSafe (w : World Pid Oid) : Call Pid Oid → Prop
  | .duplicate p srcH hint _ => ∀ e, (w.kernel.table p)[srcH]? = some (some e) →
    e.rights.has handleRightDuplicate → HintOk (w.kernel.table p) hint
  | _ => True

/-- A machine that has just started: processes with empty tables, no objects. -/
structure Boot (w : World Pid Oid) : Prop where
  handles : ∀ p pr, w.kernel.proc p = some pr → pr.handles = handleTableCreate
  obj : ∀ o, w.kernel.obj o = none
  irq : ∀ i, w.kernel.irq i = List.replicate irqUserMaxBindings none
  trail : w.kernel.trail = []
  ops : w.ops = []

end Step

/-- A machine of processes with every capability, whose allocations are all granted and whose memory
around the tables is zero. -/
def bootWorld (Pid Oid : Type) : World Pid Oid where
  kernel :=
    { proc := fun _ => some ⟨handleTableCreate, BitVec.allOnes 32, BitVec.allOnes 32, false⟩
      obj := fun _ => none
      irq := fun _ => List.replicate irqUserMaxBindings none
      mem := fun _ => ⟨true, true⟩
      trail := [] }
  ops := []

theorem boot_bootWorld (Pid Oid : Type) : Boot (bootWorld Pid Oid) where
  handles := fun _ _ h => by
    cases h
    rfl
  obj := fun _ => rfl
  irq := fun _ => rfl
  trail := rfl
  ops := rfl

end Xnix
