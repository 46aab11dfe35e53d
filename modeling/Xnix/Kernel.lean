import Xnix.Handle

/-!
# Kernel objects and processes

The state that handles name: the reference-counted objects, the processes with their handle tables,
and the IRQ bindings, with the functions of `kernel/handle` over them. `Pid` stands for the process
structures and `Oid` for the addresses objects can take; a function that would touch a freed object
has no next state.
-/

namespace Xnix

inductive PhysmemType
  | generic | fb | shm
  deriving DecidableEq, Repr

/-- `struct physmem_region` without its counts and page list. -/
structure PhysmemRegion where
  size : ℕ
  type : PhysmemType
  deriving DecidableEq, Repr

/-- `struct process_watch` without its count and link. -/
structure ProcessWatch (Pid Oid : Type) where
  target : Option Pid
  notif : Oid
  bits : BitVec 32
  armed : Bool
  deriving DecidableEq, Repr

/-- What an object is, with the end counts of a pipe. -/
inductive Kind (Pid Oid : Type)
  | endpoint
  | event
  | physmem (region : PhysmemRegion)
  | pipe (readerCount writerCount : ℕ)
  | watch (w : ProcessWatch Pid Oid)
  deriving DecidableEq, Repr

/-- An allocated object. Its count is positive: the last reference frees it. -/
structure Object (Pid Oid : Type) where
  kind : Kind Pid Oid
  refcount : ℕ
  live : 0 < refcount

/-- `struct process` as far as handles and capabilities go. -/
structure Process (Oid : Type) where
  handles : HandleTable Oid
  capMask : BitVec 32
  irqMask : BitVec 32
  zombie : Bool

structure IrqBinding (Pid Oid : Type) where
  owner : Pid
  notif : Option Oid
  signalBits : BitVec 32

def archNrIrqs : ℕ := 24

def irqUserMaxBindings : ℕ := 4

/-- A handle type and an object: what an entry holds of the object it names. -/
abbrev Hold (Oid : Type) := HandleType × Oid

def HandleEntry.hold {Oid : Type} (e : HandleEntry Oid) : Hold Oid := (e.type, e.object)

/-- How an entry came to be: allocated for a new object, or derived from another entry by
`handle_transfer`. -/
inductive Origin (Pid Oid : Type)
  | fresh (p : Pid) (slot : Slot) (entry : HandleEntry Oid)
  | derived (src : Pid) (from' : HandleEntry Oid) (dst : Pid) (slot : Slot)
      (entry : HandleEntry Oid)
  deriving DecidableEq

/-- The kernel state. `mem` answers the coming allocations; `trail` records the entries written and
is not in the source. -/
structure Kernel (Pid Oid : Type) where
  proc : Pid → Option (Process Oid)
  obj : Oid → Option (Object Pid Oid)
  irq : Fin archNrIrqs → List (Option (IrqBinding Pid Oid))
  mem : ℕ → Mem
  trail : List (Origin Pid Oid)

variable {Pid Oid : Type}

/-- The kinds of object a handle type stands for. -/
def HandleType.fits : HandleType → Kind Pid Oid → Bool
  | .endpoint, .endpoint => true
  | .physmem, .physmem _ => true
  | .event, .event => true
  | .procWatch, .watch _ => true
  | .pipeRead, .pipe _ _ => true
  | .pipeWrite, .pipe _ _ => true
  | _, _ => false

/-- The handle types `handle_object_get` has no case for. -/
def HandleType.uncounted : HandleType → Bool
  | .vmar | .thread | .process => true
  | _ => false

/-- `pipe_open_read` and `pipe_open_write` count one more end. -/
def Kind.openEnd : HandleType → Kind Pid Oid → Kind Pid Oid
  | .pipeRead, .pipe r w => .pipe (r + 1) w
  | .pipeWrite, .pipe r w => .pipe r (w + 1)
  | _, k => k

/-- `pipe_close_read` and `pipe_close_write` count one end less. -/
def Kind.closeEnd : HandleType → Kind Pid Oid → Kind Pid Oid
  | .pipeRead, .pipe r w => .pipe (r - 1) w
  | .pipeWrite, .pipe r w => .pipe r (w - 1)
  | _, k => k

/-- `process_watch_unref` disarms the watch whichever reference is dropped. -/
def Kind.disarm : Kind Pid Oid → Kind Pid Oid
  | .watch w => .watch { w with armed := false }
  | k => k

def Object.withKind (ob : Object Pid Oid) (f : Kind Pid Oid → Kind Pid Oid) : Object Pid Oid :=
  { ob with kind := f ob.kind }

def Object.ref (ob : Object Pid Oid) : Object Pid Oid :=
  ⟨ob.kind, ob.refcount + 1, Nat.succ_pos _⟩

/-- One reference less; `none` when it was the last. -/
def Object.unref (ob : Object Pid Oid) : Option (Object Pid Oid) :=
  if h : 1 < ob.refcount then some ⟨ob.kind.disarm, ob.refcount - 1, by omega⟩ else none

section State
variable (k : Kernel Pid Oid)

def Kernel.table (p : Pid) : HandleTable Oid :=
  match k.proc p with
  | some pr => pr.handles
  | none => []

def Kernel.advance : Kernel Pid Oid :=
  { k with mem := fun n => k.mem (n + 1) }

def Kernel.record (r : Origin Pid Oid) : Kernel Pid Oid :=
  { k with trail := r :: k.trail }

/-- The allocated object a handle of this type can stand for. -/
def Kernel.typed (type : HandleType) (o : Oid) : Option (Object Pid Oid) :=
  (k.obj o).filter fun ob => type.fits ob.kind

def Kernel.setProc [DecidableEq Pid] (k : Kernel Pid Oid) (p : Pid)
    (v : Option (Process Oid)) : Kernel Pid Oid :=
  { k with proc := Function.update k.proc p v }

def Kernel.setTable [DecidableEq Pid] (k : Kernel Pid Oid) (p : Pid)
    (t : HandleTable Oid) : Kernel Pid Oid :=
  match k.proc p with
  | some pr => k.setProc p (some { pr with handles := t })
  | none => k

def Kernel.setObj [DecidableEq Oid] (k : Kernel Pid Oid) (o : Oid)
    (v : Option (Object Pid Oid)) : Kernel Pid Oid :=
  { k with obj := Function.update k.obj o v }

variable {pr : Process Oid} {p : Pid}

@[simp] theorem setObj_proc [DecidableEq Oid] (o : Oid) (v : Option (Object Pid Oid)) :
    (k.setObj o v).proc = k.proc := rfl

@[simp] theorem setObj_obj_self [DecidableEq Oid] (o : Oid) (v : Option (Object Pid Oid)) :
    (k.setObj o v).obj o = v := by simp [Kernel.setObj]

theorem setObj_obj_of_ne [DecidableEq Oid] {o x : Oid} (v : Option (Object Pid Oid)) (h : x ≠ o) :
    (k.setObj o v).obj x = k.obj x := by simp [Kernel.setObj, h]

@[simp] theorem setTable_obj [DecidableEq Pid] (p : Pid) (t : HandleTable Oid) :
    (k.setTable p t).obj = k.obj := by
  unfold Kernel.setTable
  split <;> rfl

@[simp] theorem setTable_irq [DecidableEq Pid] (p : Pid) (t : HandleTable Oid) :
    (k.setTable p t).irq = k.irq := by
  unfold Kernel.setTable
  split <;> rfl

@[simp] theorem setTable_trail [DecidableEq Pid] (p : Pid) (t : HandleTable Oid) :
    (k.setTable p t).trail = k.trail := by
  unfold Kernel.setTable
  split <;> rfl

theorem table_of_proc (h : k.proc p = some pr) : k.table p = pr.handles := by
  unfold Kernel.table
  rw [h]

theorem table_of_proc_none (h : k.proc p = none) : k.table p = [] := by
  unfold Kernel.table
  rw [h]

theorem table_congr {k k' : Kernel Pid Oid} (h : k'.proc = k.proc) : k'.table = k.table := by
  funext p
  unfold Kernel.table
  rw [h]

theorem setTable_proc_of_some [DecidableEq Pid] (t : HandleTable Oid) (h : k.proc p = some pr) :
    (k.setTable p t).proc = Function.update k.proc p (some { pr with handles := t }) := by
  unfold Kernel.setTable
  rw [h]
  rfl

/-- Replacing the table of a process replaces it in the family of tables. -/
theorem table_setTable [DecidableEq Pid] (t : HandleTable Oid) (h : k.proc p = some pr) :
    (k.setTable p t).table = Function.update k.table p t := by
  funext q
  unfold Kernel.table
  rw [setTable_proc_of_some k t h]
  by_cases hq : q = p
  · subst hq; simp
  · simp [hq]

theorem table_setProc [DecidableEq Pid] (p : Pid) (v : Option (Process Oid)) : (k.setProc p v).table
      = Function.update k.table p (match v with | some pr => pr.handles | none => []) := by
  funext q
  unfold Kernel.table Kernel.setProc
  by_cases hq : q = p
  · subst hq; simp
  · simp [hq]

end State

section Handles
variable [DecidableEq Oid]

section
variable (k : Kernel Pid Oid)

/-- Drop a reference to an object that holds no reference itself. -/
def Kernel.release (o : Oid) : Option (Kernel Pid Oid) :=
  (k.obj o).map fun ob => k.setObj o ob.unref

/-- `endpoint_unref` and its like. The last reference to a watch drops the event the watch
signals. -/
def Kernel.unref (k : Kernel Pid Oid) (o : Oid) (ob : Object Pid Oid) : Option (Kernel Pid Oid) :=
  match ob.unref, ob.kind with
  | none, .watch w => (k.setObj o none).release w.notif
  | v, _ => some (k.setObj o v)

def handleObjectGet (type : HandleType) (o : Oid) : Option (Kernel Pid Oid) :=
  if type.uncounted then some k else (k.typed type o).map fun ob => k.setObj o (some ob.ref)

def handleObjectPut (type : HandleType) (o : Oid) : Option (Kernel Pid Oid) :=
  if type.uncounted then some k else (k.typed type o).bind fun ob => k.unref o ob

/-- `handle_object_open`: a reference, and for a pipe an end. -/
def handleObjectOpen (type : HandleType) (o : Oid) : Option (Kernel Pid Oid) :=
  if type.uncounted then some k
  else (k.typed type o).map fun ob => k.setObj o (some (ob.withKind (Kind.openEnd type)).ref)

/-- `handle_object_destroy`: drop an entry's reference, and for a pipe its end. -/
def handleObjectDestroy (type : HandleType) (o : Oid) : Option (Kernel Pid Oid) :=
  if type.uncounted then some k
  else (k.typed type o).bind fun ob => k.unref o (ob.withKind (Kind.closeEnd type))

/-- `handle_acquire`, with a temporary reference to the object. The inner `none` is `-EINVAL`;
`expected = none` accepts every type. -/
def handleAcquire (p : Pid) (h : ℕ) (expected : Option HandleType) :
    Option (Kernel Pid Oid × Option (HandleEntry Oid)) :=
  match (k.table p)[h]? with
  | some (some e) =>
    if expected.all (· = e.type) then
      (handleObjectGet k e.type e.object).map fun k' => (k', some e)
    else some (k, none)
  | _ => some (k, none)

end

variable [DecidableEq Pid] (k : Kernel Pid Oid) (p : Pid)

/-- `handle_alloc_at` in the table of `p`; with `HANDLE_INVALID` as the hint it is
`handle_alloc`. -/
def allocSlot (e : HandleEntry Oid) (hint : ℕ) : Option (Kernel Pid Oid × Slot) :=
  match k.proc p with
  | none => some (k, .invalid)
  | some pr =>
    (handleAllocAtIn (k.mem 0) pr.handles e hint).map fun r =>
      (k.advance.setTable p r.1, r.2)

/-- `handle_alloc` for a new object. -/
def handleAlloc (type : HandleType) (o : Oid) (name : CString) :
    Option (Kernel Pid Oid × Option ℕ) :=
  (allocSlot k p (freshEntry type o name) handleInvalid).map fun
    | (k', .at h) => (k'.record (.fresh p (.at h) (freshEntry type o name)), some h)
    | (k', _) => (k', none)

/-- `handle_free`: an index outside the table or a free slot is ignored. -/
def handleFree (h : ℕ) : Option (Kernel Pid Oid) :=
  match (k.table p)[h]? with
  | some (some e) =>
    (handleObjectDestroy k e.type e.object).map fun k' =>
      k'.setTable p ((k'.table p).set h none)
  | _ => some k

def setRights (h : ℕ) (r : Rights) : Kernel Pid Oid :=
  k.setTable p ((k.table p).modify h (Option.map fun e => { e with rights := r }))

/-- The rights `handle_transfer` leaves on the new entry. -/
def transferRights (src rights : Rights) : Rights :=
  if rights = 0#32 then src else src &&& rights

/-- The end of `handle_transfer`, after `handle_alloc_at` returned `h`: the rights are narrowed only
when `h` is inside the table. -/
def transferInto (src : Pid) (e : HandleEntry Oid) (dst : Pid) (slot : Slot)
    (h : ℕ) (e' : HandleEntry Oid) (rights : Rights) : Option (Kernel Pid Oid × Option ℕ) := do
  let k ← handleObjectOpen k e.type e.object
  let k ← handleObjectPut k e.type e.object
  if h < (k.table dst).length then
    let narrowed := { e' with rights := transferRights e.rights rights }
    some ((setRights k dst h narrowed.rights).record (.derived src e dst slot narrowed), some h)
  else some (k.record (.derived src e dst slot e'), some h)

/-- `handle_transfer`. The inner `none` is `HANDLE_INVALID`. -/
def handleTransfer (src : Pid) (srcH : ℕ) (dst : Pid)
    (name : Option CString) (hint : ℕ) (rights : Rights) : Option (Kernel Pid Oid × Option ℕ) := do
  if (k.proc dst).isNone then return (k, none)
  match ← handleAcquire k src srcH none with
  | (k, none) => some (k, none)
  | (k, some e) =>
    if src ≠ dst ∧ !e.rights.has handleRightTransfer then
      let k ← handleObjectPut k e.type e.object
      some (k, none)
    else
      let e' := freshEntry e.type e.object (name.getD e.name)
      match ← allocSlot k dst e' hint with
      | (k, .invalid) =>
        let k ← handleObjectPut k e.type e.object
        some (k, none)
      | (k, .at h) => transferInto k src e dst (.at h) h e' rights
      | (k, .stray h) => transferInto k src e dst (.stray h) h e' rights

def handleTableDestroy (k : Kernel Pid Oid) : HandleTable Oid → Option (Kernel Pid Oid)
  | [] => some k
  | none :: t => handleTableDestroy k t
  | some e :: t => do handleTableDestroy (← handleObjectDestroy k e.type e.object) t

/-- `process_destroy` as far as handles go: the table is destroyed and freed. -/
def processDestroy : Option (Kernel Pid Oid) :=
  (handleTableDestroy k (k.table p)).map fun k' => k'.setProc p none

end Handles

end Xnix
