import Xnix.Kernel

/-!
# System calls over handles

The system calls that make, copy, pass and drop handles (`kernel/sys/sys_handle.c`, `sys_pipe.c`,
`sys_irq.c`, `sys_mm.c`, `process/spawn.c`, `process/watch.c` and the handle part of
`ipc/endpoint.c`), each taken as one step, and the machine whose actions they are.
-/

namespace Xnix

variable {Pid Oid : Type}

def ePerm : ℤ := 1
def eNoEnt : ℤ := 2
def eSrch : ℤ := 3
def eNoMem : ℤ := 12
def eFault : ℤ := 14
def eBusy : ℤ := 16
def eInval : ℤ := 22

def toInt32 (h : ℕ) : ℤ := if h < 2 ^ 31 then h else (h : ℤ) - 2 ^ 32

def capIpcSend : BitVec 32 := 1#32 <<< 0
def capIpcRecv : BitVec 32 := 1#32 <<< 1
def capIpcEndpoint : BitVec 32 := 1#32 <<< 2
def capProcessExec : BitVec 32 := 1#32 <<< 3
def capHandleGrant : BitVec 32 := 1#32 <<< 4
def capMmMmap : BitVec 32 := 1#32 <<< 5
def capIrq : BitVec 32 := 1#32 <<< 7

def capCheck (pr : Process Oid) (cap : BitVec 32) : Bool := pr.capMask &&& cap == cap

def capCheckIrq (pr : Process Oid) (irq : ℕ) : Bool :=
  irq < 32 && pr.capMask &&& capIrq != 0#32 && pr.irqMask.getLsbD irq

/-- A name argument: `NULL`, a pointer `copy_from_user` refuses, or a string. -/
inductive UserName
  | null
  | bad
  | str (s : CString)

structure SpawnHandle where
  src : ℕ
  name : CString
  rights : Rights

structure InheritFlags where
  stdio : Bool
  named : Bool
  all : Bool

def ipcMsgHandlesMax : ℕ := 4

def stdioNames : List CString :=
  [[115, 116, 100, 105, 110], [115, 116, 100, 111, 117, 116], [115, 116, 100, 101, 114, 114]]

def handleFind (t : HandleTable Oid) (name : CString) : Option ℕ :=
  t.findIdx? fun
    | some e => e.name = name
    | none => false

section Calls
variable [DecidableEq Oid] [DecidableEq Pid] (k : Kernel Pid Oid) (p : Pid)

/-- A new object with its references and its first entry; `undo` is what the caller does when no
slot is left. -/
def createWith (type : HandleType) (o : Oid) (ob : Object Pid Oid)
    (name : CString) (undo : Kernel Pid Oid → Option (Kernel Pid Oid)) :
    Option (Kernel Pid Oid × Option ℕ) :=
  if (k.mem 0).grant then do
    match ← handleAlloc (k.advance.setObj o (some ob)) p type o name with
    | (k, some h) => some (k, some h)
    | (k, none) => do
      let k ← undo k
      some (k, none)
  else some (k.advance, none)

/-- `kfree` of an object no entry names yet. -/
def kfreeObj (o : Oid) (k : Kernel Pid Oid) : Option (Kernel Pid Oid) := some (k.setObj o none)

def oneRef (kind : Kind Pid Oid) : Object Pid Oid := ⟨kind, 1, Nat.one_pos⟩

def endpointCreate (o : Oid) (name : CString) : Option (Kernel Pid Oid × Option ℕ) :=
  createWith k p .endpoint o (oneRef .endpoint) name (kfreeObj o)

def eventCreate (o : Oid) : Option (Kernel Pid Oid × Option ℕ) :=
  createWith k p .event o (oneRef .event) [] (kfreeObj o)

/-- `physmem_create_handle_for_proc`, and `physmem_create_fb_handle_for_proc` with its region. -/
def physmemCreateHandleForProc (o : Oid) (region : PhysmemRegion)
    (name : CString) : Option (Kernel Pid Oid × Option ℕ) :=
  createWith k p .physmem o (oneRef (.physmem region)) name fun k => handleObjectPut k .physmem o

/-- The region `shm_create` makes: `size` rounded up to pages, in 32-bit words. -/
def shmRegion (size : ℕ) : PhysmemRegion :=
  ⟨(size + pageSize - 1) % 2 ^ 32 / pageSize * pageSize % 2 ^ 32, .shm⟩

def sysShmCreate (o : Oid) (size : ℕ) : Option (Kernel Pid Oid × ℤ) :=
  match k.proc p with
  | none => some (k, -eInval)
  | some pr =>
    if size = 0 then some (k, -eInval)
    else if !capCheck pr capMmMmap then some (k, -ePerm)
    else
      (physmemCreateHandleForProc k p o (shmRegion size) []).map fun
        | (k, some h) => (k, toInt32 h)
        | (k, none) => (k, -eNoMem)

/-- `pipe_create`. When only the first end finds a slot, it is freed and the other reference dropped
by `pipe_close_read`. -/
def pipeCreate (o : Oid) : Option (Kernel Pid Oid × Option (ℕ × ℕ)) :=
  if (k.mem 0).grant then do
    match ← handleAlloc (k.advance.setObj o (some ⟨.pipe 1 1, 2, Nat.two_pos⟩)) p
      .pipeRead o [] with
    | (k, none) => do
      let k ← kfreeObj o k
      some (k, none)
    | (k, some rh) =>
      match ← handleAlloc k p .pipeWrite o [] with
      | (k, some wh) => some (k, some (rh, wh))
      | (k, none) => do
        let k ← handleFree k p rh
        let k ← handleObjectDestroy k .pipeRead o
        some (k, none)
  else some (k.advance, none)

/-- `sys_pipe_create`; `copied` says whether both results could be copied to the caller. -/
def sysPipeCreate (o : Oid) (copied : Bool) : Option (Kernel Pid Oid × ℤ) := do
  match ← pipeCreate k p o with
  | (k, none) => some (k, -eNoMem)
  | (k, some (rh, wh)) =>
    if copied then some (k, 0)
    else
      let k ← handleFree k p rh
      let k ← handleFree k p wh
      some (k, -eFault)

def sysHandleClose (h : ℕ) : Option (Kernel Pid Oid × ℤ) :=
  (handleFree k p h).map fun k => (k, 0)

/-- `handle_acquire` followed at once by `handle_object_put`, to look at an entry's rights. -/
def peekEntry (h : ℕ) : Option (Kernel Pid Oid × Option (HandleEntry Oid)) := do
  match ← handleAcquire k p h none with
  | (k, none) => some (k, none)
  | (k, some e) => do
    let k ← handleObjectPut k e.type e.object
    some (k, some e)

/-- The name a transfer is given, after `copy_from_user` and the terminating zero. -/
def UserName.arg : UserName → Option CString
  | .str s => some (clipName s)
  | _ => none

/-- The result of a transfer as the system calls return it. -/
def transferResult (r : Kernel Pid Oid × Option ℕ) : Kernel Pid Oid × ℤ :=
  (r.1, match r.2 with | some h => toInt32 h | none => -eInval)

def sysHandleDuplicate (srcH hint : ℕ) (name : UserName) : Option (Kernel Pid Oid × ℤ) := do
  match ← peekEntry k p srcH with
  | (k, none) => some (k, -eInval)
  | (k, some e) =>
    if !e.rights.has handleRightDuplicate then some (k, -ePerm)
    else match name with
    | .bad => some (k, -eFault)
    | name => (handleTransfer k p srcH p name.arg hint 0#32).map transferResult

def sysHandleGrant (p pid : Pid) (srcH : ℕ) (name : UserName) (rights : Rights) :
    Option (Kernel Pid Oid × ℤ) :=
  match k.proc p with
  | none => some (k, -ePerm)
  | some pr =>
    if !capCheck pr capHandleGrant then some (k, -ePerm)
    else do
      match ← peekEntry k p srcH with
      | (k, none) => some (k, -eInval)
      | (k, some e) =>
        if !e.rights.has handleRightTransfer then some (k, -ePerm)
        else if (k.proc pid).isNone then some (k, -eNoEnt)
        else match name with
        | .bad => some (k, -eFault)
        | name => (handleTransfer k p srcH pid name.arg handleInvalid rights).map transferResult

/-- The loop over `handles` in `ipc_copy_msg`. -/
def ipcTransferHandles (k : Kernel Pid Oid) (src dst : Pid) :
    List ℕ → Option (Kernel Pid Oid × List ℕ)
  | [] => some (k, [])
  | h :: hs => do
    let (k, r) ← handleTransfer k src h dst none handleInvalid 0#32
    let (k, got) ← ipcTransferHandles k src dst hs
    some (k, r.toList ++ got)

/-- The handle part of `ipc_copy_msg`, for a message from a thread of `src` to one of `dst`. -/
def ipcCopyHandles (src dst : Pid) (handles : List ℕ) : Option (Kernel Pid Oid × List ℕ) :=
  if 0 < handles.length ∧ handles.length ≤ ipcMsgHandlesMax then
    match k.proc src with
    | some pr => if capCheck pr capHandleGrant then ipcTransferHandles k src dst handles
      else some (k, [])
    | none => some (k, [])
  else some (k, [])

/-- A new `struct process_watch`, disarmed when the target is already a zombie. -/
def newWatch (target : Pid) (zombie : Bool) (notif : Oid) (bits : BitVec 32) :
    ProcessWatch Pid Oid :=
  ⟨if zombie then none else some target, notif, bits, !zombie⟩

/-- `process_watch_create`; `none` is `HANDLE_INVALID`. The wakeup of a zombie's event changes no
count and is left out. -/
def processWatchCreate (p target : Pid) (h : ℕ) (bits : BitVec 32) (o : Oid) :
    Option (Kernel Pid Oid × Option ℕ) :=
  match k.proc target with
  | none => some (k, none)
  | some tpr =>
    if bits = 0#32 then some (k, none)
    else do
      match ← handleAcquire k p h (some .event) with
      | (k, none) => some (k, none)
      | (k, some e) =>
        if (k.mem 0).grant then
          let watch := newWatch target tpr.zombie e.object bits
          match ← handleAlloc (k.advance.setObj o (some (oneRef (.watch watch)))) p .procWatch o []
            with
          | (k, some wh) => some (k, some wh)
          | (k, none) => do
            let k ← handleObjectPut k .procWatch o
            some (k, none)
        else do
          let k ← handleObjectPut k.advance e.type e.object
          some (k, none)

/-- The loop of `irq_bind_event`: the first free slot, unless the owner is found before it. -/
def bindSlot (p : Pid) : List (Option (IrqBinding Pid Oid)) → Option ℕ
  | [] => none
  | none :: _ => some 0
  | some b :: rest => if b.owner = p then none else (bindSlot p rest).map (· + 1)

/-- `event_ref` of a binding's event, which may be absent. -/
def refEvent : Option Oid → Option (Kernel Pid Oid)
  | some o => handleObjectGet k .event o
  | none => some k

/-- `event_unref` of a binding's event, which may be absent. -/
def unrefEvent : Option Oid → Option (Kernel Pid Oid)
  | some o => handleObjectPut k .event o
  | none => some k

def irqBindEvent (irq : ℕ) (p : Pid) (notif : Option Oid) (bits : BitVec 32) :
    Option (Kernel Pid Oid × ℤ) :=
  if h : irq < archNrIrqs then
    match bindSlot p (k.irq ⟨irq, h⟩) with
    | none => some (k, -eBusy)
    | some i => do
      let k ← refEvent k notif
      let slots := (k.irq ⟨irq, h⟩).set i (some ⟨p, notif, bits⟩)
      some ({ k with irq := Function.update k.irq ⟨irq, h⟩ slots }, 0)
  else some (k, -eInval)

/-- `sys_irq_bind`; `HANDLE_INVALID` binds without an event. -/
def sysIrqBind (irq h : ℕ) (bits : BitVec 32) : Option (Kernel Pid Oid × ℤ) :=
  match k.proc p with
  | none => some (k, -eSrch)
  | some pr =>
    if !capCheckIrq pr irq then some (k, -ePerm)
    else if h = handleInvalid then irqBindEvent k irq p none bits
    else do
      match ← handleAcquire k p h (some .event) with
      | (k, none) => some (k, -eInval)
      | (k, some e) =>
        let (k, ret) ← irqBindEvent k irq p (some e.object) bits
        let k ← handleObjectPut k e.type e.object
        some (k, ret)

/-- `irq_unbind_event`: the first slot the caller owns. -/
def irqUnbindEvent (irq : ℕ) (p : Pid) : Option (Kernel Pid Oid × ℤ) :=
  if h : irq < archNrIrqs then
    match (k.irq ⟨irq, h⟩).findIdx? (fun | some b => b.owner = p | none => false) with
    | none => some (k, -eNoEnt)
    | some i => do
      let k ← unrefEvent k ((k.irq ⟨irq, h⟩)[i]?.join.bind IrqBinding.notif)
      let slots := (k.irq ⟨irq, h⟩).set i none
      some ({ k with irq := Function.update k.irq ⟨irq, h⟩ slots }, 0)
  else some (k, -eInval)

/-- `spawn_transfer_handles`: a failed transfer is skipped. -/
def spawnTransferHandles (k : Kernel Pid Oid) (child creator : Pid) :
    List SpawnHandle → Option (Kernel Pid Oid)
  | [] => some k
  | s :: rest => do
    let (k, _) ← handleTransfer k creator s.src child (some s.name) handleInvalid s.rights
    spawnTransferHandles k child creator rest

def spawnInheritByNames (k : Kernel Pid Oid) (dst src : Pid) :
    List CString → Option (Kernel Pid Oid)
  | [] => some k
  | n :: rest =>
    match (k.table src).findIdx? (fun | some e => e.name ≠ [] ∧ e.name = n | none => false) with
    | none => spawnInheritByNames k dst src rest
    | some i =>
      if (handleFind (k.table dst) n).isNone then do
        let (k, _) ← handleTransfer k src i dst (some n) handleInvalid 0#32
        spawnInheritByNames k dst src rest
      else spawnInheritByNames k dst src rest

/-- One turn of the loops of `spawn_inherit_named_handles` and `spawn_inherit_all_handles` for slot
`i`. -/
def spawnInheritSlot (dst src : Pid) (needName : Bool) (i : ℕ) : Option (Kernel Pid Oid) :=
  match (k.table src)[i]? with
  | some (some e) =>
    if e.name = [] then
      if needName then some k
      else (handleTransfer k src i dst none handleInvalid 0#32).map Prod.fst
    else if (handleFind (k.table dst) e.name).isNone then
      (handleTransfer k src i dst (some e.name) handleInvalid 0#32).map Prod.fst
    else some k
  | _ => some k

def spawnInheritSlots (k : Kernel Pid Oid) (dst src : Pid) (needName : Bool) :
    List ℕ → Option (Kernel Pid Oid)
  | [] => some k
  | i :: rest => do
    spawnInheritSlots (← spawnInheritSlot k dst src needName i) dst src needName rest

def spawnInheritNamedHandles (dst src : Pid) : Option (Kernel Pid Oid) :=
  spawnInheritSlots k dst src true (List.range (k.table src).length)

def spawnInheritAllHandles (dst src : Pid) : Option (Kernel Pid Oid) :=
  spawnInheritSlots k dst src false (List.range (k.table src).length)

/-- The inheritance policy of `spawn_core`. -/
def spawnInherit (dst src : Pid) (flags : InheritFlags) : Option (Kernel Pid Oid) := do
  let k ← if flags.stdio then spawnInheritByNames k dst src stdioNames else some k
  if flags.all then spawnInheritAllHandles k dst src
  else if flags.named then spawnInheritNamedHandles k dst src
  else some k

/-- `spawn_core` from the new process on; `loads` says whether loading the image and creating its
thread succeed. -/
def spawnCore (p child : Pid) (handles : List SpawnHandle)
    (flags : InheritFlags) (loads : Bool) : Option (Kernel Pid Oid × ℤ) := do
  let k ← spawnTransferHandles k child p handles
  let k ← spawnInherit k child p flags
  if loads then some (k, 0)
  else
    let k ← processDestroy k child
    some (k, -eInval)

/-- `sys_exec` as far as handles go. The child takes over its creator's capabilities. -/
def sysExec (p child : Pid) (handles : List SpawnHandle)
    (flags : InheritFlags) (loads : Bool) : Option (Kernel Pid Oid × ℤ) :=
  match k.proc p with
  | none => some (k, -eInval)
  | some pr =>
    if !capCheck pr capProcessExec then some (k, -ePerm)
    else if (k.mem 0).grant then
      let k := k.advance.setProc child
        (some ⟨handleTableCreate, pr.capMask, pr.irqMask, false⟩)
      spawnCore k p child handles flags loads
    else some (k.advance, -eInval)

/-- `process_watch_signal_exit`: watches of an exiting process are disarmed. -/
def Kind.signalExit (p : Pid) : Kind Pid Oid → Kind Pid Oid
  | .watch w => if w.armed ∧ w.target = some p then .watch { w with armed := false, target := none }
    else .watch w
  | kd => kd

def processExit : Kernel Pid Oid :=
  match k.proc p with
  | none => k
  | some pr =>
    { k.setProc p (some { pr with zombie := true }) with
      obj := fun o => (k.obj o).map fun ob => ob.withKind (.signalExit p) }

end Calls

end Xnix
