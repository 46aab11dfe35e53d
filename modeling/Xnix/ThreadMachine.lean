import Xnix.HandleMachine
import Xnix.Ipc

/-!
# The machine of threads

Events (`kernel/ipc/event.c`), pipes (`pipe.c`), sleeping, signals (`process/lifecycle.c`) and the
system calls over them, as the actions of one machine. A thread in user mode starts a system call, a
ready thread goes on from its blocking point, or the timer ticks.
-/

namespace Xnix

variable {Pid Oid Tid : Type}

section Objects
variable [DecidableEq Tid] [DecidableEq Pid] [DecidableEq Oid]

/-- `reader_count` and `writer_count`; `none` when there is no pipe at the address. -/
def pipeCounts (k : Kernel Pid Oid) (o : Oid) : Option (ℕ × ℕ) :=
  match (k.obj o).map Object.kind with
  | some (.pipe r w) => some (r, w)
  | _ => none

variable [Fintype Tid] (s : Sys Pid Oid Tid)

def eventSignalByPtr (o : Oid) (bits : BitVec 32) : Option (Sys Pid Oid Tid) :=
  let pending := s.bits o ||| bits
  match s.links.head (.wait, o) with
  | none => some { s with bits := Function.update s.bits o pending }
  | some _ =>
    ({ s with bits := Function.update s.bits o 0#32 }.setLinks
      (s.links.takeAll (.wait, o)).2).wakeAll (fun th => { th with notifiedBits := pending })
        (s.links.takeAll (.wait, o)).1

/-- `event_wait` after its wakeup. -/
def Sys.eventReturn (t : Tid) (o : Oid) : Option (Sys Pid Oid Tid) :=
  (s.modify t fun th => { th with notifiedBits := 0#32 }).putReturn t (.event, o) none
    (toInt32 (s.thr t).notifiedBits.toNat)

def eventWait (t : Tid) (o : Oid) : Option (Sys Pid Oid Tid) :=
  if s.bits o ≠ 0#32 then
    { s with bits := Function.update s.bits o 0#32 }.putReturn t (.event, o) none
      (toInt32 (s.bits o).toNat)
  else (s.enqueue (.wait, o) t).block t ⟨.event o, 0⟩ fun s => s.eventReturn t o

/-- The loop of `pipe_read`, for a buffer of which `limit` bytes are writable. Bytes leave the ring
before they are copied, so a fault loses one. A pending wakeup is used up by the first pass. -/
def pipeRead (t : Tid) (o : Oid) (size limit : ℕ) : ℕ → Sys Pid Oid Tid → Option (Sys Pid Oid Tid)
  | 0, _ => none
  | passes + 1, s =>
    if 0 < (s.ring o).length then
      let n := min (s.ring o).length size
      let taken := if n ≤ limit then n else limit + 1
      let s := { s with ring := Function.update s.ring o ((s.ring o).drop taken) }.record
        (.copied t ((s.ring o).take (min n limit)))
      (s.drain (.write, o)).bind fun s =>
        s.putReturn t (.pipeRead, o) none (if n ≤ limit then n else -eFault)
    else match pipeCounts s.kernel o with
    | none => none
    | some (_, 0) => s.putReturn t (.pipeRead, o) none 0
    | some (_, _ + 1) =>
      (s.enqueue (.read, o) t).block t ⟨.pipeRead o size limit, 0⟩ (pipeRead t o size limit passes)

/-- The loop of `pipe_write`, for a buffer of which `limit` bytes are readable, when `total` have
been written. One pass fills the ring, the next blocks, and a pending wakeup takes one more. -/
def pipeWrite (t : Tid) (o : Oid) (data : List UInt8) (limit : ℕ) :
    ℕ → ℕ → Sys Pid Oid Tid → Option (Sys Pid Oid Tid)
  | 0, _, _ => none
  | passes + 1, total, s =>
    match pipeCounts s.kernel o with
    | none => none
    | some (0, _) => s.putReturn t (.pipeWrite, o) none (-ePipe)
    | some (_ + 1, _) =>
      let space := pipeBufSize - 1 - (s.ring o).length
      if 0 < space then
        let n := min (data.length - total) space
        let m := min n (limit - total)
        let s := { s with
          ring := Function.update s.ring o (s.ring o ++ (data.drop total).take m) }
        (s.drain (.read, o)).bind fun s =>
          if m < n then
            s.putReturn t (.pipeWrite, o) none (if 0 < total then total else -eFault)
          else if data.length ≤ total + n then s.putReturn t (.pipeWrite, o) none (total + n : ℕ)
          else pipeWrite t o data limit passes (total + n) s
      else
        (s.enqueue (.write, o) t).block t ⟨.pipeWrite o data limit total, 0⟩
          (pipeWrite t o data limit passes total)

end Objects

section Signals
variable [DecidableEq Tid] [DecidableEq Pid] (s : Sys Pid Oid Tid)

def Sys.wakeFirst (p : Pid) : Sys Pid Oid Tid :=
  match (s.threads p).head? with
  | some u => schedWakeupThread s u
  | none => s

/-- `process_kill_one`, with `process_continue`. -/
def processKillOne (p : Pid) (sig : ℕ) : Sys Pid Oid Tid :=
  if sig = sigCont ∧ s.stopped p then
    { s with
      stopped := Function.update s.stopped p false
      sig := Function.update s.sig p (dropSig (s.sig p) sigCont) }.wakeFirst p
  else { s with sig := Function.update s.sig p (s.sig p ||| sigmask sig) }.wakeFirst p

def processKill (t : Tid) (p : Pid) (sig : ℕ) : Sys Pid Oid Tid :=
  if sig < 1 ∨ nSig ≤ sig then s.leave t none (-eInval)
  else match s.kernel.proc p with
  | none => s.leave t none (-eSrch)
  | some _ => (processKillOne s p sig).leave t none 0

end Signals

/-- The system calls that only make, copy, pass or drop handles. An address is where the allocator
puts the new object. -/
inductive HandleCmd (Pid Oid : Type)
  | endpointCreate (o : Oid) (name : CString)
  | eventCreate (o : Oid)
  | pipeCreate (o : Oid) (copied : Bool)
  | duplicate (srcH hint : ℕ) (name : UserName)
  | grant (pid : Pid) (srcH : ℕ) (name : UserName) (rights : Rights)
  | close (h : ℕ)

/-- The system calls of a thread; `request`, the request that a reply answers, is not seen by the
kernel. -/
inductive Cmd (Pid Oid Tid : Type)
  | send (h : ℕ) (m : IpcMessage Pid Tid) (timeout : ℕ)
  | call (h : ℕ) (m buf : IpcMessage Pid Tid) (timeout : ℕ)
  | recv (h : ℕ) (buf : IpcMessage Pid Tid) (timeout : ℕ)
  | reply (m : IpcMessage Pid Tid)
  | replyTo (tid : Tid) (m : IpcMessage Pid Tid) (request : ℕ)
  | eventSignal (h : ℕ) (bits : BitVec 32)
  | eventWait (h : ℕ)
  | pipeRead (h size limit : ℕ)
  | pipeWrite (h : ℕ) (data : List UInt8) (limit : ℕ)
  | sleep (ms : ℕ)
  | kill (p : Pid) (sig : ℕ)
  | handle (c : HandleCmd Pid Oid)

inductive Action (Pid Oid Tid : Type)
  | tick
  | run (t : Tid) (c : Cmd Pid Oid Tid)
  | resume (t : Tid)

section Handles
variable [DecidableEq Pid] [DecidableEq Oid]

def createResult (r : Kernel Pid Oid × Option ℕ) : Kernel Pid Oid × ℤ :=
  (r.1, match r.2 with | some h => toInt32 h | none => -eNoMem)

variable (k : Kernel Pid Oid) (p : Pid)

def HandleCmd.exec : HandleCmd Pid Oid → Option (Kernel Pid Oid × ℤ)
  | .endpointCreate o name =>
    if (k.proc p).any (capCheck · capIpcEndpoint) then
      (Xnix.endpointCreate k p o name).map createResult
    else some (k, -ePerm)
  | .eventCreate o => (Xnix.eventCreate k p o).map createResult
  | .pipeCreate o copied => sysPipeCreate k p o copied
  | .duplicate srcH hint name => sysHandleDuplicate k p srcH hint name
  | .grant pid srcH name rights => sysHandleGrant k p pid srcH name rights
  | .close h => sysHandleClose k p h

/-- The address a call takes for its new object. -/
def HandleCmd.makes : HandleCmd Pid Oid → Option Oid
  | .endpointCreate o _ | .eventCreate o | .pipeCreate o _ => some o
  | _ => none

/-- The queue `pipe_close_read` or `pipe_close_write` wakes when the last end of its side goes. -/
def closeWakes (h : ℕ) : Option (Queue Oid) :=
  match (k.table p)[h]? with
  | some (some e) =>
    match e.type, pipeCounts k e.object with
    | .pipeRead, some (r, _) => if r ≤ 1 then some (.write, e.object) else none
    | .pipeWrite, some (_, w) => if w ≤ 1 then some (.read, e.object) else none
    | _, _ => none
  | _ => none

def HandleCmd.wakes : HandleCmd Pid Oid → Option (Queue Oid)
  | .close h => closeWakes k p h
  | _ => none

end Handles

section Step
variable [DecidableEq Tid] [DecidableEq Pid] [DecidableEq Oid] [Fintype Tid]
  (s : Sys Pid Oid Tid) (t : Tid)

/-- `kzalloc` clears the queues and contents of a new object. -/
def Sys.newObject (o : Oid) : Sys Pid Oid Tid :=
  { s with
    links := { s.links with head := fun q => if q.2 = o then none else s.links.head q }
    bits := Function.update s.bits o 0#32
    ring := Function.update s.ring o [] }

variable (c : HandleCmd Pid Oid)

/-- The wakeups of a call that closes the last end of a side of a pipe. -/
def HandleCmd.before : Option (Sys Pid Oid Tid) :=
  match c.wakes s.kernel (s.thr t).owner with
  | some q => s.drain q
  | none => some s

def HandleCmd.after : Sys Pid Oid Tid :=
  match c.makes with
  | some o => s.newObject o
  | none => s

/-- A system call over handles. The allocator returns no address that is in use. -/
def runHandle : Option (Sys Pid Oid Tid) :=
  if c.makes.any fun o => (s.kernel.obj o).isSome then some s
  else (c.before s t).bind fun s =>
    (c.exec s.kernel (s.thr t).owner).map fun x : Kernel Pid Oid × ℤ =>
      (c.after { s with kernel := x.1 }).leave t none x.2

def Sys.hasCap (cap : BitVec 32) : Bool :=
  (s.kernel.proc (s.thr t).owner).any (capCheck · cap)

/-- `handle_acquire`, or the return of an error. -/
def Sys.withHandle (h : ℕ) (type : HandleType) (op : Option (OpKind × ℕ)) (err : ℤ)
    (go : Sys Pid Oid Tid → HandleEntry Oid → Option (Sys Pid Oid Tid)) :
    Option (Sys Pid Oid Tid) :=
  (handleAcquire s.kernel (s.thr t).owner h (some type)).bind fun x =>
    match x.2 with
    | none => some ({ s with kernel := x.1 }.leave t op err)
    | some e => go { s with kernel := x.1 } e

/-- Start an IPC operation with its kernel messages. -/
def Sys.begin (req buf : Option (IpcMessage Pid Tid)) : Sys Pid Oid Tid :=
  { s.modify t fun th => { th with op := s.nextOp, req := req, buf := buf } with
    nextOp := s.nextOp + 1 }

def ipcSend (h : ℕ) (kind : OpKind) (m : IpcMessage Pid Tid)
    (reply : Option (IpcMessage Pid Tid)) (timeout : ℕ) : Option (Sys Pid Oid Tid) :=
  let op := some (kind, s.nextOp)
  let s := s.begin t (some m) reply
  if !s.hasCap t capIpcSend then some (s.leave t op (-ePerm))
  else s.withHandle t h .endpoint op (-eBadF) fun s e =>
    if !e.rights.has handleRightWrite then s.putReturn t (.endpoint, e.object) op (-ePerm)
    else ipcSendToEp s t e.object kind m timeout

def ipcRecv (h : ℕ) (buf : IpcMessage Pid Tid) (timeout : ℕ) : Option (Sys Pid Oid Tid) :=
  let op := some (.recv, s.nextOp)
  let s := s.begin t none (some { buf with handles := [], senderTid := none, senderPid := none })
  if !s.hasCap t capIpcRecv then some (s.leave t op (-ePerm))
  else s.withHandle t h .endpoint op (-eBadF) fun s e =>
    if !e.rights.has handleRightRead then s.putReturn t (.endpoint, e.object) op (-ePerm)
    else ipcReceive s t e.object timeout

def Cmd.exec : Cmd Pid Oid Tid → Option (Sys Pid Oid Tid)
  | .send h m timeout =>
    ipcSend s t h .send { m with flags := m.flags ||| ipcFlagNoReply } none timeout
  | .call h m buf timeout =>
    ipcSend s t h .call { m with flags := m.flags &&& ~~~ ipcFlagNoReply }
      (some { buf with handles := [], senderTid := none, senderPid := none }) timeout
  | .recv h buf timeout => ipcRecv s t h buf timeout
  | .reply m => if !s.hasCap t capIpcSend then some (s.leave t none (-ePerm)) else ipcReply s t m
  | .replyTo tid m request =>
    if !s.hasCap t capIpcSend then some (s.leave t none (-ePerm)) else ipcReplyTo s t tid m request
  | .eventSignal h bits =>
    if bits = 0#32 then some (s.leave t none 0)
    else s.withHandle t h .event none 0 fun s e =>
      (eventSignalByPtr s e.object bits).bind fun s => s.putReturn t (.event, e.object) none 0
  | .eventWait h => s.withHandle t h .event none 0 fun s e => Xnix.eventWait s t e.object
  | .pipeRead h size limit =>
    s.withHandle t h .pipeRead none (-eBadF) fun s e =>
      if size = 0 then s.putReturn t (.pipeRead, e.object) none (-eInval)
      else Xnix.pipeRead t e.object size limit 2 s
  | .pipeWrite h data limit =>
    s.withHandle t h .pipeWrite none (-eBadF) fun s e =>
      if data.length = 0 then s.putReturn t (.pipeWrite, e.object) none (-eInval)
      else Xnix.pipeWrite t e.object data limit 3 0 s
  | .sleep ms => some (s.sleepAt t ⟨.sleep, waitTicks ms⟩)
  | .kill p sig => some (processKill s t p sig)
  | .handle c => runHandle s t c

/-- A thread whose timeout has fired goes on. Pipes wait without a timeout. -/
def Wait.expire : Wait Oid → Option (Sys Pid Oid Tid)
  | .sendQueued ep =>
    (s.withdraw (.send, ep) t).bind fun s =>
      (s.endpointUnref ep).bind fun s => s.sendReturn t ep .send (-eTimedOut)
  | .callQueued ep =>
    (s.withdraw (.send, ep) t).bind fun s =>
      (s.endpointUnref ep).bind fun s => s.sendReturn t ep .call (-eTimedOut)
  | .callSent ep => s.sendReturn t ep .call (-eTimedOut)
  | .recv ep =>
    (s.withdraw (.recv, ep) t).bind fun s =>
      (s.endpointUnref ep).bind fun s => s.recvReturn t ep (-eTimedOut)
  | .event _ | .pipeRead _ _ _ | .pipeWrite _ _ _ _ | .sleep | .stop => none

/-- A thread that was woken goes on. -/
def Wait.wake : Wait Oid → Option (Sys Pid Oid Tid)
  | .sendQueued ep => s.sendReturn t ep .send 0
  | .callQueued ep | .callSent ep => s.sendReturn t ep .call 0
  | .recv ep => s.recvReturn t ep 0
  | .event o => s.eventReturn t o
  | .pipeRead o size limit => Xnix.pipeRead t o size limit 2 s
  | .pipeWrite o data limit total => Xnix.pipeWrite t o data limit 3 total s
  | .sleep => some (s.leave t none 0)
  | .stop => some s

/-- `schedule` returns to a thread that blocked at `b`. -/
def Sys.goOn (b : Blocking Oid) : Option (Sys Pid Oid Tid) :=
  if b.expired (s.thr t) then b.on.expire (s.modify t b.on.resumed) t
  else b.on.wake (s.modify t b.on.resumed) t

def Sys.step : Action Pid Oid Tid → Option (Sys Pid Oid Tid)
  | .tick => some s.tick
  | .run t c => if (s.thr t).state = .ready ∧ (s.thr t).pc = none then c.exec s t else some s
  | .resume t =>
    if (s.thr t).state = .ready then
      match (s.thr t).pc with
      | some b => s.goOn t b
      | none => some s
    else some s

/-- A machine that has just started: every thread is in user mode and has done nothing. -/
structure Sys.Booted (s : Sys Pid Oid Tid) : Prop where
  kernel : Boot ⟨s.kernel, []⟩
  thr : ∀ t, ∃ p, s.thr t = ⟨p, .ready, none, 0, false, 0#32, 0, none, none, none, none, none, 0⟩
  head : ∀ q, s.links.head q = none
  blocked : s.blocked = []
  sig : ∀ p, s.sig p = 0#32
  nextOp : 0 < s.nextOp
  log : s.log = []

end Step

/-- A machine that has just started, for processes with the given threads. -/
def bootSys (owner : Tid → Pid) (threads : Pid → List Tid) : Sys Pid Oid Tid where
  kernel := (bootWorld Pid Oid).kernel
  thr := fun t => ⟨owner t, .ready, none, 0, false, 0#32, 0, none, none, none, none, none, 0⟩
  links := ⟨fun _ => none, fun _ => none⟩
  blocked := []
  now := 0
  bits := fun _ => 0#32
  ring := fun _ => []
  sig := fun _ => 0#32
  stopped := fun _ => false
  threads := threads
  nextOp := 1
  log := []

theorem booted_bootSys (owner : Tid → Pid) (threads : Pid → List Tid) :
    (bootSys owner threads : Sys Pid Oid Tid).Booted where
  kernel := boot_bootWorld Pid Oid
  thr := fun t => ⟨owner t, rfl⟩
  head := fun _ => rfl
  blocked := rfl
  sig := fun _ => rfl
  nextOp := Nat.one_pos
  log := rfl

end Xnix
