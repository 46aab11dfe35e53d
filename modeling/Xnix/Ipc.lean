import Xnix.Thread

/-!
# Endpoints

`kernel/ipc/endpoint.c` over the state of `Xnix.Thread`, with the part of the system calls of
`kernel/sys/sys_ipc.c` that does not copy to or from user memory. Each function runs from where the
thread enters or wakes up to where it blocks or returns.
-/

namespace Xnix

variable {Pid Oid Tid : Type} [DecidableEq Tid]

section Signals

def nSig : ℕ := 32

def sigInt : ℕ := 2
def sigKill : ℕ := 9
def sigSegv : ℕ := 11
def sigTerm : ℕ := 15
def sigChld : ℕ := 17
def sigCont : ℕ := 18
def sigStop : ℕ := 19
def sigTstp : ℕ := 20

def sigmask (sig : ℕ) : BitVec 32 := 1#32 <<< (sig - 1)

def dropSig (pending : BitVec 32) (sig : ℕ) : BitVec 32 := pending &&& ~~~ (sigmask sig)

def hasSig (pending : BitVec 32) (sig : ℕ) : Bool := pending &&& sigmask sig != 0#32

/-- The fatal signal `process_check_signals` acts on, if one is pending. -/
def fatalSig (pending : BitVec 32) : Option ℕ :=
  [sigKill, sigInt, sigTerm, sigSegv].find? (hasSig pending)

variable [DecidableEq Pid] (s : Sys Pid Oid Tid) (t : Tid)

/-- `process_stop_current`. The parent is not waiting. -/
def processStopCurrent (sig : ℕ) : Sys Pid Oid Tid :=
  let p := (s.thr t).owner
  let s := { s with
    stopped := Function.update s.stopped p true
    sig := Function.update s.sig p (dropSig (s.sig p) sig) }
  if (s.thr t).pendingWakeup then s.modify t fun th => { th with pendingWakeup := false }
  else s.sleepAt t ⟨.stop, 0⟩

/-- `process_terminate_current`: every thread of the process exits, and stays in the wait queue it
is in. -/
def processTerminateCurrent (p : Pid) : Sys Pid Oid Tid :=
  { s with
    kernel := processExit s.kernel p
    thr := fun t => if (s.thr t).owner = p then { s.thr t with state := .exited } else s.thr t
    blocked := s.blocked.filter fun t => (s.thr t).owner ≠ p }

def processCheckSignals : Sys Pid Oid Tid :=
  let p := (s.thr t).owner
  let pending := dropSig (dropSig (s.sig p) sigCont) sigChld
  let s := { s with sig := Function.update s.sig p pending }
  if hasSig pending sigStop then processStopCurrent s t sigStop
  else if hasSig pending sigTstp then processStopCurrent s t sigTstp
  else match fatalSig pending with
  | some sig => processTerminateCurrent
    { s with sig := Function.update s.sig p (dropSig pending sig) } p
  | none => s

def Sys.returned (op : Option (OpKind × ℕ)) (r : ℤ) : Sys Pid Oid Tid :=
  (s.record (.ret t op r (s.thr t).buf)).modify t fun th => { th with req := none, buf := none }

/-- The thread returns from a system call, where signals are checked. -/
def Sys.leave (op : Option (OpKind × ℕ)) (r : ℤ) : Sys Pid Oid Tid :=
  processCheckSignals (s.returned t op r) t

end Signals

section Endpoint
variable [DecidableEq Pid] [DecidableEq Oid] (s : Sys Pid Oid Tid) (t : Tid)

def Sys.endpointRef (ep : Oid) : Option (Sys Pid Oid Tid) :=
  s.onKernel (handleObjectGet s.kernel .endpoint ep)

def Sys.endpointUnref (ep : Oid) : Option (Sys Pid Oid Tid) :=
  s.onKernel (handleObjectPut s.kernel .endpoint ep)

/-- `handle_object_put` of the entry a system call acquired, and the return to user mode. -/
def Sys.putReturn (x : Hold Oid) (op : Option (OpKind × ℕ)) (r : ℤ) : Option (Sys Pid Oid Tid) :=
  (s.onKernel (handleObjectPut s.kernel x.1 x.2)).map fun s => s.leave t op r

variable (th : Thread Pid Oid Tid)

/-- The message a pointer to the buffer of `u` leads to; `none` for a null pointer and for one whose
target has been freed. -/
def Thread.replyTarget : Option (IpcMessage Pid Tid) :=
  if th.ipcReplyMsg = some th.op then th.buf else none

def Thread.reqTarget : Option (IpcMessage Pid Tid) :=
  if th.ipcReqMsg = some th.op then th.req else none

/-- `ipc_copy_msg` of a message of `src` into the buffer of `dst`. -/
def Sys.copyMsg (src dst : Tid) (m room : IpcMessage Pid Tid) : Option (Sys Pid Oid Tid) :=
  (ipcCopyHandles s.kernel (s.thr src).owner (s.thr dst).owner m.handles).map fun x =>
    { s with kernel := x.1 }.modify dst fun th => { th with buf := some (room.copyFrom m x.2) }

/-- A receive of `dst` learns who sent its message. -/
def Sys.stampSender (src dst : Tid) : Sys Pid Oid Tid :=
  s.modify dst fun th =>
    { th with
      ipcPeer := some src
      peerOp := (s.thr src).op
      buf := th.buf.map fun m =>
        { m with senderTid := some src, senderPid := some (s.thr src).owner } }

def Thread.unpublished : Thread Pid Oid Tid :=
  { th with ipcReqMsg := none, ipcReplyMsg := none }

def Sys.sendReturn (ep : Oid) (kind : OpKind) (r : ℤ) : Option (Sys Pid Oid Tid) :=
  (s.modify t Thread.unpublished).putReturn t
    (.endpoint, ep) (some (kind, (s.thr t).op)) r

def Sys.recvReturn (ep : Oid) (r : ℤ) : Option (Sys Pid Oid Tid) :=
  s.putReturn t (.endpoint, ep) (some (.recv, (s.thr t).op)) r

/-- `current->ipc_req_msg = msg; current->ipc_reply_msg = reply_buf`. -/
def Sys.publish : Sys Pid Oid Tid :=
  s.modify t fun th =>
    { th with ipcReqMsg := some th.op, ipcReplyMsg := th.buf.map fun _ => th.op }

/-- `ipc_send_to_ep` with a receiver `r` waiting, up to its wakeup. The sender does not look at the
receiver's buffer pointer. -/
def Sys.handOver (t r : Tid) (ep : Oid) (m : IpcMessage Pid Tid) : Option (Sys Pid Oid Tid) := do
  let s ← (s.setLinks (s.links.drop (.recv, ep) r)).endpointUnref ep
  let room ← (s.thr r).replyTarget
  let s ← s.copyMsg t r m room
  let s := (s.stampSender t r).record (.took (s.thr t).op t (s.thr r).op r)
  s.wakeQueued r

/-- `ipc_send_to_ep` for the message `m` of `t`, whose kind is `send` when it is one-way. -/
def ipcSendToEp (ep : Oid) (kind : OpKind) (m : IpcMessage Pid Tid) (timeout : ℕ) :
    Option (Sys Pid Oid Tid) :=
  match s.links.head (.recv, ep) with
  | some r =>
    (s.handOver t r ep m).bind fun s =>
      if m.isOneWay then s.putReturn t (.endpoint, ep) (some (kind, (s.thr t).op)) 0
      else (s.publish t).block t ⟨.callSent ep, timeout⟩ fun s => s.sendReturn t ep kind 0
  | none =>
    (s.endpointRef ep).bind fun s =>
      ((s.enqueue (.send, ep) t).publish t).block t
        ⟨if m.isOneWay then .sendQueued ep else .callQueued ep, timeout⟩
        fun s => s.sendReturn t ep kind 0

/-- The copy in `ipc_receive` from the sender `u`: nothing is copied when `u` has no message any
more. -/
def Sys.takeMsg (t u : Tid) : Option (Sys Pid Oid Tid) :=
  match (s.thr u).ipcReqMsg with
  | none => some s
  | some _ => do
    let m ← (s.thr u).reqTarget
    let room ← (s.thr t).buf
    let s ← s.copyMsg u t m room
    some (s.record (.took (s.thr u).op u (s.thr t).op t))

/-- The sender's side of `ipc_receive`: a one-way sender is woken, a caller stays blocked. -/
def Sys.release (u : Tid) : Sys Pid Oid Tid :=
  if (s.thr u).reqTarget.any IpcMessage.isOneWay then
    schedWakeupThread (s.modify u Thread.unpublished) u
  else s

/-- `ipc_receive` with a sender `u` at the head of the send queue, up to its return. -/
def Sys.takeFrom (t u : Tid) (ep : Oid) : Option (Sys Pid Oid Tid) :=
  if (s.thr u).state = .exited then none
  else ((s.setLinks (s.links.drop (.send, ep) u)).endpointUnref ep).bind fun s =>
    (s.takeMsg t u).map fun s => (s.stampSender u t).release u

/-- `ipc_receive` on the endpoint, for the buffer of `t`. -/
def ipcReceive (ep : Oid) (timeout : ℕ) : Option (Sys Pid Oid Tid) :=
  match s.links.head (.send, ep) with
  | some u => (s.takeFrom t u ep).bind fun s => s.recvReturn t ep 0
  | none =>
    (s.endpointRef ep).bind fun s =>
      ((s.enqueue (.recv, ep) t).modify t fun th => { th with ipcReplyMsg := some th.op }).block t
        ⟨.recv ep, timeout⟩ fun s => s.recvReturn t ep 0

/-- The copy in `ipc_reply` and `ipc_reply_to`, for a reply that answers `request`. -/
def Sys.copyReply (t u : Tid) (m : IpcMessage Pid Tid) (request : ℕ) : Option (Sys Pid Oid Tid) :=
  match (s.thr u).ipcReplyMsg with
  | none => some s
  | some _ => do
    let room ← (s.thr u).replyTarget
    let s ← s.copyMsg t u m room
    some (s.record (.replied (s.thr u).op request))

/-- What `ipc_reply` and `ipc_reply_to` do to the blocked thread `u`. -/
def Sys.answer (t u : Tid) (m : IpcMessage Pid Tid) (request : ℕ) : Option (Sys Pid Oid Tid) :=
  (s.copyReply t u m request).map fun s => schedWakeupThread (s.modify u Thread.unpublished) u

def ipcReply (m : IpcMessage Pid Tid) : Option (Sys Pid Oid Tid) :=
  match (s.thr t).ipcPeer.bind (schedLookupBlocked s) with
  | none => some (s.leave t none (-eInval))
  | some u =>
    (s.answer t u m (s.thr t).peerOp).map fun s =>
      (s.modify t fun th => { th with ipcPeer := none }).leave t none 0

/-- `ipc_reply_to`, for a reply that answers `request`. -/
def ipcReplyTo (t tid : Tid) (m : IpcMessage Pid Tid) (request : ℕ) : Option (Sys Pid Oid Tid) :=
  match schedLookupBlocked s tid with
  | none => some (s.leave t none (-eInval))
  | some u => (s.answer t u m request).map fun s => s.leave t none 0

end Endpoint

end Xnix
