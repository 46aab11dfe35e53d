import Xnix.Blocking
import Xnix.Ipc

/-!
# Calls and replies at lock granularity

`ipc_send_to_ep`, `ipc_receive`, `ipc_reply` and `ipc_reply_to` of `kernel/ipc/endpoint.c` on any
number of CPUs. Each section under a lock is one step, with what the thread does before it; storing
the message pointers is a step of its own. So a thread has joined a queue, or woken its receiver,
some time before it stores its pointers, and stores these some time before it is on `blocked_list`.
`tables` is any change of handle tables by other threads and `poke` a `sched_wakeup_thread` from
elsewhere.
-/

namespace Xnix

/-- The blocking points of a call that waits for its reply. -/
def Wait.isCall {Oid : Type} : Wait Oid → Bool
  | .callQueued _ | .callSent _ => true
  | _ => false

variable {Pid Oid Tid : Type}

section State
variable (Pid Oid Tid : Type)

/-- Where a thread is: before the lock of the endpoint, between taking the other side off a queue
and the copy (`handOver`, `take`), before the message pointers are stored (`publish`) and before
`sched_block_timeout` (`block`). A replier is at `lookup`, then at `answer`; `own` tells `ipc_reply`
from `ipc_reply_to`. -/
inductive CallPc
  | user
  | send (ep : Oid)
  | handOver (ep : Oid) (r : Tid) (recv : ℕ)
  | receive (ep : Oid)
  | take (ep : Oid) (u : Tid) (request : ℕ)
  | publish (w : Wait Oid)
  | block (w : Wait Oid)
  | asleep (w : Wait Oid)
  | lookup (u : Tid) (request : ℕ) (m : IpcMessage Pid Tid) (own : Bool)
  | answer (u : Tid) (request : ℕ) (m : IpcMessage Pid Tid) (own : Bool)
  deriving DecidableEq

/-- A thread's part in IPC. `op` counts its operations, and the message pointers hold the number of
the operation whose message they point to. `peerOp` and `took` are the requests that `ipc_peer` and
the present receive got. -/
structure CallJob where
  pc : CallPc Pid Oid Tid
  op : ℕ
  timeout : ℕ
  req : Option (IpcMessage Pid Tid)
  buf : Option (IpcMessage Pid Tid)
  ipcReqMsg : Option ℕ
  ipcReplyMsg : Option ℕ
  ipcPeer : Option Tid
  peerOp : ℕ
  took : Option (Tid × ℕ)
  deriving DecidableEq

/-- What has happened to the operation `op` of `u`. A reply that returned 0 has the handles that
were passed. -/
inductive CallEvent
  | called (u : Tid) (op : ℕ)
  | received (t u : Tid) (op : ℕ)
  | expired (u : Tid) (op : ℕ)
  | replied (t u : Tid) (op : ℕ) (m : IpcMessage Pid Tid) (got : List ℕ)
  | refused (t u : Tid) (op : ℕ)
  | ret (u : Tid) (op : ℕ) (r : ℤ) (buf : Option (IpcMessage Pid Tid))
  deriving DecidableEq

structure CallSys where
  kernel : Kernel Pid Oid
  owner : Tid → Pid
  links : Lib.Links (Queue Oid) Tid
  job : Tid → CallJob Pid Oid Tid
  sched : Tid → Waiter
  log : List (CallEvent Pid Tid)

inductive CallAction
  | send (t : Tid) (ep : Oid) (m : IpcMessage Pid Tid) (room : Option (IpcMessage Pid Tid))
      (timeout : ℕ)
  | receive (t : Tid) (ep : Oid) (room : IpcMessage Pid Tid) (timeout : ℕ)
  | reply (t : Tid) (m : IpcMessage Pid Tid)
  | replyTo (t u : Tid) (request : ℕ) (m : IpcMessage Pid Tid)
  | next (t : Tid)
  | expire (t : Tid)
  | poke (u : Tid)
  | tables (k : Kernel Pid Oid)

end State

section Step
variable [DecidableEq Tid]

/-- The message that `ipc_reply_msg` points to; `none` for a null pointer and for one whose target
has been freed. -/
def CallJob.replyTarget (j : CallJob Pid Oid Tid) : Option (IpcMessage Pid Tid) :=
  if j.ipcReplyMsg = some j.op then j.buf else none

def CallJob.reqTarget (j : CallJob Pid Oid Tid) : Option (IpcMessage Pid Tid) :=
  if j.ipcReqMsg = some j.op then j.req else none

def CallJob.unpublished (j : CallJob Pid Oid Tid) : CallJob Pid Oid Tid :=
  { j with ipcReqMsg := none, ipcReplyMsg := none }

section
variable (s : CallSys Pid Oid Tid) (t : Tid)

def CallSys.modify (f : CallJob Pid Oid Tid → CallJob Pid Oid Tid) : CallSys Pid Oid Tid :=
  { s with job := Function.update s.job t (f (s.job t)) }

def CallSys.setPc (pc : CallPc Pid Oid Tid) : CallSys Pid Oid Tid :=
  s.modify t fun j => { j with pc := pc }

def CallSys.setSched (w : Waiter) : CallSys Pid Oid Tid :=
  { s with sched := Function.update s.sched t w }

def CallSys.record (e : CallEvent Pid Tid) : CallSys Pid Oid Tid :=
  { s with log := e :: s.log }

def CallSys.start (pc : CallPc Pid Oid Tid)
    (req buf : Option (IpcMessage Pid Tid)) (timeout : ℕ) : CallSys Pid Oid Tid :=
  s.modify t fun j =>
    { j with pc := pc, op := j.op + 1, timeout := timeout, req := req, buf := buf, took := none }

/-- The kernel messages of the operation are freed. -/
def CallJob.returned (j : CallJob Pid Oid Tid) : CallJob Pid Oid Tid :=
  { j with pc := .user, req := none, buf := none }

/-- `ipc_send_to_ep` returns after it has blocked: the message pointers are cleared. -/
def CallSys.sendReturn (r : ℤ) : CallSys Pid Oid Tid :=
  (s.modify t fun j => j.unpublished.returned).record (.ret t (s.job t).op r (s.job t).buf)

def CallSys.recvReturn (r : ℤ) : CallSys Pid Oid Tid :=
  match (s.job t).took with
  | some (u, k) =>
    if r = 0 then (s.modify t CallJob.returned).record (.received t u k)
      else s.modify t CallJob.returned
  | none => s.modify t CallJob.returned

def CallSys.finish (w : Wait Oid) (r : ℤ) : CallSys Pid Oid Tid :=
  match w with
  | .recv _ => s.recvReturn t r
  | _ => s.sendReturn t r

def CallSys.publish (w : Wait Oid) : CallSys Pid Oid Tid :=
  match w with
  | .recv _ => s.modify t fun j => { j with pc := .block w, ipcReplyMsg := some j.op }
  | _ =>
    s.modify t fun j =>
      { j with pc := .block w, ipcReqMsg := some j.op, ipcReplyMsg := j.buf.map fun _ => j.op }

def CallSys.block (s : CallSys Pid Oid Tid) (t : Tid) (w : Wait Oid) : CallSys Pid Oid Tid :=
  if (s.sched t).pendingWakeup then (s.setSched t (s.sched t).block).finish t w 0
  else (s.setSched t (s.sched t).block).setPc t (.asleep w)

/-- A receive of `dst` learns who sent its message. -/
def CallSys.stampSender (src dst : Tid) (request : ℕ) (took : Option (Tid × ℕ)) :
  CallSys Pid Oid Tid := s.modify dst fun j =>
    { j with
      ipcPeer := some src
      peerOp := request
      took := took
      buf := j.buf.map fun m => { m with senderTid := some src, senderPid := some (s.owner src) } }

end

variable [DecidableEq Pid] [DecidableEq Oid]

/-- A thread that has been made ready goes on after `schedule`. When its time came it takes itself
off the queue. -/
def CallSys.resume [Fintype Tid] (s : CallSys Pid Oid Tid) (t : Tid) (w : Wait Oid) :
    Option (CallSys Pid Oid Tid) :=
  if (s.sched t).run = .woken then
    if (s.sched t).expired then
      match w.queue with
      | none => some ((s.setSched t (s.sched t).resume).finish t w (-eTimedOut))
      | some q =>
        (s.links.unlink q t).map fun L =>
          ({ s with links := L.clear t }.setSched t (s.sched t).resume).finish t w (-eTimedOut)
    else some ((s.setSched t (s.sched t).resume).finish t w 0)
  else some s

section
variable (s : CallSys Pid Oid Tid)

/-- `ipc_copy_msg` of a message of `src` into the buffer of `dst`, with the handles that were
passed. -/
def CallSys.copyMsg (src dst : Tid) (m room : IpcMessage Pid Tid) :
    Option (CallSys Pid Oid Tid × List ℕ) :=
  (ipcCopyHandles s.kernel (s.owner src) (s.owner dst) m.handles).map fun x =>
    ({ s with kernel := x.1 }.modify dst fun j => { j with buf := some (room.copyFrom m x.2) }, x.2)

/-- `ipc_send_to_ep` under the lock of the endpoint. -/
def CallSys.sendHead (t : Tid) (ep : Oid) : CallSys Pid Oid Tid :=
  match s.links.head (.recv, ep) with
  | some r => { s with links := s.links.drop (.recv, ep) r }.setPc t (.handOver ep r (s.job r).op)
  | none =>
    { s with links := s.links.push (.send, ep) t }.setPc t
      (.publish (if (s.job t).req.any IpcMessage.isOneWay then .sendQueued ep else .callQueued ep))

/-- The sender writes through the receiver's buffer pointer without looking at it, and wakes the
receiver. -/
def CallSys.handOver (t r : Tid) (ep : Oid) : Option (CallSys Pid Oid Tid) := do
  let m ← (s.job t).req
  let room ← (s.job r).replyTarget
  let (s, _) ← s.copyMsg t r m room
  let s := s.stampSender t r (s.job t).op (some (t, (s.job t).op))
  let s := s.setSched r (s.sched r).wakeup
  if m.isOneWay then some ((s.modify t CallJob.returned).record
    (.ret t (s.job t).op 0 (s.job t).buf))
  else some (s.setPc t (.publish (.callSent ep)))

/-- `ipc_receive` under the lock of the endpoint. -/
def CallSys.recvHead (t : Tid) (ep : Oid) : CallSys Pid Oid Tid :=
  match s.links.head (.send, ep) with
  | some u => { s with links := s.links.drop (.send, ep) u }.setPc t (.take ep u (s.job u).op)
  | none => { s with links := s.links.push (.recv, ep) t }.setPc t (.publish (.recv ep))

/-- The receiver copies the message of the sender it took off the queue, if there is one. A one-way
sender is woken.
-/
def CallSys.take (t u : Tid) (request : ℕ) : Option (CallSys Pid Oid Tid) :=
  match (s.job u).ipcReqMsg with
  | none => some ((s.stampSender u t request none).recvReturn t 0)
  | some _ => do
    let m ← (s.job u).reqTarget
    let room ← (s.job t).buf
    let (s, _) ← s.copyMsg u t m room
    let s := s.stampSender u t request (some (u, request))
    let s := if m.isOneWay then (s.modify u CallJob.unpublished).setSched u (s.sched u).wakeup
      else s
    some (s.recvReturn t 0)

/-- `sched_lookup_blocked` in `ipc_reply` and `ipc_reply_to`. -/
def CallSys.lookup (t u : Tid) (request : ℕ) (m : IpcMessage Pid Tid) (own : Bool) :
    CallSys Pid Oid Tid :=
  if (s.sched u).run = .blocked then s.setPc t (.answer u request m own)
  else (s.setPc t .user).record (.refused t u request)

/-- The copy of a reply; nothing is copied for a null pointer. -/
def CallSys.copyReply (t u : Tid) (m : IpcMessage Pid Tid) :
    Option (CallSys Pid Oid Tid × List ℕ) :=
  match (s.job u).ipcReplyMsg with
  | none => some (s, [])
  | some _ => (s.job u).replyTarget.bind fun room => s.copyMsg t u m room

/-- The replier copies its message, clears the message pointers and wakes the sender. -/
def CallSys.answer (t u : Tid) (request : ℕ) (m : IpcMessage Pid Tid)
    (own : Bool) : Option (CallSys Pid Oid Tid) :=
  (s.copyReply t u m).map fun x =>
    let s := x.1.modify u CallJob.unpublished
    let s := s.modify t fun j =>
      { j with pc := .user, ipcPeer := if own then none else j.ipcPeer }
    (s.setSched u (s.sched u).wakeup).record (.replied t u request m x.2)

end

variable [Fintype Tid]

def CallSys.next (s : CallSys Pid Oid Tid) (t : Tid) : Option (CallSys Pid Oid Tid) :=
  match (s.job t).pc with
  | .user => some s
  | .send ep => some (s.sendHead t ep)
  | .handOver ep r _ => s.handOver t r ep
  | .receive ep => some (s.recvHead t ep)
  | .take _ u request => s.take t u request
  | .publish w => some (s.publish t w)
  | .block w => some (s.block t w)
  | .asleep w => s.resume t w
  | .lookup u request m own => some (s.lookup t u request m own)
  | .answer u request m own => s.answer t u request m own

def CallSys.step (s : CallSys Pid Oid Tid) :
    CallAction Pid Oid Tid → Option (CallSys Pid Oid Tid)
  | .send t ep m room timeout =>
    match (s.job t).pc with
    | .user =>
      if m.isOneWay then some (s.start t (.send ep) (some m) room timeout)
      else some ((s.start t (.send ep) (some m) room timeout).record (.called t ((s.job t).op + 1)))
    | _ => some s
  | .receive t ep room timeout =>
    match (s.job t).pc with
    | .user => some (s.start t (.receive ep) none (some room) timeout)
    | _ => some s
  | .reply t m =>
    match (s.job t).pc with
    | .user =>
      match (s.job t).ipcPeer with
      | some u => some (s.setPc t (.lookup u (s.job t).peerOp m true))
      | none => some s
    | _ => some s
  | .replyTo t u request m =>
    match (s.job t).pc with
    | .user => some (s.setPc t (.lookup u request m false))
    | _ => some s
  | .next t => s.next t
  | .expire t =>
    match (s.job t).pc with
    | .asleep _ =>
      if 0 < (s.job t).timeout ∧ (s.sched t).run = .blocked then
        some ((s.setSched t (s.sched t).expire).record (.expired t (s.job t).op))
      else some s
    | _ => some s
  | .poke u => some (s.setSched u (s.sched u).wakeup)
  | .tables k => some { s with kernel := k }

end Step

def CallJob.fresh : CallJob Pid Oid Tid :=
  ⟨.user, 0, 0, none, none, none, none, none, 0, none⟩

structure CallSys.Init (s : CallSys Pid Oid Tid) : Prop where
  links : s.links = ⟨fun _ => none, fun _ => none⟩
  job : ∀ t, s.job t = .fresh
  sched : ∀ t, (s.sched t).run = .running
  log : s.log = []

end Xnix
