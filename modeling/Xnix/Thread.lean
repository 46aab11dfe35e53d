import Xnix.Lib.Chain
import Xnix.Syscall

/-!
# Threads, wait queues and the blocked list

The scheduler's side of blocking (`kernel/sched/blocked.c`, `sleep.c`) and the state that the IPC
primitives share. A thread is switched out only where it blocks, so a system call runs in one step
up to its first blocking point and from each blocking point to the next. `Tid` stands for the thread
structures.
-/

namespace Xnix

variable {Pid Oid Tid : Type}

def eBadF : ℤ := 9
def ePipe : ℤ := 32
def eTimedOut : ℤ := 65

def ipcMsgRegs : ℕ := 8

def ipcFlagNoReply : BitVec 32 := 1#32 <<< 2

def cfgSchedHz : ℕ := 100

def pipeBufSize : ℕ := 4096

/-- `struct ipc_message` in kernel memory. `buffer` is `none` for a null pointer and otherwise the
bytes up to its size. -/
structure IpcMessage (Pid Tid : Type) where
  regs : Vector (BitVec 32) ipcMsgRegs
  buffer : Option (List UInt8)
  handles : List ℕ
  flags : BitVec 32
  senderTid : Option Tid
  senderPid : Option Pid
  deriving DecidableEq

def IpcMessage.isOneWay (m : IpcMessage Pid Tid) : Bool := m.flags &&& ipcFlagNoReply != 0#32

/-- The buffer part of `ipc_copy_msg`: all of the source or nothing. -/
def copyBuffer (src dst : Option (List UInt8)) : Option (List UInt8) :=
  match src, dst with
  | some bytes, some room =>
    if 0 < bytes.length ∧ bytes.length ≤ room.length then some bytes else some []
  | _, room => room.map fun _ => []

/-- `ipc_copy_msg` on the message itself, with the handles that were passed. -/
def IpcMessage.copyFrom (dst src : IpcMessage Pid Tid) (got : List ℕ) : IpcMessage Pid Tid :=
  { dst with regs := src.regs, buffer := copyBuffer src.buffer dst.buffer, handles := got }

/-- `thread_state_t`; a thread that runs is ready. -/
inductive ThreadState
  | ready | blocked | exited
  deriving DecidableEq

/-- The queues linked by `wait_next`. -/
inductive QueueKind
  | send | recv | wait | read | write
  deriving DecidableEq

abbrev Queue (Oid : Type) := QueueKind × Oid

/-- The blocking points. `callSent` is a call whose message went to a waiting receiver at once. The
pipe loops carry what is left of their arguments. -/
inductive Wait (Oid : Type)
  | sendQueued (ep : Oid)
  | callQueued (ep : Oid)
  | callSent (ep : Oid)
  | recv (ep : Oid)
  | event (o : Oid)
  | pipeRead (o : Oid) (size limit : ℕ)
  | pipeWrite (o : Oid) (data : List UInt8) (limit total : ℕ)
  | sleep
  | stop
  deriving DecidableEq

/-- The queue a thread joins before it blocks. -/
def Wait.queue : Wait Oid → Option (Queue Oid)
  | .sendQueued ep | .callQueued ep => some (.send, ep)
  | .recv ep => some (.recv, ep)
  | .event o => some (.wait, o)
  | .pipeRead o _ _ => some (.read, o)
  | .pipeWrite o _ _ _ => some (.write, o)
  | .callSent _ | .sleep | .stop => none

/-- The handle entry that `handle_acquire` returned to the operation that blocks. -/
def Wait.hold : Wait Oid → Option (Hold Oid)
  | .sendQueued ep | .callQueued ep | .callSent ep | .recv ep => some (.endpoint, ep)
  | .event o => some (.event, o)
  | .pipeRead o _ _ => some (.pipeRead, o)
  | .pipeWrite o _ _ _ => some (.pipeWrite, o)
  | .sleep | .stop => none

/-- Where a blocked thread goes on, and its timeout in milliseconds (for `sleep` in ticks). -/
structure Blocking (Oid : Type) where
  on : Wait Oid
  timeout : ℕ
  deriving DecidableEq

inductive OpKind
  | send | call | recv
  deriving DecidableEq

/-- `struct thread`. A thread without a blocking point runs. `op` names the present or last IPC
operation, `req` and `buf` its kernel messages, `none` once freed; the message pointers hold the
number of the operation they point to, and `peerOp` is the one that set `ipcPeer`. -/
structure Thread (Pid Oid Tid : Type) where
  owner : Pid
  state : ThreadState
  pc : Option (Blocking Oid)
  wakeupTick : ℕ
  pendingWakeup : Bool
  notifiedBits : BitVec 32
  op : ℕ
  req : Option (IpcMessage Pid Tid)
  buf : Option (IpcMessage Pid Tid)
  ipcReqMsg : Option ℕ
  ipcReplyMsg : Option ℕ
  ipcPeer : Option Tid
  peerOp : ℕ

/-- What has happened: a message or a reply was copied, a system call returned, or bytes were copied
to a user buffer.
-/
inductive Event (Pid Tid : Type)
  | took (send : ℕ) (sender : Tid) (recv : ℕ) (receiver : Tid)
  | replied (call request : ℕ)
  | ret (t : Tid) (op : Option (OpKind × ℕ)) (r : ℤ) (buf : Option (IpcMessage Pid Tid))
  | copied (t : Tid) (bytes : List UInt8)
  deriving DecidableEq

/-- The system: `links` holds the queue heads and the `wait_next` fields, `bits` and `ring` the
contents of events and pipes, `threads` the thread lists. `nextOp` and `log` are not in the
source. -/
structure Sys (Pid Oid Tid : Type) where
  kernel : Kernel Pid Oid
  thr : Tid → Thread Pid Oid Tid
  links : Lib.Links (Queue Oid) Tid
  blocked : List Tid
  now : ℕ
  bits : Oid → BitVec 32
  ring : Oid → List UInt8
  sig : Pid → BitVec 32
  stopped : Pid → Bool
  threads : Pid → List Tid
  nextOp : ℕ
  log : List (Event Pid Tid)

section Scheduler
variable [DecidableEq Tid]

section
variable (s : Sys Pid Oid Tid) (t : Tid)

def Sys.modify (f : Thread Pid Oid Tid → Thread Pid Oid Tid) : Sys Pid Oid Tid :=
  { s with thr := Function.update s.thr t (f (s.thr t)) }

def Sys.setLinks (L : Lib.Links (Queue Oid) Tid) : Sys Pid Oid Tid :=
  { s with links := L }

def Sys.record (e : Event Pid Tid) : Sys Pid Oid Tid :=
  { s with log := e :: s.log }

def Sys.onKernel (r : Option (Kernel Pid Oid)) : Option (Sys Pid Oid Tid) :=
  r.map fun k => { s with kernel := k }

def schedWakeupThread (u : Tid) : Sys Pid Oid Tid :=
  { s.modify u fun th =>
      { th with
        pendingWakeup := true
        state := if u ∈ s.blocked ∨ th.state = .blocked then .ready else th.state } with
    blocked := s.blocked.erase u }

def schedLookupBlocked (tid : Tid) : Option Tid :=
  if tid ∈ s.blocked then some tid else none

/-- Milliseconds to ticks in 32 bits, rounded up and at least one. -/
def waitTicks (ms : ℕ) : ℕ := max 1 ((ms * cfgSchedHz % 2 ^ 32 + 999) % 2 ^ 32 / 1000)

/-- The `wakeup_tick` a blocking thread gets: `sched_block`, used by events and stops, leaves the
old one. -/
def Blocking.deadline (b : Blocking Oid) (now old : ℕ) : ℕ :=
  match b.on with
  | .event _ | .stop => old
  | .sleep => now + b.timeout
  | _ => if 0 < b.timeout then now + waitTicks b.timeout else 0

def Sys.sleepAt (b : Blocking Oid) : Sys Pid Oid Tid :=
  { s.modify t fun th =>
      { th with
        state := .blocked
        pc := some b
        wakeupTick := b.deadline s.now th.wakeupTick } with
    blocked := t :: s.blocked }

/-- `sched_block` and `sched_block_timeout`: with a wakeup pending the thread goes on at once. -/
def Sys.block (b : Blocking Oid)
    (goOn : Sys Pid Oid Tid → Option (Sys Pid Oid Tid)) : Option (Sys Pid Oid Tid) :=
  if (s.thr t).pendingWakeup then goOn (s.modify t fun th => { th with pendingWakeup := false })
  else some (s.sleepAt t b)

/-- What the sleeping functions write when the thread runs again: only `sleep_ticks` leaves
`pending_wakeup`, and only `sched_block` leaves `wakeup_tick`. -/
def Wait.resumed (w : Wait Oid) (th : Thread Pid Oid Tid) : Thread Pid Oid Tid :=
  match w with
  | .sleep => { th with pc := none, wakeupTick := 0 }
  | .event _ | .stop => { th with pc := none, pendingWakeup := false }
  | _ => { th with pc := none, pendingWakeup := false, wakeupTick := 0 }

/-- The blocking points that use `sched_block_timeout`. -/
def Wait.timed : Wait Oid → Bool
  | .event _ | .sleep | .stop => false
  | _ => true

/-- `sched_block_timeout` reports a timeout. -/
def Blocking.expired (b : Blocking Oid) (th : Thread Pid Oid Tid) : Bool :=
  b.on.timed && decide (0 < b.timeout ∧ th.wakeupTick = 0)

def Thread.due (th : Thread Pid Oid Tid) (now : ℕ) : Bool :=
  th.wakeupTick != 0 && th.wakeupTick ≤ now

/-- A timer tick with `sleep_check_wakeup`. The threads it wakes stay in their wait queues. -/
def Sys.tick : Sys Pid Oid Tid :=
  { s with
    now := s.now + 1
    thr := fun t =>
      if t ∈ s.blocked ∧ (s.thr t).due (s.now + 1) then
        { s.thr t with wakeupTick := 0, state := .ready }
      else s.thr t
    blocked := s.blocked.filter fun t => !(s.thr t).due (s.now + 1) }

/-- Wake a thread taken from a wait queue. One that has exited was freed while queued; there is no
next state then. -/
def Sys.wakeQueued (u : Tid) : Option (Sys Pid Oid Tid) :=
  if (s.thr u).state = .exited then none else some (schedWakeupThread s u)

end

/-- Wake every thread taken from a wait queue, after writing `f` to it. -/
def Sys.wakeAll (f : Thread Pid Oid Tid → Thread Pid Oid Tid) (s : Sys Pid Oid Tid) :
    List Tid → Option (Sys Pid Oid Tid)
  | [] => some s
  | u :: us => ((s.modify u f).wakeQueued u).bind fun s' => s'.wakeAll f us

variable [DecidableEq Oid]

/-- `enqueue_thread`. -/
def Sys.enqueue (s : Sys Pid Oid Tid) (q : Queue Oid) (t : Tid) : Sys Pid Oid Tid :=
  s.setLinks (s.links.push q t)

variable [Fintype Tid]

/-- `wakeup_all`. -/
def Sys.drain (s : Sys Pid Oid Tid) (q : Queue Oid) : Option (Sys Pid Oid Tid) :=
  (s.setLinks (s.links.takeAll q).2).wakeAll id (s.links.takeAll q).1

/-- The loop that takes a timed out thread off an endpoint queue; its `wait_next` is cleared
whether or not it was found. -/
def Sys.withdraw (s : Sys Pid Oid Tid) (q : Queue Oid) (t : Tid) : Option (Sys Pid Oid Tid) :=
  (s.links.unlink q t).map fun L => s.setLinks (L.clear t)

end Scheduler

end Xnix
