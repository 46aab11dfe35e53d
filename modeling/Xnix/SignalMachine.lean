import Xnix.Ipc
import Xnix.WaitMachine

/-!
# Stopping and continuing processes

`process_kill_one`, `process_check_signals`, `process_stop_current` and `process_continue` of
`kernel/process/lifecycle.c` on any number of CPUs. A stop marks the process, wakes the parent's
first thread and then blocks, which is a step of its own. `sleep` is a `sched_block` of some other
system call, `poke` a `sched_wakeup_thread` from elsewhere.
-/

namespace Xnix

/-- The fields of `struct process` that signals use. -/
structure SigProc (Pid Tid : Type) where
  state : ProcState
  pendingSignals : BitVec 32
  parent : Option Pid
  waitChan : Bool
  threads : List Tid

/-- Where a thread is: `waiting` is in some other system call, `stopping` and `asleep` before and in
the `sched_block` of `process_stop_current`. -/
inductive SigPc
  | user | waiting | stopping | asleep | dead
  deriving DecidableEq

/-- A thread handled a stop signal, `SIGCONT` was sent to a process, `process_continue` ran, a
process ended. -/
inductive SigEvent (Pid Tid : Type)
  | stopped (t : Tid)
  | sigcont (p : Pid)
  | continued (p : Pid)
  | ended (p : Pid)
  deriving DecidableEq

structure SigSys (Pid Tid : Type) where
  proc : Pid → SigProc Pid Tid
  owner : Tid → Pid
  pc : Tid → SigPc
  sched : Tid → Waiter
  log : List (SigEvent Pid Tid)

inductive SigAction (Pid Tid : Type)
  | kill (p : Pid) (sig : ℕ)
  | check (t : Tid)
  | block (t : Tid)
  | resume (t : Tid)
  | sleep (t : Tid)
  | exit (t : Tid)
  | setWait (p : Pid) (b : Bool)
  | addThread (t : Tid)
  | removeThread (t : Tid)
  | poke (u : Tid)

/-- The signal that `process_check_signals` stops the process for. -/
def stopSig (pending : BitVec 32) : Option ℕ :=
  if hasSig pending sigStop then some sigStop
  else if hasSig pending sigTstp then some sigTstp
  else none

section Step
variable {Pid Tid : Type} [DecidableEq Pid] [DecidableEq Tid] (s : SigSys Pid Tid) (p : Pid)

namespace SigSys

def modify (f : SigProc Pid Tid → SigProc Pid Tid) : SigSys Pid Tid :=
  { s with proc := Function.update s.proc p (f (s.proc p)) }

def setPending (pending : BitVec 32) : SigSys Pid Tid :=
  s.modify p fun pr => { pr with pendingSignals := pending }

/-- `sched_wakeup_thread`, which does nothing for a null pointer. -/
def wakeup (s : SigSys Pid Tid) (o : Option Tid) : SigSys Pid Tid :=
  { s with sched := fun t => if o = some t then (s.sched t).wakeup else s.sched t }

def record (e : SigEvent Pid Tid) : SigSys Pid Tid :=
  { s with log := e :: s.log }

/-- The thread that the stop or the end of a process wakes. -/
def parentWaiter : Option Tid :=
  (s.proc p).parent.bind fun q => if (s.proc q).waitChan then (s.proc q).threads.head? else none

def processContinue : SigSys Pid Tid :=
  ((s.modify p fun pr =>
    { pr with state := .running, pendingSignals := dropSig pr.pendingSignals sigCont }).wakeup
      (s.proc p).threads.head?).record (.continued p)

def processKillOne (sig : ℕ) : SigSys Pid Tid :=
  if sig = sigCont ∧ (s.proc p).state = .stopped then s.processContinue p
  else (s.setPending p ((s.proc p).pendingSignals ||| sigmask sig)).wakeup (s.proc p).threads.head?

/-- A process ends, and its threads with it. -/
def terminate : SigSys Pid Tid :=
  ({ s.modify p fun pr => { pr with state := .zombie } with
    pc := fun t => if s.owner t = p then .dead
    else s.pc t }.wakeup (s.parentWaiter p)).record (.ended p)

def processStopCurrent (t : Tid) (sig : ℕ) : SigSys Pid Tid :=
  ({ s.modify (s.owner t) fun pr =>
      { pr with state := .stopped, pendingSignals := dropSig pr.pendingSignals sig } with
    pc := Function.update s.pc t .stopping }.wakeup (s.parentWaiter (s.owner t))).record
      (.stopped t)

/-- The signals of a process that `process_check_signals` acts on. -/
def toHandle : BitVec 32 :=
  dropSig (dropSig (s.proc p).pendingSignals sigCont) sigChld

def processCheckSignals (t : Tid) : SigSys Pid Tid :=
  let p := s.owner t
  let pending := s.toHandle p
  match stopSig pending, fatalSig pending with
  | some sig, _ => (s.setPending p pending).processStopCurrent t sig
  | none, some sig => (s.setPending p (dropSig pending sig)).terminate p
  | none, none => s.setPending p pending

/-- `sched_block` of a thread that goes to `pc` if it blocks; a pending wakeup sends it back to user
mode. -/
def block (s : SigSys Pid Tid) (t : Tid) (pc : SigPc) : SigSys Pid Tid :=
  { s with
    pc := Function.update s.pc t (if (s.sched t).pendingWakeup then .user else pc)
    sched := Function.update s.sched t (s.sched t).block }

def resume (s : SigSys Pid Tid) (t : Tid) : SigSys Pid Tid :=
  { s with
    pc := Function.update s.pc t .user
    sched := Function.update s.sched t (s.sched t).resume }

def step : SigAction Pid Tid → Option (SigSys Pid Tid)
  | .kill p sig =>
    if 1 ≤ sig ∧ sig < nSig then
      some ((if sig = sigCont then s.record (.sigcont p) else s).processKillOne p sig)
    else some s
  | .check t => if s.pc t = .user then some (s.processCheckSignals t) else some s
  | .block t => if s.pc t = .stopping then some (s.block t .asleep) else some s
  | .sleep t => if s.pc t = .user then some (s.block t .waiting) else some s
  | .resume t =>
    if (s.pc t = .asleep ∨ s.pc t = .waiting) ∧ (s.sched t).run = .woken then some (s.resume t)
      else some s
  | .exit t => if s.pc t = .user then some (s.terminate (s.owner t)) else some s
  | .setWait p b => some (s.modify p fun pr => { pr with waitChan := b })
  | .addThread t => some (s.modify (s.owner t) fun pr => { pr with threads := t :: pr.threads })
  | .removeThread t =>
    some (s.modify (s.owner t) fun pr => { pr with threads := pr.threads.erase t })
  | .poke u => some (s.wakeup (some u))

end SigSys

end Step

section Stops
variable {Pid Tid : Type} [DecidableEq Pid] [DecidableEq Tid]

/-- The thread has handled a stop signal, and no event that `clears` it came since. -/
def stoppedSince (clears : SigEvent Pid Tid → Bool) (t : Tid) : List (SigEvent Pid Tid) → Bool
  | [] => false
  | e :: log => if e = .stopped t then true else !clears e && stoppedSince clears t log

/-- The thread has handled a stop signal, and since then `SIGCONT` was not sent to its process and
the process has not ended. -/
def SigSys.heldBack (s : SigSys Pid Tid) (t : Tid) : Bool :=
  stoppedSince (fun e => e = .sigcont (s.owner t) ∨ e = .ended (s.owner t)) t s.log

/-- The thread has handled a stop signal, and `process_continue` did not run for its process
since. -/
def SigSys.notContinued (s : SigSys Pid Tid) (t : Tid) : Bool :=
  stoppedSince (fun e => e = .continued (s.owner t)) t s.log

end Stops

section Init
variable {Pid Tid : Type}

def SigSys.InStop (s : SigSys Pid Tid) (t : Tid) : Prop := s.pc t = .stopping ∨ s.pc t = .asleep

/-- Every thread is in user mode, the thread lists hold threads of their process, and no process is
its own parent. -/
structure SigSys.Init (s : SigSys Pid Tid) : Prop where
  pc : ∀ t, s.pc t = .user
  log : s.log = []
  owners : ∀ p, ∀ t ∈ (s.proc p).threads, s.owner t = p
  parent : ∀ p, (s.proc p).parent ≠ some p

end Init

end Xnix
