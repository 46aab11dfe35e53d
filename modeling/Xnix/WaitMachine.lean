import Xnix.Blocking
import Xnix.Lib.Chain
import Xnix.Lib.Run

/-!
# Waiting for children

`process_waitpid`, `process_exit` and `process_reparent_children` of `kernel/process/lifecycle.c` on
any number of CPUs. A section under `process_list_lock` or `sched_lock` is one step, with the
unlocked code before it; the state of a child is read again after the search, so what is done with
it is another step. Stops, continues and changes of thread lists are steps of their own, and `poke`
is a `sched_wakeup_thread` from elsewhere. `spawn_core` links the child first
(`spawn_setup_parent`), and a failure after that frees it without unlinking it (`spawnFailed`).
-/

namespace Xnix

inductive ProcState
  | free | running | stopped | zombie
  deriving DecidableEq

/-- The fields of `struct process` that waiting uses. `threads` is newest first; `waitChan`:
`wait_chan` is set. -/
structure Family (Pid Tid : Type) where
  state : ProcState
  exitCode : ℤ
  parent : Option Pid
  waitChan : Bool
  threads : List Tid

/-- Where a thread is in `process_waitpid`, or in `process_exit` before the exit code (`dying`), the
children (`orphan`) and the parent (`notify`). `report` has the child's state as the search saw it;
at `leave` only `wait_chan` is to be cleared. -/
inductive WaitPc (Pid : Type)
  | user
  | scan (target : Option Pid) (nohang : Bool)
  | report (child : Pid) (seen : ProcState)
  | leave
  | block (target : Option Pid)
  | asleep (target : Option Pid)
  | dying (code : ℤ)
  | orphan
  | notify
  deriving DecidableEq

inductive WaitEvent (Pid Tid : Type)
  | spawned (p c : Pid)
  | reaped (t : Tid) (c : Pid) (status : ℤ)
  deriving DecidableEq

/-- The children of a process and their siblings are linked by `children` and `next_sibling`. -/
structure WaitSys (Pid Tid : Type) where
  proc : Pid → Family Pid Tid
  kids : Lib.Links Pid Pid
  init : Option Pid
  owner : Tid → Pid
  pc : Tid → WaitPc Pid
  sched : Tid → Waiter
  log : List (WaitEvent Pid Tid)

inductive WaitAction (Pid Tid : Type)
  | waitpid (t : Tid) (target : Option Pid) (nohang : Bool)
  | exit (t : Tid) (code : ℤ)
  | next (t : Tid)
  | spawn (t : Tid) (c : Pid)
  | spawnFailed (t : Tid) (c : Pid)
  | stop (p : Pid)
  | continue (p : Pid)
  | addThread (t : Tid)
  | removeThread (t : Tid)
  | poke (u : Tid)

variable {Pid Tid : Type}

section Step
variable [DecidableEq Pid] [DecidableEq Tid]

/-- `pid == -1 || child->pid == pid`. -/
def isTarget (target : Option Pid) (c : Pid) : Bool := target.all fun pid => c = pid

section
variable (s : WaitSys Pid Tid) (t : Tid)

def WaitSys.setPc (pc : WaitPc Pid) : WaitSys Pid Tid :=
  { s with pc := Function.update s.pc t pc }

def WaitSys.modify (p : Pid) (f : Family Pid Tid → Family Pid Tid) : WaitSys Pid Tid :=
  { s with proc := Function.update s.proc p (f (s.proc p)) }

/-- `if (parent->wait_chan && parent->threads) sched_wakeup_thread(parent->threads)`. -/
def WaitSys.wakeWaiter (p : Pid) : WaitSys Pid Tid :=
  match (s.proc p).waitChan, (s.proc p).threads with
  | true, t :: _ => { s with sched := Function.update s.sched t (s.sched t).wakeup }
  | _, _ => s

def WaitSys.leave : WaitSys Pid Tid :=
  (s.modify (s.owner t) fun pr => { pr with waitChan := false }).setPc t .user

/-- What the search of `process_waitpid` stops at. -/
def WaitSys.isFound (target : Option Pid) (c : Pid) : Bool :=
  isTarget target c && decide ((s.proc c).state = .stopped ∨ (s.proc c).state = .zombie)

/-- The search of `process_waitpid` under `process_list_lock`, and what follows when it finds
nothing. -/
def WaitSys.scan [Fintype Pid] (s : WaitSys Pid Tid) (t : Tid) (target : Option Pid)
    (nohang : Bool) : Option (WaitSys Pid Tid) := do
  let children ← s.kids.members (s.owner t)
  match children.find? (s.isFound target) with
  | some c =>
    if (s.proc c).state = .stopped then some (s.setPc t (.report c .stopped))
    else do
      let kids ← s.kids.unlink (s.owner t) c
      some ({ s with kids := kids }.setPc t (.report c .zombie))
  | none =>
    if children.any (isTarget target) = false ∨ nohang then some (s.setPc t .leave)
    else some (s.setPc t (.block target))

/-- `process_waitpid` after the search has found a child, whose state it reads again. -/
def WaitSys.report (c : Pid) : WaitSys Pid Tid :=
  if (s.proc c).state = .stopped then s.leave t
  else
    { (s.modify c fun pr => { pr with parent := none }).leave t with
      kids := s.kids.clear c
      log := .reaped t c (s.proc c).exitCode :: s.log }

/-- `sched_block` in `process_waitpid`; with a wakeup pending it searches again. -/
def WaitSys.block (s : WaitSys Pid Tid) (t : Tid) (target : Option Pid) : WaitSys Pid Tid :=
  { s.setPc t (if (s.sched t).pendingWakeup then .scan target false else .asleep target) with
    sched := Function.update s.sched t (s.sched t).block }

/-- `process_reparent_children`. Without an init process the children are dropped. -/
def WaitSys.reparent [Fintype Pid] (s : WaitSys Pid Tid) (p : Pid) : Option (WaitSys Pid Tid) :=
  match s.init with
  | none => some { s with kids := { s.kids with head := Function.update s.kids.head p none } }
  | some i =>
    (s.kids.members p).map fun children =>
      let s' := { s with
        kids := s.kids.adopt p i children
        proc := fun c => if c ∈ children then { s.proc c with parent := some i } else s.proc c }
      if children.any fun c => (s.proc c).state = .zombie then s'.wakeWaiter i else s'

/-- The end of `process_exit`. -/
def WaitSys.notify : WaitSys Pid Tid :=
  match (s.proc (s.owner t)).parent with
  | some p => (s.wakeWaiter p).setPc t .user
  | none => s.setPc t .user

end

variable [Fintype Pid]

def WaitSys.next (s : WaitSys Pid Tid) (t : Tid) : Option (WaitSys Pid Tid) :=
  match s.pc t with
  | .user => some s
  | .scan target nohang => s.scan t target nohang
  | .report c _ => some (s.report t c)
  | .leave => some (s.leave t)
  | .block target => some (s.block t target)
  | .asleep target =>
    if (s.sched t).run = .woken then
      some { s.setPc t (.scan target false) with
        sched := Function.update s.sched t (s.sched t).resume }
    else some s
  | .dying code =>
    some ((s.modify (s.owner t) fun pr => { pr with exitCode := code }).setPc t .orphan)
  | .orphan => (s.reparent (s.owner t)).map fun s => s.setPc t .notify
  | .notify => some (s.notify t)

def WaitSys.step (s : WaitSys Pid Tid) : WaitAction Pid Tid → Option (WaitSys Pid Tid)
  | .waitpid t target nohang =>
    match s.pc t with
    | .user =>
      some ((s.modify (s.owner t) fun pr => { pr with waitChan := true }).setPc t
        (.scan target nohang))
    | _ => some s
  | .exit t code =>
    match s.pc t with
    | .user =>
      some ((s.modify (s.owner t) fun pr => { pr with state := .zombie }).setPc t (.dying code))
    | _ => some s
  | .next t => s.next t
  | .spawn t c =>
    if (s.proc c).state = .free then
      some { s.modify c fun pr => { pr with state := .running, parent := some (s.owner t) } with
        kids := s.kids.push (s.owner t) c
        log := .spawned (s.owner t) c :: s.log }
    else some s
  | .spawnFailed t c =>
    if (s.proc c).state = .free then
      some { s.modify c fun pr => { pr with parent := some (s.owner t) } with
        kids := s.kids.push (s.owner t) c }
    else some s
  | .stop p =>
    let s' := s.modify p fun pr => { pr with state := .stopped }
    match (s.proc p).parent with
    | some q => some (s'.wakeWaiter q)
    | none => some s'
  | .continue p =>
    if (s.proc p).state = .stopped then
      let s' := s.modify p fun pr => { pr with state := .running }
      match (s.proc p).threads with
      | u :: _ => some { s' with sched := Function.update s.sched u (s.sched u).wakeup }
      | [] => some s'
    else some s
  | .addThread t =>
    some (s.modify (s.owner t) fun pr => { pr with threads := t :: pr.threads })
  | .removeThread t =>
    some (s.modify (s.owner t) fun pr => { pr with threads := pr.threads.erase t })
  | .poke u => some { s with sched := Function.update s.sched u (s.sched u).wakeup }

end Step

/-- Processes without children, none of which has ended, and threads in user mode. -/
structure WaitSys.Init (s : WaitSys Pid Tid) : Prop where
  state : ∀ p, (s.proc p).state = .free ∨ (s.proc p).state = .running
  kids : s.kids = ⟨fun _ => none, fun _ => none⟩
  pc : ∀ t, s.pc t = .user
  log : s.log = []

end Xnix
