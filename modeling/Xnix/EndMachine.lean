import Xnix.WaitMachine

/-!
# Ends of threads and processes

Thread creation, exit, join and detach (`kernel/sys/sys_thread.c`, `kernel/sched/thread.c`), the end
of a process (`kernel/process/lifecycle.c`) and the counts of `kernel/process/process.c`, on any
number of CPUs. `sched_spawn` makes a thread runnable before `process_add_thread` counts it, so
these are two steps; a join marks its target in a second section of `g_join_lock`. `thread_exit`
runs with interrupts off, and `process_terminate_threads` holds `thread_lock`: one step each. `none`
is a use of a freed process: only `process_add_thread`, the ends of threads and processes,
`process_unref` and `waitpid` look at one.
-/

namespace Xnix

/-- The fields of `struct process` that its end uses. `started`: a thread was added; `reaped`:
`waitpid` took it; `freed`: `process_unref` released it. -/
structure EndProc (Tid : Type) where
  state : ProcState
  threads : List Tid
  threadCount : ℕ
  refcount : ℕ
  started : Bool
  reaped : Bool
  freed : Bool

/-- Where a thread is: in `process_exit_current` after `process_exit` or
`process_terminate_threads`, or inside `sys_thread_join`. -/
inductive EndPc (Tid : Type)
  | user | ending | alone | joining (u : Tid)
  deriving DecidableEq

/-- The fields of `struct thread` that its end uses. `added`: `process_add_thread` has counted it;
`running`: it has a CPU; `gone`: it does not run again. -/
structure EndThread (Pid Tid : Type) where
  owner : Option Pid
  born : Bool
  added : Bool
  exited : Bool
  running : Bool
  gone : Bool
  isDetached : Bool
  hasBeenJoined : Bool
  joiner : Option Tid
  pc : EndPc Tid

structure EndSys (Cpu Pid Tid : Type) where
  proc : Pid → EndProc Tid
  thread : Tid → EndThread Pid Tid
  zombies : Cpu → List Tid

inductive EndAction (Cpu Pid Tid : Type)
  | spawn (p : Pid) (u : Tid)
  | add (u : Tid)
  | exit (t : Tid) (c : Cpu)
  | processExit (t : Tid)
  | terminateThreads (t : Tid) (c : Cpu)
  | bury (t : Tid) (c : Cpu)
  | join (t u : Tid)
  | joinDone (t : Tid)
  | detach (t u : Tid)
  | setRunning (t : Tid) (b : Bool)
  | cleanup (c : Cpu)
  | reap (p : Pid)
  deriving DecidableEq

/-- The thread that ends itself or its process. -/
def EndAction.ender {Cpu Pid Tid : Type} : EndAction Cpu Pid Tid → Option Tid
  | .exit t _ | .processExit t | .terminateThreads t _ => some t
  | _ => none

/-- `sched_cleanup_zombie` may free the thread. -/
def EndThread.reclaimable {Pid Tid : Type} (th : EndThread Pid Tid) : Bool :=
  th.isDetached || th.hasBeenJoined

namespace EndSys

variable {Cpu Pid Tid : Type}

section Step
variable [DecidableEq Cpu] [DecidableEq Pid] [DecidableEq Tid] (s : EndSys Cpu Pid Tid) (p : Pid)

def setThread (t : Tid) (th : EndThread Pid Tid) : EndSys Cpu Pid Tid :=
  { s with thread := Function.update s.thread t th }

def setProc (pr : EndProc Tid) : EndSys Cpu Pid Tid :=
  { s with proc := Function.update s.proc p pr }

/-- `thread_add_to_zombie_list`: the thread does not run again. -/
def bury (t : Tid) (c : Cpu) : EndSys Cpu Pid Tid :=
  { s.setThread t { s.thread t with gone := true } with
    zombies := Function.update s.zombies c (t :: s.zombies c) }

def processExit : EndSys Cpu Pid Tid :=
  s.setProc p { s.proc p with state := .zombie }

/-- The test of `thread_exit` for the last thread of a process. -/
def exitLast : Option Pid → EndSys Cpu Pid Tid
  | some p => if (s.proc p).threadCount ≤ 1 then s.processExit p else s
  | none => s

def threadExit (t : Tid) (c : Cpu) : EndSys Cpu Pid Tid :=
  ((s.setThread t { s.thread t with exited := true }).exitLast (s.thread t).owner).bury t c

/-- `thread_force_exit`: a thread that runs goes to a zombie list when it returns from a system call
(`syscall_handler`), and to none when it is preempted before that. -/
def threadForceExit (c : Cpu) (u : Tid) : EndSys Cpu Pid Tid :=
  if (s.thread u).exited then s
  else
    let s' := s.setThread u { s.thread u with exited := true, isDetached := true }
    if (s.thread u).running then s' else s'.bury u c

def processTerminateThreads (t : Tid) (c : Cpu) : EndSys Cpu Pid Tid :=
  (s.proc p).threads.foldl (fun s u => if u = t then s else s.threadForceExit c u) s

def processAddThread (u : Tid) : EndSys Cpu Pid Tid :=
  (s.setProc p { s.proc p with
    threads := u :: (s.proc p).threads, threadCount := (s.proc p).threadCount + 1,
    refcount := (s.proc p).refcount + 1, started :=
    true }).setThread u { s.thread u with added := true }

def processRemoveThread (z : Tid) : EndSys Cpu Pid Tid :=
  if z ∈ (s.proc p).threads then
    (s.setProc p { s.proc p with
      threads := (s.proc p).threads.erase z, threadCount :=
      (s.proc p).threadCount - 1 }).setThread z
        { s.thread z with owner := none }
  else s

/-- `process_unref`, of a process that is not freed. -/
def processUnref : EndSys Cpu Pid Tid :=
  s.setProc p { s.proc p with
    refcount := (s.proc p).refcount - 1, freed := decide ((s.proc p).refcount - 1 = 0) }

/-- One round of `sched_cleanup_zombie`. -/
def reclaim (c : Cpu) (z : Tid) : Option (EndSys Cpu Pid Tid) :=
  if (s.thread z).reclaimable then
    let s' := { s with zombies := Function.update s.zombies c ((s.zombies c).erase z) }
    match (s.thread z).owner with
    | some p => if (s.proc p).freed then none
      else some ((s'.processRemoveThread p z).processUnref p)
    | none => some s'
  else some s

def schedCleanupZombie (c : Cpu) : Option (EndSys Cpu Pid Tid) :=
  (s.zombies c).foldlM (fun s z => s.reclaim c z) s

/-- A thread that `thread_find_by_tid` may find, of the process of the current thread. -/
def sameProcess (t u : Tid) : Bool :=
  (s.thread u).born && decide ((s.thread u).owner = (s.thread t).owner ∧ (s.thread t).owner ≠ none)

/-- The first section of `sys_thread_join`: while the target has not exited, the thread blocks and
comes back. -/
def sysThreadJoin (t u : Tid) : EndSys Cpu Pid Tid :=
  if t ≠ u ∧ s.sameProcess t u ∧ (s.thread u).isDetached = false ∧
    (s.thread u).hasBeenJoined = false ∧
      ((s.thread u).joiner = none ∨ (s.thread u).joiner = some t) then
    let s' := s.setThread u { s.thread u with joiner := some t }
    if (s.thread u).exited then s'.setThread t { s.thread t with pc := .joining u } else s'
  else s

/-- The second section of `sys_thread_join`. -/
def joinDone (t u : Tid) : EndSys Cpu Pid Tid :=
  let s' := s.setThread u { s.thread u with hasBeenJoined := true, joiner := none }
  s'.setThread t { s'.thread t with pc := .user }

def sysThreadDetach (t u : Tid) : EndSys Cpu Pid Tid :=
  if s.sameProcess t u ∧ (s.thread u).isDetached = false ∧ (s.thread u).hasBeenJoined = false ∧
      (s.thread u).joiner = none then
    s.setThread u { s.thread u with isDetached := true }
  else s

/-- The thread can take a step of its own. -/
def acts (t : Tid) : Bool := (s.thread t).born && !(s.thread t).gone

def ownerFreed (t : Tid) : Bool := (s.thread t).owner.any fun p => (s.proc p).freed

def step : EndAction Cpu Pid Tid → Option (EndSys Cpu Pid Tid)
  | .spawn p u =>
    if (s.thread u).born then some s
    else some (s.setThread u { s.thread u with born := true, owner := some p })
  | .add u =>
    match (s.thread u).owner with
    | some p =>
      if (s.thread u).added then some s
      else if (s.proc p).freed then none
      else some (s.processAddThread p u)
    | none => some s
  | .exit t c =>
    if s.acts t ∧ ((s.thread t).pc = .user ∨ (s.thread t).pc = .alone) then
      if s.ownerFreed t then none else some (s.threadExit t c)
    else some s
  | .processExit t =>
    match (s.thread t).owner with
    | some p =>
      if s.acts t ∧ (s.thread t).pc = .user then
        if s.ownerFreed t then none
          else some ((s.processExit p).setThread t { s.thread t with pc := .ending })
      else some s
    | none => some s
  | .terminateThreads t c =>
    match (s.thread t).owner with
    | some p =>
      if s.acts t ∧ (s.thread t).pc = .ending then
        if s.ownerFreed t then none
        else some ((s.setThread t { s.thread t with pc := .alone }).processTerminateThreads p t c)
      else some s
    | none => some s
  | .bury t c => if s.acts t ∧ (s.thread t).exited then some (s.bury t c) else some s
  | .join t u => if s.acts t ∧ (s.thread t).pc = .user then some (s.sysThreadJoin t u) else some s
  | .joinDone t =>
    match (s.thread t).pc with
    | .joining u => if s.acts t then some (s.joinDone t u) else some s
    | _ => some s
  | .detach t u =>
    if s.acts t ∧ (s.thread t).pc = .user then some (s.sysThreadDetach t u) else some s
  | .setRunning t b =>
    some (s.setThread t { s.thread t with
      running := b, gone := (s.thread t).gone || ((s.thread t).exited && !b) })
  | .cleanup c => s.schedCleanupZombie c
  | .reap p =>
    if (s.proc p).state = .zombie ∧ (s.proc p).reaped = false then
      if (s.proc p).freed then none
      else some ((s.setProc p { s.proc p with reaped := true }).processUnref p)
    else some s

end Step

/-- Processes as `process_create` makes them, and no threads yet. -/
structure Init (s : EndSys Cpu Pid Tid) : Prop where
  proc : ∀ p, s.proc p = ⟨.running, [], 0, 1, false, false, false⟩
  thread : ∀ t, (s.thread t).born = false ∧ (s.thread t).owner = none ∧ (s.thread t).added = false ∧
    (s.thread t).exited = false ∧ (s.thread t).pc = .user
  zombies : ∀ c, s.zombies c = []

end EndSys

end Xnix
