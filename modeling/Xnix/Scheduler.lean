import Xnix.Lib.Run
import Xnix.Lib.Splice

/-!
# The scheduler on one CPU

`kernel/sched/policy_rr.c`, `sched.c`, `blocked.c`, `sleep.c` and the thread ends of `thread.c`,
with one CPU and interrupts off inside each operation. The run queue, the blocked list and the
zombie list share the `next` field of `struct thread`. A switch to a thread that ran before goes on
in its `schedule` and in the operation that called it (`Resume`); a switch to a new thread does not.
`none` is a write through a null pointer, a walk that does not end, or the panic of an idle thread
that exits.
-/

namespace Xnix

structure SchedConfig where
  hz : ℕ
  timeSlice : ℕ

/-- The lists that `next` links. -/
inductive SchedList
  | runq | blocked | zombie
  deriving DecidableEq

inductive TaskState
  | ready | running | blocked | exited
  deriving DecidableEq

/-- The operation that a thread is in while it is not the current one. -/
inductive Resume
  | yield | block | blockTimeout | sleep
  deriving DecidableEq

/-- The fields of `struct thread` that the scheduler uses. `reclaimable` is
`is_detached || has_been_joined`; `started`: it has run. -/
structure Task (Chan Tid : Type) where
  state : TaskState
  timeSlice : ℕ
  waitChan : Option (Chan ⊕ Tid)
  wakeupTick : ℕ
  pendingWakeup : Bool
  reclaimable : Bool
  started : Bool
  resume : Resume

/-- `struct runqueue` of the CPU, the blocked list and the zombie list; `live` says that a thread
has been made and not freed. -/
structure SchedSys (Chan Tid : Type) where
  links : Lib.Links SchedList Tid
  tail : Option Tid
  nrRunning : ℕ
  current : Option Tid
  idle : Tid
  live : Tid → Bool
  task : Tid → Task Chan Tid
  now : ℕ

inductive SchedAction (Chan Tid : Type)
  | spawn (t : Tid)
  | tick
  | yield
  | block (chan : Option (Chan ⊕ Tid))
  | blockTimeout (chan : Option (Chan ⊕ Tid)) (timeoutMs : ℕ)
  | sleep (ticks : ℕ)
  | wakeup (chan : Option (Chan ⊕ Tid))
  | wakeupThread (t : Tid)
  | exit (woken : List Tid)
  | schedule
  | setReclaimable (t : Tid)

variable {Chan Tid : Type}

section Operations
variable [DecidableEq Tid] (cfg : SchedConfig)

section
variable (s : SchedSys Chan Tid) (t : Tid)

def SchedSys.setTask (tk : Task Chan Tid) : SchedSys Chan Tid :=
  { s with task := Function.update s.task t tk }

def SchedSys.rrEnqueue : Option (SchedSys Chan Tid) :=
  let s := s.setTask t { s.task t with state := .ready, timeSlice := cfg.timeSlice }
  match s.links.head .runq, s.tail with
  | none, _ =>
    some { s with
      links := s.links.append .runq none t, tail := some t, nrRunning := s.nrRunning + 1 }
  | some _, some u =>
    some { s with
      links := s.links.append .runq (some u) t, tail := some t, nrRunning := s.nrRunning + 1 }
  | some _, none => none

/-- The first thread of the run queue goes to its end, with a new time slice. -/
def SchedSys.rotate : SchedSys Chan Tid :=
  let links := s.links.drop .runq t
  let tail := if links.head .runq = none then none else s.tail
  { s.setTask t { s.task t with timeSlice := cfg.timeSlice } with
    links := links.write .runq tail (some t), tail := some t }

def SchedSys.rrPickNext : Option Tid × SchedSys Chan Tid :=
  match s.links.head .runq with
  | none => (none, s)
  | some t =>
    if (s.task t).timeSlice = 0 then ((s.rotate cfg t).links.head .runq, s.rotate cfg t)
    else (some t, s)

/-- A walk along a list with a pointer to the link it came through: a thread that meets `p` is taken
out and handed to `act`. -/
def SchedSys.sweep (q : SchedList) (p : Task Chan Tid → Bool)
    (act : SchedSys Chan Tid → Tid → Option (SchedSys Chan Tid)) :
    ℕ → Option Tid → SchedSys Chan Tid → Option (SchedSys Chan Tid)
  | 0, _, _ => none
  | n + 1, prev, s =>
    match s.links.at q prev with
    | none => some s
    | some t =>
      if p (s.task t) then
        (act { s with links := s.links.take q prev t } t).bind (SchedSys.sweep q p act n prev)
      else SchedSys.sweep q p act n (some t) s

/-- What a thread does when `schedule` returns to it. -/
def Task.resumed (tk : Task Chan Tid) : Task Chan Tid :=
  match tk.resume with
  | .yield => tk
  | .block => { tk with pendingWakeup := false, resume := .yield }
  | .blockTimeout => { tk with pendingWakeup := false, wakeupTick := 0, resume := .yield }
  | .sleep => { tk with wakeupTick := 0, resume := .yield }

/-- `schedule` leaves the previous thread. -/
def SchedSys.leave : SchedSys Chan Tid :=
  match s.current with
  | some prev =>
    if prev ≠ s.idle ∧ (s.task prev).state = .running then
      s.setTask prev { s.task prev with state := .ready }
    else s
  | none => s

def SchedSys.enter (next : Tid) : SchedSys Chan Tid :=
  { if next ≠ s.idle then s.setTask next { s.task next with state := .running } else s with
    current := some next }

/-- The thread that operations are taken by: the idle thread takes none. -/
def SchedSys.caller : Option Tid :=
  s.current.filter fun t => t ≠ s.idle

/-- The ticks of a timeout, in 32-bit arithmetic. -/
def timeoutTicks (timeoutMs : ℕ) : ℕ :=
  let ticks := ((timeoutMs * cfg.hz + 999) % 2 ^ 32) / 1000
  if ticks = 0 then 1 else ticks

/-- A thread taken off the blocked list joins the run queue. -/
def SchedSys.makeReady : Option (SchedSys Chan Tid) :=
  (s.setTask t { s.task t with state := .ready, waitChan := none }).rrEnqueue cfg t

/-- `sched_spawn` of a thread that `kzalloc` gave. -/
def SchedSys.schedSpawn : Option (SchedSys Chan Tid) :=
  ({ s with live := Function.update s.live t true }.setTask t
    ⟨.ready, 0, none, 0, false, false, false, .yield⟩).rrEnqueue cfg t

end

variable [Fintype Tid] (s : SchedSys Chan Tid)

def SchedSys.rrDequeue (t : Tid) : Option (SchedSys Chan Tid) :=
  match s.links.remove .runq t with
  | none => none
  | some (none, _) => some s
  | some (some prev, links) =>
    some { s with
      links := links, tail := if s.tail = some t then prev else s.tail, nrRunning :=
      s.nrRunning - 1 }

def SchedSys.schedCleanupZombie : Option (SchedSys Chan Tid) :=
  SchedSys.sweep .zombie Task.reclaimable (fun s z =>
    some { s with live := Function.update s.live z false }) (Fintype.card Tid + 1) none s

/-- The new current thread goes on: it starts, or returns from its `schedule`. `first` is
`context_switch_first`. -/
def SchedSys.goOn (first : Bool) (t : Tid) : Option (SchedSys Chan Tid) :=
  if first || !(s.task t).started then some (s.setTask t { s.task t with started := true })
  else s.schedCleanupZombie.map fun s => s.setTask t (s.task t).resumed

def SchedSys.schedule : Option (SchedSys Chan Tid) :=
  let r := s.rrPickNext cfg
  let next := r.1.getD r.2.idle
  if r.2.current = some next then r.2.schedCleanupZombie
  else (r.2.leave.enter next).goOn r.2.current.isNone next

/-- The current thread marks itself, leaves the run queue, joins another list and calls
`schedule`. -/
def SchedSys.depart (q : SchedList) (t : Tid) : Option (SchedSys Chan Tid) :=
  (s.rrDequeue t).bind fun s => { s with links := s.links.push q t }.schedule cfg

def SchedSys.schedBlock (chan : Option (Chan ⊕ Tid)) : Option (SchedSys Chan Tid) :=
  match s.caller with
  | none => some s
  | some t =>
    if (s.task t).pendingWakeup then some (s.setTask t { s.task t with pendingWakeup := false })
    else
      (s.setTask t { s.task t with state := .blocked, waitChan := chan, resume := .block }).depart
        cfg .blocked t

def SchedSys.schedBlockTimeout (chan : Option (Chan ⊕ Tid)) (timeoutMs : ℕ) :
    Option (SchedSys Chan Tid) :=
  match s.caller with
  | none => some s
  | some t =>
    if (s.task t).pendingWakeup then some (s.setTask t { s.task t with pendingWakeup := false })
    else
      (s.setTask t { s.task t with
        state := .blocked, waitChan := chan, resume := .blockTimeout,
        wakeupTick := if timeoutMs > 0 then s.now + timeoutTicks cfg timeoutMs else 0 }).depart cfg
          .blocked t

def SchedSys.sleepTicks (ticks : ℕ) : Option (SchedSys Chan Tid) :=
  if ticks = 0 then some s
  else
    match s.caller with
    | none => some s
    | some t =>
      (s.setTask t { s.task t with
        state := .blocked, waitChan := some (.inr t), resume := .sleep,
        wakeupTick := s.now + ticks }).depart cfg .blocked t

def SchedSys.schedWakeup [DecidableEq Chan] (s : SchedSys Chan Tid) (chan : Option (Chan ⊕ Tid)) :
    Option (SchedSys Chan Tid) :=
  SchedSys.sweep .blocked (fun tk => tk.waitChan = chan) (fun s t => s.makeReady cfg t)
    (Fintype.card Tid + 1) none s

def SchedSys.sleepCheckWakeup : Option (SchedSys Chan Tid) :=
  SchedSys.sweep .blocked (fun tk => tk.wakeupTick ≠ 0 ∧ tk.wakeupTick ≤ s.now)
    (fun s t => (s.setTask t { s.task t with wakeupTick := 0 }).makeReady cfg t)
    (Fintype.card Tid + 1) none s

def SchedSys.schedWakeupThread (t : Tid) : Option (SchedSys Chan Tid) :=
  match s.links.remove .blocked t with
  | none => none
  | some (found, links) =>
    let s := { s with links := links }.setTask t
      { s.task t with waitChan := none, pendingWakeup := true }
    if found.isSome ∨ (s.task t).state = .blocked then s.makeReady cfg t else some s

def SchedSys.schedYield : Option (SchedSys Chan Tid) :=
  match s.current with
  | none => s.schedule cfg
  | some t => (s.setTask t { s.task t with timeSlice := 0 }).schedule cfg

/-- `sched_tick`, up to the statistics. -/
def SchedSys.schedTick : Option (SchedSys Chan Tid) :=
  (s.sleepCheckWakeup cfg).bind fun s =>
    match s.current with
    | none =>
      let r := s.rrPickNext cfg
      match r.1 with
      | some first => (r.2.enter first).goOn true first
      | none => some r.2
    | some t =>
      if t = s.idle then if s.nrRunning > 0 then s.schedule cfg else some s
      else if (s.task t).timeSlice = 0 then some s
      else
        let s := s.setTask t { s.task t with timeSlice := (s.task t).timeSlice - 1 }
        if (s.task t).timeSlice = 0 then s.schedule cfg else some s

/-- `thread_exit`; `process_exit` wakes the threads of `woken`. -/
def SchedSys.threadExit (woken : List Tid) : Option (SchedSys Chan Tid) :=
  match s.current with
  | none => s.schedule cfg
  | some t =>
    if t = s.idle then none
    else
      (woken.foldlM (fun (s : SchedSys Chan Tid) w =>
          if s.live w then s.schedWakeupThread cfg w else some s)
        (s.setTask t { s.task t with state := .exited })).bind fun s => s.depart cfg .zombie t

def SchedSys.step [DecidableEq Chan] (s : SchedSys Chan Tid) :
    SchedAction Chan Tid → Option (SchedSys Chan Tid)
  | .spawn t => if s.live t then some s else s.schedSpawn cfg t
  | .tick => { s with now := s.now + 1 }.schedTick cfg
  | .yield => s.schedYield cfg
  | .block chan => s.schedBlock cfg chan
  | .blockTimeout chan timeoutMs => s.schedBlockTimeout cfg chan timeoutMs
  | .sleep ticks => s.sleepTicks cfg ticks
  | .wakeup chan => s.schedWakeup cfg chan
  | .wakeupThread t => if s.live t then s.schedWakeupThread cfg t else some s
  | .exit woken => s.threadExit cfg woken
  | .schedule => s.schedule cfg
  | .setReclaimable t =>
    if s.live t then some (s.setTask t { s.task t with reclaimable := true }) else some s

end Operations

/-- `sched_init`: empty lists, no current thread, and the idle thread. -/
structure SchedSys.Init (s : SchedSys Chan Tid) : Prop where
  head : ∀ q, s.links.head q = none
  tail : s.tail = none
  nrRunning : s.nrRunning = 0
  current : s.current = none
  live : ∀ t, s.live t = true ↔ t = s.idle
  idle : (s.task s.idle).state = .ready

end Xnix
