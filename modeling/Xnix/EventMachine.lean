import Xnix.Blocking
import Xnix.Lib.Chain
import Xnix.Lib.Run

/-!
# Events at lock granularity

`event_wait` and `event_signal_by_ptr` of `kernel/ipc/event.c` as threads on several CPUs see them.
The sections under the lock of an event are one step each. A signaller takes the whole wait queue
under the lock and goes through it afterwards, one waiter a step. `poke` is a `sched_wakeup_thread`
from elsewhere, and `forceExit` the `thread_force_exit` of a fatal signal, which ends a thread
wherever it is and leaves it linked.
-/

namespace Xnix

/-- Where a thread is: before the lock of `event_wait`, before, in or after `sched_block`; before
the lock of `event_signal_by_ptr` or going through the waiters; or ended. -/
inductive EventPc (κ : Type)
  | user
  | waitHead (o : κ)
  | queued (o : κ)
  | asleep (o : κ)
  | woken (o : κ)
  | signalHead (o : κ) (bits : BitVec 32)
  | delivering (o : κ) (bits : BitVec 32)
  | exited
  deriving DecidableEq

structure EventJob (κ : Type) where
  pc : EventPc κ
  notifiedBits : BitVec 32
  deriving DecidableEq

/-- The lists linked by `wait_next`: the wait queue of an event and the local `waiter_list` of
`event_signal_by_ptr`.
-/
inductive EventList (κ Tid : Type)
  | queue (o : κ)
  | waiters (t : Tid)
  deriving DecidableEq

/-- What has happened to events: bits were signalled, or a wait returned them. -/
inductive EventLog (κ Tid : Type)
  | signal (o : κ) (bits : BitVec 32)
  | ret (o : κ) (t : Tid) (bits : BitVec 32)
  deriving DecidableEq

/-- The events and the threads. `log` has no counterpart in the source. -/
structure EventSys (κ Tid : Type) where
  pendingBits : κ → BitVec 32
  job : Tid → EventJob κ
  sched : Tid → Waiter
  links : Lib.Links (EventList κ Tid) Tid
  log : List (EventLog κ Tid)

/-- The steps of `event_wait` and `event_signal`, and what comes from elsewhere. -/
inductive EventAction (κ Tid : Type)
  | wait (t : Tid) (o : κ)
  | signal (t : Tid) (o : κ) (bits : BitVec 32)
  | lock (t : Tid)
  | block (t : Tid)
  | resume (t : Tid)
  | collect (t : Tid)
  | deliver (t : Tid)
  | poke (u : Tid)
  | forceExit (u : Tid)

variable {κ Tid : Type}

section Step
variable [DecidableEq κ] [DecidableEq Tid] (s : EventSys κ Tid) (t : Tid)

def EventSys.setPc (pc : EventPc κ) : EventSys κ Tid :=
  { s with job := Function.update s.job t { s.job t with pc := pc } }

def EventSys.ret (s : EventSys κ Tid) (t : Tid) (o : κ) (bits : BitVec 32) : EventSys κ Tid :=
  { s.setPc t .user with log := .ret o t bits :: s.log }

/-- `event_wait` under the lock. -/
def EventSys.waitHead (o : κ) : EventSys κ Tid :=
  if s.pendingBits o ≠ 0 then
    { s with pendingBits := Function.update s.pendingBits o 0 }.ret t o (s.pendingBits o)
  else { s with links := s.links.push (.queue o) t }.setPc t (.queued o)

/-- `sched_block` in `event_wait`. -/
def EventSys.block (s : EventSys κ Tid) (t : Tid) (o : κ) : EventSys κ Tid :=
  { s.setPc t (if (s.sched t).pendingWakeup then .woken o else .asleep o) with
    sched := Function.update s.sched t (s.sched t).block }

/-- `event_wait` after `sched_block`. -/
def EventSys.collect (o : κ) : EventSys κ Tid :=
  { s with
    job := Function.update s.job t ⟨.user, 0⟩
    log := .ret o t (s.job t).notifiedBits :: s.log }

/-- `event_signal_by_ptr` under the lock. -/
def EventSys.signalHead (o : κ) (bits : BitVec 32) : EventSys κ Tid :=
  match s.links.head (.queue o) with
  | none =>
    { s.setPc t .user with
      pendingBits := Function.update s.pendingBits o (s.pendingBits o ||| bits)
      log := .signal o bits :: s.log }
  | some _ =>
    { s.setPc t (.delivering o (s.pendingBits o ||| bits)) with
      pendingBits := Function.update s.pendingBits o 0
      links := s.links.shift (.queue o) (.waiters t)
      log := .signal o bits :: s.log }

/-- One turn of the loop of `event_signal_by_ptr`. -/
def EventSys.deliver (bits : BitVec 32) : EventSys κ Tid :=
  match s.links.head (.waiters t) with
  | none => s.setPc t .user
  | some w =>
    { s with
      job := Function.update s.job w { s.job w with notifiedBits := bits }
      sched := Function.update s.sched w (s.sched w).wakeup
      links := s.links.drop (.waiters t) w }

def EventSys.step : EventAction κ Tid → Option (EventSys κ Tid)
  | .wait t o =>
    match (s.job t).pc with
    | .user => some (s.setPc t (.waitHead o))
    | _ => some s
  | .signal t o bits =>
    match (s.job t).pc with
    | .user => if bits = 0 then some s else some (s.setPc t (.signalHead o bits))
    | _ => some s
  | .lock t =>
    match (s.job t).pc with
    | .waitHead o => some (s.waitHead t o)
    | .signalHead o bits => some (s.signalHead t o bits)
    | _ => some s
  | .block t =>
    match (s.job t).pc with
    | .queued o => some (s.block t o)
    | _ => some s
  | .resume t =>
    match (s.job t).pc with
    | .asleep o =>
      if (s.sched t).run = .woken then
        some { s.setPc t (.woken o) with sched := Function.update s.sched t (s.sched t).resume }
      else some s
    | _ => some s
  | .collect t =>
    match (s.job t).pc with
    | .woken o => some (s.collect t o)
    | _ => some s
  | .deliver t =>
    match (s.job t).pc with
    | .delivering _ bits => some (s.deliver t bits)
    | _ => some s
  | .poke u => some { s with sched := Function.update s.sched u (s.sched u).wakeup }
  | .forceExit u => some (s.setPc u .exited)

end Step

/-- New events, and threads that have called nothing yet. -/
structure EventSys.Init (s : EventSys κ Tid) : Prop where
  pendingBits : ∀ o, s.pendingBits o = 0
  job : ∀ t, s.job t = ⟨.user, 0⟩
  sched : ∀ t, (s.sched t).run = .running
  links : s.links = ⟨fun _ => none, fun _ => none⟩
  log : s.log = []

def initEvents : EventSys κ Tid where
  pendingBits := fun _ => 0
  job := fun _ => ⟨.user, 0⟩
  sched := fun _ => .fresh
  links := ⟨fun _ => none, fun _ => none⟩
  log := []

theorem init_initEvents : (initEvents : EventSys κ Tid).Init :=
    ⟨fun _ => rfl, fun _ => rfl, fun _ => rfl, rfl, rfl⟩

end Xnix
