import Xnix.Scheduler

/-!
# Sleeps and timed blocks

`sleep_ms`, `sched_block`, `sched_block_timeout` and what wakes a thread (`kernel/sched/sleep.c`,
`blocked.c`), on any number of CPUs. Each section of `sched_lock` is one step; `sleep_ticks` writes
the fields of the thread before it joins the blocked list.
-/

namespace Xnix

/-- What ended the wait of a thread: `sleep_check_wakeup`, or a wakeup of its channel or of the
thread. -/
inductive Waker
  | timer | explicit
  deriving DecidableEq

inductive TimedKind
  | block | blockTimeout | sleep
  deriving DecidableEq

/-- A call in progress: the tick it began in, whether the thread has joined the blocked list, and
what woke it first.
-/
structure TimedCall where
  kind : TimedKind
  ms : BitVec 32
  start : ℕ
  added : Bool
  woken : Option Waker
  deriving DecidableEq

structure TimedThread (Chan Tid : Type) where
  state : TaskState
  listed : Bool
  waitChan : Option (Chan ⊕ Tid)
  wakeupTick : ℕ
  pendingWakeup : Bool
  call : Option TimedCall

/-- A call that has returned, the tick it returned in, and whether it reported a timeout. -/
structure TimedReturn where
  call : TimedCall
  fin : ℕ
  timedOut : Bool

structure TimedSys (Chan Tid : Type) where
  now : ℕ
  thread : Tid → TimedThread Chan Tid
  log : List TimedReturn

inductive TimedAction (Chan Tid : Type)
  | tick
  | sleepCheckWakeup
  | wakeup (chan : Option (Chan ⊕ Tid))
  | wakeupThread (t : Tid)
  | block (t : Tid) (chan : Option (Chan ⊕ Tid))
  | blockTimeout (t : Tid) (chan : Option (Chan ⊕ Tid)) (ms : BitVec 32)
  | sleepMs (t : Tid) (ms : BitVec 32)
  | sleepAdd (t : Tid)
  | resume (t : Tid)

section Step
variable {Chan Tid : Type} [DecidableEq Tid] (cfg : SchedConfig)

/-- The thread is ready; the first waker ends its wait. -/
def TimedThread.ready (th : TimedThread Chan Tid) (w : Waker) : TimedThread Chan Tid :=
  { th with
    state := .ready, call := th.call.map fun c => { c with woken := some (c.woken.getD w) } }

/-- A thread of the blocked list whose time has come. -/
def TimedThread.timerWakeup (now : ℕ) (th : TimedThread Chan Tid) : TimedThread Chan Tid :=
  if th.listed ∧ th.wakeupTick ≠ 0 ∧ th.wakeupTick ≤ now then
    { th.ready .timer with listed := false, wakeupTick := 0, waitChan := none }
  else th

def TimedThread.chanWakeup [DecidableEq Chan] (chan : Option (Chan ⊕ Tid))
    (th : TimedThread Chan Tid) : TimedThread Chan Tid :=
  if th.listed ∧ th.waitChan =
    chan then { th.ready .explicit with listed := false, waitChan := none } else th

def TimedThread.schedWakeupThread (th : TimedThread Chan Tid) : TimedThread Chan Tid :=
  { if th.listed ∨ th.state = .blocked then th.ready .explicit else th with
    listed := false, waitChan := none, pendingWakeup := true }

variable (s : TimedSys Chan Tid) (t : Tid)

def TimedSys.setThread (th : TimedThread Chan Tid) : TimedSys Chan Tid :=
  { s with thread := Function.update s.thread t th }

/-- `sched_block` and `sched_block_timeout`, which differ in the deadline. -/
def TimedSys.schedBlock (chan : Option (Chan ⊕ Tid)) (kind : TimedKind)
    (ms : BitVec 32) (tick : ℕ) : TimedSys Chan Tid :=
  let th := s.thread t
  let call : TimedCall := ⟨kind, ms, s.now, true, none⟩
  if th.call.isSome then s
  else if th.pendingWakeup then
    { s.setThread t { th with pendingWakeup := false } with log := ⟨call, s.now, false⟩ :: s.log }
  else s.setThread t { th with
    state := .blocked, listed := true, waitChan := chan, wakeupTick := tick, call := some call }

/-- `sleep_ms` up to the blocked list. -/
def TimedSys.sleepMs (ms : BitVec 32) : TimedSys Chan Tid :=
  if (s.thread t).call.isSome then s
  else s.setThread t { s.thread t with
    state := .blocked, waitChan := some (.inr t), wakeupTick := s.now + timeoutTicks cfg ms.toNat,
    call := some ⟨.sleep, ms, s.now, false, none⟩ }

def TimedSys.resume : TimedSys Chan Tid :=
  let th := s.thread t
  match th.call with
  | none => s
  | some c =>
    if c.added ∧ th.state = .ready then
      let timedOut := decide (c.kind = .blockTimeout ∧ 0 < c.ms.toNat ∧ th.wakeupTick = 0)
      { s.setThread t { th with
          state := .running, call := none,
          pendingWakeup := if c.kind = .sleep then th.pendingWakeup else false,
          wakeupTick := if c.kind = .block then th.wakeupTick else 0 } with
        log := ⟨c, s.now, timedOut⟩ :: s.log }
    else s

def TimedSys.step [DecidableEq Chan] (s : TimedSys Chan Tid) :
    TimedAction Chan Tid → Option (TimedSys Chan Tid)
  | .tick => some { s with now := s.now + 1 }
  | .sleepCheckWakeup => some { s with thread := fun t => (s.thread t).timerWakeup s.now }
  | .wakeup chan => some { s with thread := fun t => (s.thread t).chanWakeup chan }
  | .wakeupThread t => some (s.setThread t (s.thread t).schedWakeupThread)
  | .block t chan => some (s.schedBlock t chan .block 0 (s.thread t).wakeupTick)
  | .blockTimeout t chan ms =>
    some (s.schedBlock t chan .blockTimeout ms
      (if ms.toNat > 0 then s.now + timeoutTicks cfg ms.toNat else 0))
  | .sleepMs t ms => some (s.sleepMs cfg t ms)
  | .sleepAdd t =>
    match (s.thread t).call with
    | some c =>
      if c.added then some s
      else some (s.setThread t
        { s.thread t with listed := true, call := some { c with added := true } })
    | none => some s
  | .resume t => some (s.resume t)

/-- Threads run, and nothing has been called yet. -/
structure TimedSys.Init (s : TimedSys Chan Tid) : Prop where
  thread : ∀ t, (s.thread t).call = none ∧ (s.thread t).wakeupTick = 0
  log : s.log = []

end Step

end Xnix
