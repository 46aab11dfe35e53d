import Xnix.Blocking
import Xnix.Lib.Run

/-!
# Waiting for several objects

`ipc_wait_any` of `kernel/ipc/wait.c` at lock granularity: it looks up its handles and checks each
object, arms a poll entry on each, checks again, blocks, and then unlinks its entries and drops its
references. Each section under the lock of an object is one step, and so is each reference taken or
dropped. `poke` is a `sched_wakeup_thread` from elsewhere.
-/

namespace Xnix

def ipcWaitMax : ℕ := 64

/-- The part of an object that `ipc_wait_any` looks at: the length of `send_queue` or
`pending_bits`. -/
inductive PollObject
  | endpoint (senders : ℕ)
  | event (pendingBits : BitVec 32)
  | other
  deriving DecidableEq

def PollObject.ready : PollObject → Bool
  | .endpoint senders => 0 < senders
  | .event pendingBits => pendingBits ≠ 0
  | .other => false

/-- A place in the arrays `entries`, `objects` and `types`. -/
structure PollItem (κ : Type) where
  handle : ℕ
  object : κ
  deriving DecidableEq

/-- Where a thread is in `ipc_wait_any`: looking up and checking the handles, arming, checking
again, before and in `sched_block_timeout`, looking for a triggered entry, unlinking, dropping
references. -/
inductive PollPc (κ : Type)
  | user
  | scan (rest : List ℕ)
  | check (h : ℕ) (o : κ) (mayRecv : Bool) (rest : List ℕ)
  | arm (i : ℕ)
  | recheck (i : ℕ)
  | blocking
  | asleep
  | pick (i : ℕ)
  | unlink (i : ℕ) (result : Option (PollItem κ))
  | put (objs : List κ) (result : Option (PollItem κ))
  deriving DecidableEq

structure PollCall (κ : Type) where
  pc : PollPc κ
  timeout : ℕ
  items : List (PollItem κ)
  triggered : ℕ → Bool

/-- What a call returned, whether that object was ready during the call, and `pending_wakeup` at the
return. -/
structure PollReturn (κ Tid : Type) where
  thread : Tid
  result : Option (PollItem κ)
  wasReady : Bool
  pending : Bool
  deriving DecidableEq

/-- The objects with their poll queues, the threads and their handles. `refs` counts the references
that a thread's calls hold; `seen` says that an object was ready during the present call. -/
structure PollSys (κ Tid : Type) where
  obj : κ → PollObject
  pollQueue : κ → List (Tid × ℕ)
  call : Tid → PollCall κ
  sched : Tid → Waiter
  table : Tid → ℕ → Option (κ × Bool)
  refs : Tid → κ → ℤ
  seen : Tid → κ → Bool
  log : List (PollReturn κ Tid)

inductive PollAction (κ Tid : Type)
  | waitAny (t : Tid) (set : List ℕ) (timeout : ℕ)
  | next (t : Tid)
  | expire (t : Tid)
  | send (o : κ)
  | receive (o : κ)
  | signal (o : κ) (bits : BitVec 32) (taken : Bool)
  | take (o : κ)
  | setHandle (t : Tid) (h : ℕ) (v : Option (κ × Bool))
  | poke (u : Tid)

namespace PollSys

section Step
variable [DecidableEq κ] [DecidableEq Tid] (s : PollSys κ Tid) (t : Tid)

def setPc (pc : PollPc κ) : PollSys κ Tid :=
  { s with call := Function.update s.call t { s.call t with pc := pc } }

def addRef (o : κ) (d : ℤ) : PollSys κ Tid :=
  { s with refs := Function.update s.refs t (Function.update (s.refs t) o (s.refs t o + d)) }

def ret (result : Option (PollItem κ)) : PollSys κ Tid :=
  { s.setPc t .user with
    log := ⟨t, result, result.any fun it => s.seen t it.object,
    (s.sched t).pendingWakeup⟩ :: s.log }

def append (h : ℕ) (o : κ) (rest : List ℕ) : PollSys κ Tid :=
  { s with
    call := Function.update s.call t
      { s.call t with
        pc := .scan rest
        items := (s.call t).items ++ [⟨h, o⟩]
        triggered := Function.update (s.call t).triggered (s.call t).items.length false } }

/-- The object was found ready in the first pass. -/
def found (h : ℕ) (o : κ) : PollSys κ Tid :=
  s.setPc t (.put (o :: (s.call t).items.map PollItem.object) (some ⟨h, o⟩))

/-- The reference is dropped and the handle left out. -/
def skip (o : κ) (rest : List ℕ) : PollSys κ Tid :=
  (s.addRef t o (-1)).setPc t (.scan rest)

/-- The object of a handle is checked for the first time. -/
def check (h : ℕ) (o : κ) (mayRecv : Bool) (rest : List ℕ) : PollSys κ Tid :=
  match s.obj o with
  | .endpoint _ =>
    if mayRecv = false then s.skip t o rest
    else if (s.obj o).ready then s.found t h o
    else s.append t h o rest
  | .event _ => if (s.obj o).ready then s.found t h o else s.append t h o rest
  | .other => s.skip t o rest

/-- One step of the thread's own. Once the arrays are run through, the next phase begins. -/
def next : PollSys κ Tid :=
  match (s.call t).pc with
  | .user => s
  | .scan [] => if (s.call t).items = [] then s.ret t none else s.setPc t (.arm 0)
  | .scan (h :: rest) =>
    match s.table t h with
    | none => s.setPc t (.scan rest)
    | some (o, mayRecv) => (s.addRef t o 1).setPc t (.check h o mayRecv rest)
  | .check h o mayRecv rest => s.check t h o mayRecv rest
  | .arm i =>
    match (s.call t).items[i]? with
    | none => s.setPc t (.recheck 0)
    | some it =>
      { s.setPc t (.arm (i + 1)) with
        pollQueue := Function.update s.pollQueue it.object ((t, i) :: s.pollQueue it.object) }
  | .recheck i =>
    match (s.call t).items[i]? with
    | none => s.setPc t .blocking
    | some it =>
      if (s.obj it.object).ready then s.setPc t (.unlink 0 (some it))
        else s.setPc t (.recheck (i + 1))
  | .blocking =>
    { s.setPc t (if (s.sched t).pendingWakeup then .pick 0 else .asleep) with
      sched := Function.update s.sched t (s.sched t).block }
  | .asleep =>
    if (s.sched t).run = .woken then
      { s.setPc t (if (s.sched t).expired then .unlink 0 none else .pick 0) with
        sched := Function.update s.sched t (s.sched t).resume }
    else s
  | .pick i =>
    match (s.call t).items[i]? with
    | none => s.setPc t (.unlink 0 none)
    | some it =>
      if (s.call t).triggered i then s.setPc t (.unlink 0 (some it)) else s.setPc t (.pick (i + 1))
  | .unlink i result =>
    match (s.call t).items[i]? with
    | none => s.setPc t (.put ((s.call t).items.map PollItem.object) result)
    | some it =>
      { s.setPc t (.unlink (i + 1) result) with
        pollQueue := Function.update s.pollQueue it.object ((s.pollQueue it.object).erase (t, i)) }
  | .put [] result => s.ret t result
  | .put (o :: objs) result => (s.addRef t o (-1)).setPc t (.put objs result)

/-- An object becomes ready under its lock, with `poll_wakeup`, and then is in this state. -/
def arrive (o : κ) (ob : PollObject) : PollSys κ Tid :=
  { s with
    obj := Function.update s.obj o ob
    call := fun u => { s.call u with
      triggered := fun i => (s.call u).triggered i || decide ((u, i) ∈ s.pollQueue o) }
    sched := fun u => if u ∈ (s.pollQueue o).map Prod.fst then (s.sched u).wakeup else s.sched u
    seen := fun u => Function.update (s.seen u) o true }

def step : PollAction κ Tid → Option (PollSys κ Tid)
  | .waitAny t set timeout =>
    match (s.call t).pc with
    | .user =>
      if set.length = 0 ∨ ipcWaitMax < set.length then some (s.ret t none)
      else some { s with
        call := Function.update s.call t ⟨.scan set, timeout, [], (s.call t).triggered⟩
        seen := Function.update s.seen t fun o => (s.obj o).ready }
    | _ => some s
  | .next t => some (s.next t)
  | .expire t =>
    match (s.call t).pc with
    | .asleep =>
      if 0 < (s.call t).timeout then
        some { s with sched := Function.update s.sched t (s.sched t).expire }
      else some s
    | _ => some s
  | .send o =>
    match s.obj o with
    | .endpoint senders => some (s.arrive o (.endpoint (senders + 1)))
    | _ => some s
  | .receive o =>
    match s.obj o with
    | .endpoint senders => some { s with obj := Function.update s.obj o (.endpoint (senders - 1)) }
    | _ => some s
  | .signal o bits taken =>
    match s.obj o with
    | .event pendingBits =>
      if bits = 0 then some s
      else some (s.arrive o (.event (if taken then 0 else pendingBits ||| bits)))
    | _ => some s
  | .take o =>
    match s.obj o with
    | .event _ => some { s with obj := Function.update s.obj o (.event 0) }
    | _ => some s
  | .setHandle t h v =>
    some { s with table := Function.update s.table t (Function.update (s.table t) h v) }
  | .poke u => some { s with sched := Function.update s.sched u (s.sched u).wakeup }

end Step

/-- Nobody is in `ipc_wait_any`. -/
structure Init (s : PollSys κ Tid) : Prop where
  pollQueue : ∀ o, s.pollQueue o = []
  call : ∀ t, (s.call t).pc = .user
  sched : ∀ t, (s.sched t).run = .running
  refs : ∀ t o, s.refs t o = 0
  log : s.log = []

end PollSys

end Xnix
