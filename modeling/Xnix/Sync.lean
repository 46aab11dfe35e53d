import Xnix.Blocking
import Xnix.Lib.Run

/-!
# Mutexes and semaphores

`lib/sync/mutex.c` and `semaphore.c` at lock granularity: what a thread does while it holds the
guard of an object, or `sched_lock`, is one step. `mutex_lock` and `semaphore_down` have the same
shape, and so have `mutex_unlock` and `semaphore_up`; the objects differ in what is done under the
guard.
-/

namespace Xnix

variable {κ Tid : Type}

section Objects
variable {Tid : Type}

/-- `mutex_t`; `waiters` is never used. -/
structure Mutex (Tid : Type) where
  locked : Bool
  owner : Option Tid
  deriving DecidableEq

structure Semaphore where
  count : ℤ
  deriving DecidableEq

/-- `mutex_lock` under the guard; `none` when the thread has to wait. -/
def mutexLock (m : Mutex Tid) (t : Tid) : Option (Mutex Tid) :=
  if m.locked then none else some ⟨true, some t⟩

/-- `mutex_unlock` under the guard, whoever calls it. -/
def mutexUnlock (_ : Mutex Tid) : Mutex Tid := ⟨false, none⟩

/-- `semaphore_down` under the guard; `none` when the thread has to wait. -/
def semaphoreDown (s : Semaphore) : Option Semaphore :=
  if s.count ≤ 0 then none else some ⟨s.count - 1⟩

/-- `semaphore_up` under the guard. -/
def semaphoreUp (s : Semaphore) : Semaphore := ⟨s.count + 1⟩

inductive SyncObject (Tid : Type)
  | mutex (m : Mutex Tid)
  | semaphore (s : Semaphore)
  deriving DecidableEq

def SyncObject.acquire (o : SyncObject Tid) (t : Tid) : Option (SyncObject Tid) :=
  match o with
  | .mutex m => (mutexLock m t).map .mutex
  | .semaphore s => (semaphoreDown s).map .semaphore

def SyncObject.release : SyncObject Tid → SyncObject Tid
  | .mutex m => .mutex (mutexUnlock m)
  | .semaphore s => .semaphore (semaphoreUp s)

def SyncObject.free : SyncObject Tid → Bool
  | .mutex m => !m.locked
  | .semaphore s => 0 < s.count

def SyncObject.isMutex : SyncObject Tid → Bool
  | .mutex _ => true
  | .semaphore _ => false

end Objects

/-- Where a thread is: outside, before the guard, between the guard and `sched_block`, in it, or
between the guard of a release and `sched_wakeup`. -/
inductive SyncPc (κ : Type)
  | user
  | trying (o : κ)
  | registering (o : κ)
  | asleep (o : κ)
  | waking (o : κ)
  deriving DecidableEq

structure SyncThread (κ : Type) where
  pc : SyncPc κ
  sched : Waiter
  deriving DecidableEq

/-- The threads and the objects, with which threads are inside and how often each object was
acquired and released. -/
structure SyncSys (κ Tid : Type) where
  obj : κ → SyncObject Tid
  thr : Tid → SyncThread κ
  inside : κ → Tid → Bool
  downs : κ → ℕ
  ups : κ → ℕ

/-- The steps. `acquire` and `release` are calls of a thread, `poke` is a `sched_wakeup_thread` from
another part of the kernel. -/
inductive SyncAction (κ Tid : Type)
  | acquire (t : Tid) (o : κ)
  | attempt (t : Tid)
  | register (t : Tid)
  | resume (t : Tid)
  | release (t : Tid) (o : κ)
  | wake (t : Tid)
  | poke (u : Tid)

section Step
variable [DecidableEq κ] [DecidableEq Tid]

def SyncSys.setThr (s : SyncSys κ Tid) (t : Tid) (v : SyncThread κ) : SyncSys κ Tid :=
  { s with thr := Function.update s.thr t v }

section Fields
variable (s : SyncSys κ Tid) (t : Tid) (v : SyncThread κ)

omit [DecidableEq κ] in
@[simp] theorem SyncSys.setThr_self : (s.setThr t v).thr t = v := Function.update_self ..

omit [DecidableEq κ] in
theorem SyncSys.setThr_of_ne {u : Tid} (h : u ≠ t) : (s.setThr t v).thr u = s.thr u :=
    Function.update_of_ne h ..

end Fields

variable (s : SyncSys κ Tid) (t : Tid)

/-- The guard section of `mutex_lock` and `semaphore_down`. -/
def SyncSys.attempt (o : κ) : SyncSys κ Tid :=
  match (s.obj o).acquire t with
  | some ob =>
    { s.setThr t { s.thr t with pc := .user } with
      obj := Function.update s.obj o ob
      inside := Function.update s.inside o (Function.update (s.inside o) t true)
      downs := Function.update s.downs o (s.downs o + 1) }
  | none => s.setThr t { s.thr t with pc := .registering o }

/-- `sched_block` up to `schedule`. -/
def SyncSys.register (o : κ) : SyncSys κ Tid :=
  s.setThr t ⟨if (s.thr t).sched.pendingWakeup then .trying o else .asleep o, (s.thr t).sched.block⟩

/-- The guard section of `mutex_unlock` and `semaphore_up`. -/
def SyncSys.release (s : SyncSys κ Tid) (t : Tid) (o : κ) : SyncSys κ Tid :=
  { s.setThr t { s.thr t with pc := .waking o } with
    obj := Function.update s.obj o (s.obj o).release
    inside := Function.update s.inside o (Function.update (s.inside o) t false)
    ups := Function.update s.ups o (s.ups o + 1) }

/-- `sched_wakeup` on the address of the object. -/
def SyncSys.wake (o : κ) : SyncSys κ Tid :=
  { s with
    thr := fun u =>
      if u = t then { s.thr u with pc := .user }
      else if (s.thr u).pc = .asleep o then { s.thr u with sched := (s.thr u).sched.release }
      else s.thr u }

def SyncSys.step : SyncAction κ Tid → Option (SyncSys κ Tid)
  | .acquire t o =>
    match (s.thr t).pc with
    | .user => some (s.setThr t { s.thr t with pc := .trying o })
    | _ => some s
  | .attempt t =>
    match (s.thr t).pc with
    | .trying o => some (s.attempt t o)
    | _ => some s
  | .register t =>
    match (s.thr t).pc with
    | .registering o => some (s.register t o)
    | _ => some s
  | .resume t =>
    match (s.thr t).pc with
    | .asleep o =>
      if (s.thr t).sched.run = .woken then some (s.setThr t ⟨.trying o, (s.thr t).sched.resume⟩)
      else some s
    | _ => some s
  | .release t o =>
    match (s.thr t).pc with
    | .user => some (s.release t o)
    | _ => some s
  | .wake t =>
    match (s.thr t).pc with
    | .waking o => some (s.wake t o)
    | _ => some s
  | .poke u => some (s.setThr u { s.thr u with sched := (s.thr u).sched.wakeup })

end Step

/-- New objects: mutexes unlocked, semaphores with these counts. -/
structure SyncSys.Init (init : κ → Option ℕ) (s : SyncSys κ Tid) : Prop where
  obj : ∀ o, s.obj o = match init o with
    | none => .mutex ⟨false, none⟩
    | some n => .semaphore ⟨n⟩
  thr : ∀ t, (s.thr t).pc = .user ∧ (s.thr t).sched.run = .running
  inside : ∀ o t, s.inside o t = false
  downs : ∀ o, s.downs o = 0
  ups : ∀ o, s.ups o = 0

def initSync (init : κ → Option ℕ) : SyncSys κ Tid where
  obj := fun o => match init o with
    | none => .mutex ⟨false, none⟩
    | some n => .semaphore ⟨n⟩
  thr := fun _ => ⟨.user, .fresh⟩
  inside := fun _ _ => false
  downs := fun _ => 0
  ups := fun _ => 0

theorem init_initSync (init : κ → Option ℕ) : (initSync init : SyncSys κ Tid).Init init where
  obj := fun _ => rfl
  thr := fun _ => ⟨rfl, rfl⟩
  inside := fun _ _ => rfl
  downs := fun _ => rfl
  ups := fun _ => rfl

end Xnix
