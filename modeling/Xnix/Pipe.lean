import Xnix.Blocking
import Xnix.Lib.Ring
import Xnix.Lib.Run
import Xnix.Thread

/-!
# Pipes at lock granularity

`kernel/ipc/pipe.c` as threads on several CPUs see it. What is done between two `spin_lock` and
`spin_unlock` of a pipe is one step; the lock is dropped around every byte that is copied from or to
user memory and around `sched_block_timeout`, which is called without a timeout. `poke` is a
`sched_wakeup_thread` from elsewhere; `poll_wakeup` is one.
-/

namespace Xnix

/-- `struct ipc_pipe` without its lock, queues and reference count. `entered` and `taken` record the
bytes stored and taken out, the latter with the number of the read. -/
structure IpcPipe where
  ring : Lib.Ring UInt8
  readerCount : ℕ
  writerCount : ℕ
  entered : List UInt8
  taken : List (ℕ × UInt8)

section Ring
variable (p : IpcPipe)

/-- `ring_used`, in 32 bits. -/
def ringUsed : ℕ := (pipeBufSize + (2 ^ 32 + p.ring.tail - p.ring.head)) % 2 ^ 32 % pipeBufSize

def ringFree : ℕ := pipeBufSize - 1 - ringUsed p

/-- One byte leaves the ring, for the read with this number. -/
def IpcPipe.take (op : ℕ) : IpcPipe :=
  { p with ring := p.ring.advance pipeBufSize, taken := p.taken ++ [(op, p.ring.front)] }

def IpcPipe.store (b : UInt8) : IpcPipe :=
  { p with ring := p.ring.push pipeBufSize b, entered := p.entered ++ [b] }

end Ring

/-- Where a thread is in `pipe_read` or `pipe_write`: before the lock, around the copy of byte `i`
of `n`, between the queue and the blocked list, or asleep. -/
inductive PipePc (κ : Type)
  | user
  | readHead (o : κ) (size : ℕ)
  | copyOut (o : κ) (n i : ℕ) (byte : UInt8)
  | readWait (o : κ) (size : ℕ)
  | readAsleep (o : κ) (size : ℕ)
  | writeHead (o : κ) (data : List UInt8) (total : ℕ)
  | copyIn (o : κ) (data : List UInt8) (total n i : ℕ)
  | writeWait (o : κ) (data : List UInt8) (total : ℕ)
  | writeAsleep (o : κ) (data : List UInt8) (total : ℕ)
  deriving DecidableEq

/-- The place of a thread, the number of the operation it is in, and what this operation has copied
to the user's buffer. -/
structure PipeJob (κ : Type) where
  pc : PipePc κ
  op : ℕ
  ubuf : List UInt8
  deriving DecidableEq

inductive PipeOp
  | read | write
  deriving DecidableEq

/-- An operation that has returned: a read with the bytes in the user's buffer. -/
structure PipeReturn (κ : Type) where
  kind : PipeOp
  pipe : κ
  op : ℕ
  result : ℤ
  data : List UInt8
  deriving DecidableEq

/-- The pipes, the threads and the wait queues. `nextOp` and `log` have no counterpart in the
source. -/
structure PipeSys (κ Tid : Type) where
  pipe : κ → IpcPipe
  job : Tid → PipeJob κ
  sched : Tid → Waiter
  links : Lib.Links (Queue κ) Tid
  nextOp : ℕ
  log : List (PipeReturn κ)

/-- The steps of `pipe_read` and `pipe_write`, with what a copy answers; `poke` wakes a thread from
elsewhere. -/
inductive PipeAction (κ Tid : Type)
  | read (t : Tid) (o : κ) (size : ℕ)
  | write (t : Tid) (o : κ) (data : List UInt8)
  | lock (t : Tid)
  | copied (t : Tid) (ok : Bool)
  | block (t : Tid)
  | resume (t : Tid)
  | openRead (o : κ)
  | openWrite (o : κ)
  | closeRead (o : κ)
  | closeWrite (o : κ)
  | poke (u : Tid)

section Sections
variable {κ Tid : Type} [DecidableEq κ] [DecidableEq Tid]

namespace PipeSys

section
variable (s : PipeSys κ Tid) (t : Tid)

def setPc (pc : PipePc κ) : PipeSys κ Tid :=
  { s with job := Function.update s.job t { s.job t with pc := pc } }

def setPipe (o : κ) (p : IpcPipe) : PipeSys κ Tid :=
  { s with pipe := Function.update s.pipe o p }

def ret (kind : PipeOp) (o : κ) (r : ℤ) : PipeSys κ Tid :=
  { s.setPc t .user with log := ⟨kind, o, (s.job t).op, r, (s.job t).ubuf⟩ :: s.log }

def enqueue (q : Queue κ) (t : Tid) : PipeSys κ Tid :=
  { s with links := s.links.push q t }

def start (pc : PipePc κ) : PipeSys κ Tid :=
  { s with job := Function.update s.job t ⟨pc, s.nextOp, []⟩, nextOp := s.nextOp + 1 }

def putUser (byte : UInt8) : PipeSys κ Tid :=
  { s with job := Function.update s.job t { s.job t with ubuf := (s.job t).ubuf ++ [byte] } }

end

variable [Fintype Tid] (s : PipeSys κ Tid) (t : Tid)

def wakeupAll (q : Queue κ) : PipeSys κ Tid :=
  { s with
    sched := fun u => if u ∈ (s.links.takeAll q).1 then (s.sched u).wakeup else s.sched u
    links := (s.links.takeAll q).2 }

/-- Byte `i` of `n` leaves the ring, and the lock is dropped to copy it. -/
def takeByte (o : κ) (n i : ℕ) : PipeSys κ Tid :=
  (s.setPipe o ((s.pipe o).take (s.job t).op)).setPc t (.copyOut o n i (s.pipe o).ring.front)

/-- The head of the loop of `pipe_read`. -/
def readHead (o : κ) (size : ℕ) : PipeSys κ Tid :=
  if 0 < ringUsed (s.pipe o) then s.takeByte t o (min (ringUsed (s.pipe o)) size) 0
  else if (s.pipe o).writerCount = 0 then s.ret t .read o 0
  else (s.enqueue (.read, o) t).setPc t (.readWait o size)

/-- `pipe_read` after `copy_to_user` of byte `i`. A byte that could not be copied has left the
ring. -/
def copiedOut (o : κ) (n i : ℕ) (byte : UInt8) (ok : Bool) : PipeSys κ Tid :=
  if ok then
    if i + 1 < n then (s.putUser t byte).takeByte t o n (i + 1)
    else ((s.putUser t byte).wakeupAll (.write, o)).ret t .read o n
  else (s.wakeupAll (.write, o)).ret t .read o (-eFault)

/-- The head of the loop of `pipe_write`. -/
def writeHead (o : κ) (data : List UInt8) (total : ℕ) : PipeSys κ Tid :=
  if (s.pipe o).readerCount = 0 then s.ret t .write o (-ePipe)
  else if 0 < ringFree (s.pipe o) then
    s.setPc t (.copyIn o data total (min (data.length - total) (ringFree (s.pipe o))) 0)
  else (s.enqueue (.write, o) t).setPc t (.writeWait o data total)

/-- Byte `i` of this pass is stored in the ring. -/
def storeByte (o : κ) (data : List UInt8) (total n i : ℕ) : PipeSys κ Tid :=
  (s.setPipe o ((s.pipe o).store (data.getD (total + i) 0))).setPc t
    (.copyIn o data total n (i + 1))

/-- `pipe_write` after `copy_from_user` of byte `i` of a pass. When a later copy fails, the bytes
stored stay in the ring and are not counted. -/
def copiedIn (o : κ) (data : List UInt8) (total n i : ℕ) (ok : Bool) : PipeSys κ Tid :=
  if ok then
    if i + 1 < n then s.storeByte t o data total n i
    else if data.length ≤ total + n then
      ((s.storeByte t o data total n i).wakeupAll (.read, o)).ret t .write o (total + n : ℕ)
    else ((s.storeByte t o data total n i).wakeupAll (.read, o)).writeHead t o data (total + n)
  else (s.wakeupAll (.read, o)).ret t .write o (if 0 < total then total else -eFault)

/-- `sched_block_timeout`, with the places of the thread when it goes on and when it sleeps. -/
def block (s : PipeSys κ Tid) (t : Tid) (goOn asleep : PipePc κ) : PipeSys κ Tid :=
  { s.setPc t (if (s.sched t).pendingWakeup then goOn else asleep) with
    sched := Function.update s.sched t (s.sched t).block }

def resume (s : PipeSys κ Tid) (t : Tid) (goOn : PipePc κ) : PipeSys κ Tid :=
  if (s.sched t).run = .woken then
    { s.setPc t goOn with sched := Function.update s.sched t (s.sched t).resume }
  else s

def closeRead (o : κ) : PipeSys κ Tid :=
  if (s.pipe o).readerCount ≤ 1 then
    (s.setPipe o { s.pipe o with readerCount := 0 }).wakeupAll (.write, o)
  else s.setPipe o { s.pipe o with readerCount := (s.pipe o).readerCount - 1 }

def closeWrite (o : κ) : PipeSys κ Tid :=
  if (s.pipe o).writerCount ≤ 1 then
    (s.setPipe o { s.pipe o with writerCount := 0 }).wakeupAll (.read, o)
  else s.setPipe o { s.pipe o with writerCount := (s.pipe o).writerCount - 1 }

def step : PipeAction κ Tid → Option (PipeSys κ Tid)
  | .read t o size =>
    match (s.job t).pc with
    | .user =>
      if size = 0 then some ((s.start t (.readHead o size)).ret t .read o (-eInval))
      else some (s.start t (.readHead o size))
    | _ => some s
  | .write t o data =>
    match (s.job t).pc with
    | .user =>
      if data.length = 0 then some ((s.start t (.writeHead o data 0)).ret t .write o (-eInval))
      else some (s.start t (.writeHead o data 0))
    | _ => some s
  | .lock t =>
    match (s.job t).pc with
    | .readHead o size => some (s.readHead t o size)
    | .writeHead o data total => some (s.writeHead t o data total)
    | _ => some s
  | .copied t ok =>
    match (s.job t).pc with
    | .copyOut o n i byte => some (s.copiedOut t o n i byte ok)
    | .copyIn o data total n i => some (s.copiedIn t o data total n i ok)
    | _ => some s
  | .block t =>
    match (s.job t).pc with
    | .readWait o size => some (s.block t (.readHead o size) (.readAsleep o size))
    | .writeWait o data total =>
      some (s.block t (.writeHead o data total) (.writeAsleep o data total))
    | _ => some s
  | .resume t =>
    match (s.job t).pc with
    | .readAsleep o size => some (s.resume t (.readHead o size))
    | .writeAsleep o data total => some (s.resume t (.writeHead o data total))
    | _ => some s
  | .openRead o => some (s.setPipe o { s.pipe o with readerCount := (s.pipe o).readerCount + 1 })
  | .openWrite o => some (s.setPipe o { s.pipe o with writerCount := (s.pipe o).writerCount + 1 })
  | .closeRead o => some (s.closeRead o)
  | .closeWrite o => some (s.closeWrite o)
  | .poke u => some { s with sched := Function.update s.sched u (s.sched u).wakeup }

end PipeSys

end Sections

section Init
variable {κ Tid : Type}

/-- What `pipe_create` makes, on zeroed memory. -/
def newPipe : IpcPipe where
  ring := ⟨fun _ => 0, 0, 0⟩
  readerCount := 1
  writerCount := 1
  entered := []
  taken := []

structure PipeSys.Init (s : PipeSys κ Tid) : Prop where
  pipe : ∀ o, s.pipe o = newPipe
  job : ∀ t, (s.job t).pc = .user
  sched : ∀ t, (s.sched t).run = .running
  links : s.links = ⟨fun _ => none, fun _ => none⟩
  log : s.log = []

def initPipes : PipeSys κ Tid where
  pipe := fun _ => newPipe
  job := fun _ => ⟨.user, 0, []⟩
  sched := fun _ => .fresh
  links := ⟨fun _ => none, fun _ => none⟩
  nextOp := 0
  log := []

theorem init_initPipes : (initPipes : PipeSys κ Tid).Init :=
    ⟨fun _ => rfl, fun _ => rfl, fun _ => rfl, rfl, rfl⟩

end Init

end Xnix
