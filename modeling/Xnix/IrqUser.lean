import Xnix.Kernel
import Xnix.Lib.Ring
import Xnix.Lib.Run

/-!
# IRQ bindings

`kernel/irq/irq_user.c` at the slots of one IRQ. Each step is a section under the lock of a slot:
`irq_bind_event` and `irq_unbind_event` go through the slots one by one, and other threads, readers
and the interrupt handlers come in between. Neither `process_exit` nor `process_unref` looks at the
bindings, and a call of another thread that is under way when the process exits goes on.
-/

namespace Xnix

def cfgIrqUserBufSize : ℕ := 64

/-- `struct irq_user_binding`; the ring's `tail` is the field `head`. `stored` lists the bytes put
in since the slot was bound, and `taken` counts those read. -/
structure IrqSlot (Pid Eid Tid : Type) where
  bound : Bool
  owner : Option Pid
  notif : Option Eid
  signalBits : BitVec 32
  ring : Lib.Ring UInt8
  waiter : Option Tid
  stored : List UInt8
  taken : ℕ

/-- A call at the slot it looks at next. -/
inductive IrqJob (Eid : Type)
  | bind (notif : Option Eid) (bits : BitVec 32) (i : ℕ)
  | unbind (i : ℕ)

/-- A process is live until `process_exit` makes it a zombie. `leftBound` records that an unbind
returned to a process with a binding. -/
structure IrqSys (Pid Eid Tid : Type) where
  slot : ℕ → IrqSlot Pid Eid Tid
  proc : Tid → Pid
  live : Pid → Bool
  job : Tid → Option (IrqJob Eid)
  leftBound : Bool

inductive IrqAction (Pid Eid Tid : Type)
  | bind (t : Tid) (notif : Option Eid) (bits : BitVec 32)
  | unbind (t : Tid)
  | scan (t : Tid)
  | push (i : ℕ) (data : UInt8)
  | signal (i : ℕ)
  | read (t : Tid) (i n : ℕ) (block : Bool)
  | exit (p : Pid)

variable {Pid Eid Tid : Type}

namespace IrqSlot

variable (b : IrqSlot Pid Eid Tid)

def OwnedBy (p : Pid) : Prop := b.bound = true ∧ b.owner = some p

instance [DecidableEq Pid] (b : IrqSlot Pid Eid Tid) (p : Pid) : Decidable (b.OwnedBy p) :=
  inferInstanceAs (Decidable (_ ∧ _))

/-- The buffer keeps its old bytes. -/
def bind (p : Pid) (notif : Option Eid) (bits : BitVec 32) : IrqSlot Pid Eid Tid :=
  ⟨true, some p, notif, bits, ⟨b.ring.buf, 0, 0⟩, none, [], 0⟩

def unbind : IrqSlot Pid Eid Tid :=
  ⟨false, none, none, 0#32, ⟨b.ring.buf, 0, 0⟩, none, [], 0⟩

/-- `irq_user_push`: a byte for a full buffer is dropped. -/
def push (data : UInt8) (b : IrqSlot Pid Eid Tid) : IrqSlot Pid Eid Tid :=
  if !b.bound then b
  else if (b.ring.tail + 1) % cfgIrqUserBufSize ≠ b.ring.head then
    { b with
      ring := b.ring.push cfgIrqUserBufSize data, waiter := none, stored := b.stored ++ [data] }
  else { b with waiter := none }

def signal : IrqSlot Pid Eid Tid := if b.bound then { b with waiter := none } else b

def take : ℕ → IrqSlot Pid Eid Tid → IrqSlot Pid Eid Tid
  | 0, b => b
  | n + 1, b =>
    if b.ring.head = b.ring.tail then b
    else take n { b with ring := b.ring.advance cfgIrqUserBufSize, taken := b.taken + 1 }

/-- One turn of the loop of `irq_user_read`, with room for `n` bytes; the owner was looked at
before. -/
def read (t : Tid) (n : ℕ) (block : Bool) (b : IrqSlot Pid Eid Tid) : IrqSlot Pid Eid Tid :=
  if !b.bound then b
  else if b.ring.head = b.ring.tail ∧ block then { b with waiter := some t }
  else b.take n

end IrqSlot

namespace IrqSys

def modify (s : IrqSys Pid Eid Tid) (i : ℕ) (f : IrqSlot Pid Eid Tid → IrqSlot Pid Eid Tid) :
    IrqSys Pid Eid Tid :=
  { s with slot := Function.update s.slot i (f (s.slot i)) }

variable [DecidableEq Pid] [DecidableEq Tid] (s : IrqSys Pid Eid Tid) (t : Tid)

def setJob (j : Option (IrqJob Eid)) : IrqSys Pid Eid Tid :=
  { s with job := Function.update s.job t j }

/-- The return of `irq_unbind_event`. -/
def leave : IrqSys Pid Eid Tid :=
  { s.setJob t none with
    leftBound := s.leftBound || (List.range irqUserMaxBindings).any fun i =>
    (s.slot i).OwnedBy (s.proc t) }

/-- The loop body of `irq_bind_event` and of `irq_unbind_event`. -/
def scan : IrqSys Pid Eid Tid :=
  match s.job t with
  | none => s
  | some (.bind notif bits i) =>
    if irqUserMaxBindings ≤ i ∨ (s.slot i).OwnedBy (s.proc t) then s.setJob t none
    else if (s.slot i).bound then s.setJob t (some (.bind notif bits (i + 1)))
    else (s.modify i fun b => b.bind (s.proc t) notif bits).setJob t none
  | some (.unbind i) =>
    if irqUserMaxBindings ≤ i then s.leave t
    else if (s.slot i).OwnedBy (s.proc t) then (s.modify i .unbind).leave t
    else s.setJob t (some (.unbind (i + 1)))

def start (j : IrqJob Eid) : IrqSys Pid Eid Tid :=
  if (s.job t).isNone then s.setJob t (some j) else s

def step : IrqAction Pid Eid Tid → Option (IrqSys Pid Eid Tid)
  | .bind t notif bits => some (s.start t (.bind notif bits 0))
  | .unbind t => some (s.start t (.unbind 0))
  | .scan t => some (s.scan t)
  | .push i data => some (s.modify i (.push data))
  | .signal i => some (s.modify i .signal)
  | .read t i n block => some (s.modify i (.read t n block))
  | .exit p => some { s with live := Function.update s.live p false }

structure Init (s : IrqSys Pid Eid Tid) : Prop where
  slot : ∀ i, (s.slot i).bound = false
  job : ∀ t, s.job t = none
  leftBound : s.leftBound = false

end IrqSys

end Xnix
