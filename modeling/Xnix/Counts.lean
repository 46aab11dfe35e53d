import Xnix.HandleMachine

/-!
# Who holds a reference to an object

`Balanced` says that the counts the kernel keeps are the numbers of holders: handle entries,
watches, IRQ bindings, and whoever the state at hand adds to these. An entry that is being made or
destroyed is counted as *loose*: it holds what an entry holds and is in no table.
-/

namespace Xnix

variable {Pid Oid : Type}

section Holders
variable [DecidableEq Oid]

def namesObject (o : Oid) : Option (HandleEntry Oid) → Bool
  | some e => e.object = o
  | none => false

def namesEnd (type : HandleType) (o : Oid) : Option (HandleEntry Oid) → Bool
  | some e => e.type = type ∧ e.object = o
  | none => false

def watchWeight (o : Oid) : Option (Object Pid Oid) → ℕ
  | some ⟨.watch w, _, _⟩ => if w.notif = o then 1 else 0
  | _ => 0

def bindsEvent (o : Oid) : Option (IrqBinding Pid Oid) → Bool
  | some b => b.notif = some o
  | none => false

section Tables
variable [Fintype Pid]

def Kernel.entries (k : Kernel Pid Oid) (o : Oid) : ℕ :=
  ∑ p, (k.table p).countP (namesObject o)

/-- The entries of one type naming `o`: the open ends of a pipe. -/
def Kernel.ends (k : Kernel Pid Oid) (type : HandleType) (o : Oid) : ℕ :=
  ∑ p, (k.table p).countP (namesEnd type o)

end Tables

/-- The watches that hold the event `o`. -/
def Kernel.watchRefs [Fintype Oid] (k : Kernel Pid Oid) (o : Oid) : ℕ :=
  ∑ w, watchWeight o (k.obj w)

/-- The IRQ bindings that hold the event `o`. -/
def Kernel.irqRefs (k : Kernel Pid Oid) (o : Oid) : ℕ :=
  ∑ i, (k.irq i).countP (bindsEvent o)

end Holders

/-- One more external reference to `o`. -/
def plus [DecidableEq Oid] (ext : Oid → ℕ) (o : Oid) : Oid → ℕ :=
  fun x => ext x + if x = o then 1 else 0

section Balanced
variable [Fintype Pid] [Fintype Oid] [DecidableEq Oid]

/-- Every object's counts are the numbers of its holders: entries in tables, loose entries, watches,
IRQ bindings, and `ext o` from outside. -/
structure Balanced (k : Kernel Pid Oid) (ext : Oid → ℕ) (loose : List (Hold Oid)) : Prop where
  tableFits : ∀ p pr, k.proc p = some pr → TableFits pr.handles
  entryTyped : ∀ p (h : ℕ) (e : HandleEntry Oid), (k.table p)[h]? = some (some e) →
    (k.typed e.type e.object).isSome
  looseTyped : ∀ x ∈ loose, (k.typed x.1 x.2).isSome
  watchTyped : ∀ w ob wt, k.obj w = some ob → ob.kind = .watch wt →
    ∃ ob', k.obj wt.notif = some ob' ∧ ob'.kind = .event
  irqTyped : ∀ i b o, some b ∈ k.irq i → b.notif = some o →
    ∃ ob, k.obj o = some ob ∧ ob.kind = .event
  refs : ∀ o ob, k.obj o = some ob →
    ob.refcount = k.entries o + loose.countP (·.2 = o) + k.watchRefs o + k.irqRefs o + ext o
  freed : ∀ o, k.obj o = none → ext o = 0
  pipes : ∀ o ob r w, k.obj o = some ob → ob.kind = .pipe r w →
    r = k.ends .pipeRead o + loose.count (.pipeRead, o) ∧
    w = k.ends .pipeWrite o + loose.count (.pipeWrite, o)

end Balanced

section Machine
variable [DecidableEq Oid]

/-- The references operations in progress hold to `o`. -/
def opsRefs (ops : List (Hold Oid)) (o : Oid) : ℕ := ops.countP (·.2 = o)

variable [Fintype Pid] [Fintype Oid]

/-- The counts of pipes, events and physical-memory regions are the numbers of their holders. -/
def ObjectsCounted (w : World Pid Oid) : Prop :=
  ∀ o ob, w.kernel.obj o = some ob →
    match ob.kind with
    | .pipe readers writers =>
      readers = w.kernel.ends .pipeRead o ∧ writers = w.kernel.ends .pipeWrite o ∧
        ob.refcount = readers + writers + opsRefs w.ops o
    | .event | .physmem _ =>
      ob.refcount
        = w.kernel.entries o + w.kernel.irqRefs o + w.kernel.watchRefs o + opsRefs w.ops o
    | _ => True

end Machine

end Xnix
