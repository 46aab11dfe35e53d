import Xnix.ThreadMachine

/-!
# The moves of a step

A step of the machine is a sequence of moves: a thread enters the kernel, hands its message over or
takes one, wakes others, joins a queue, and blocks or returns. Every invariant of the threads is a
statement about single moves. `Move` also remembers that the step it belongs to was allowed.
-/

namespace Xnix

open Option

variable {Pid Oid Tid : Type} {t u : Tid}

inductive Stage
  | fresh | passed | woken | expired

/-- What an operation can return. A call whose message was passed on waits for its reply first. -/
def Stage.Returns (kind : OpKind) : Stage → ℤ → Prop
  | .fresh, r => r ≠ 0 ∧ r ≠ -eTimedOut
  | .passed, r => r = 0 ∧ kind ≠ .call
  | .woken, r => r = 0
  | .expired, r => r = -eTimedOut

inductive Phase (Tid : Type)
  | user
  | sys (t : Tid)
  | ipc (t : Tid) (kind : OpKind) (stage : Stage)

def Phase.thread : Phase Tid → Option Tid
  | .user => none
  | .sys t | .ipc t _ _ => some t

def Wait.kind : Wait Oid → Option OpKind
  | .sendQueued _ => some .send
  | .callQueued _ | .callSent _ => some .call
  | .recv _ => some .recv
  | _ => none

def Wait.phase (w : Wait Oid) (t : Tid) (stage : Stage) : Phase Tid :=
  match w.kind with
  | some kind => .ipc t kind stage
  | none => .sys t

inductive Opens : OpKind → Option (IpcMessage Pid Tid) → Option (IpcMessage Pid Tid) → Prop
  | send {m : IpcMessage Pid Tid} : m.isOneWay → Opens .send (some m) none
  | call {m b : IpcMessage Pid Tid} : m.isOneWay = false → Opens .call (some m) (some b)
  | recv {b : IpcMessage Pid Tid} : Opens .recv none (some b)

section Fields
variable [DecidableEq Tid]

theorem modify_thr_self (s : Sys Pid Oid Tid) (t : Tid)
    (f : Thread Pid Oid Tid → Thread Pid Oid Tid) : (s.modify t f).thr t = f (s.thr t) := by
  simp [Sys.modify]

theorem modify_thr_of_ne (s : Sys Pid Oid Tid) (f : Thread Pid Oid Tid → Thread Pid Oid Tid)
    (h : u ≠ t) : (s.modify t f).thr u = s.thr u := by
  simp [Sys.modify, h]

theorem modify_field {α : Type} (g : Thread Pid Oid Tid → α) (s : Sys Pid Oid Tid) (t u : Tid)
    {f : Thread Pid Oid Tid → Thread Pid Oid Tid} (hf : ∀ th, g (f th) = g th) :
    g ((s.modify t f).thr u) = g (s.thr u) := by
  by_cases h : u = t
  · subst h
    rw [modify_thr_self, hf]
  · rw [modify_thr_of_ne s f h]

variable (s : Sys Pid Oid Tid)
include s

theorem schedWakeupThread_thr_self (u : Tid) : (schedWakeupThread s u).thr u = { s.thr u with
      pendingWakeup := true
      state := if u ∈ s.blocked ∨ (s.thr u).state = .blocked then .ready
        else (s.thr u).state } := by
  simp [schedWakeupThread, Sys.modify]

theorem schedWakeupThread_thr_ready (h : (s.thr u).state ≠ .exited) :
    (schedWakeupThread s u).thr u = { s.thr u with
      pendingWakeup := true
      state := .ready } := by
  rw [schedWakeupThread_thr_self]
  split_ifs with hb
  · rfl
  · rcases hst : (s.thr u).state with _ | _ | _
    · rfl
    · exact absurd (.inr hst) hb
    · exact absurd hst h

theorem schedWakeupThread_thr_of_ne (h : t ≠ u) : (schedWakeupThread s u).thr t = s.thr t := by
  simp [schedWakeupThread, Sys.modify, h]

theorem sleepAt_thr_self (t : Tid) (b : Blocking Oid) : (s.sleepAt t b).thr t = { s.thr t with
      state := .blocked, pc := some b, wakeupTick := b.deadline s.now (s.thr t).wakeupTick } := by
  simp [Sys.sleepAt, Sys.modify]

theorem sleepAt_thr_of_ne (b : Blocking Oid) (h : u ≠ t) : (s.sleepAt t b).thr u = s.thr u := by
  simp [Sys.sleepAt, Sys.modify, h]

theorem begin_thr_self (t : Tid) (req buf : Option (IpcMessage Pid Tid)) :
    (s.begin t req buf).thr t = { s.thr t with op := s.nextOp, req := req, buf := buf } := by
  simp [Sys.begin, Sys.modify]

theorem begin_thr_of_ne (hne : u ≠ t) (req buf : Option (IpcMessage Pid Tid)) :
    (s.begin t req buf).thr u = s.thr u := by
  simp [Sys.begin, Sys.modify, hne]

end Fields

section Inversion
variable {s s' : Sys Pid Oid Tid}

theorem onKernel_eq_some {r : Option (Kernel Pid Oid)} (h : s.onKernel r = some s') :
    ∃ k, r = some k ∧ s' = { s with kernel := k } := by
  obtain ⟨k, hk, rfl⟩ := map_eq_some_iff.mp h
  exact ⟨k, hk, rfl⟩

variable [DecidableEq Tid]

theorem wakeQueued_eq_some (h : s.wakeQueued u = some s') :
    (s.thr u).state ≠ .exited ∧ s' = schedWakeupThread s u := by
  unfold Sys.wakeQueued at h
  split_ifs at h with hx
  cases h
  exact ⟨hx, rfl⟩

variable [DecidableEq Pid]

/-- The ends of a system call: in user mode, stopped, or with the process terminated. -/
theorem leave_cases (s : Sys Pid Oid Tid) (t : Tid) (op : Option (OpKind × ℕ)) (r : ℤ) :
    ∃ s1 sig stopped, s1 = { s.returned t op r with sig := sig, stopped := stopped } ∧
    (s.leave t op r = s1 ∨
      s.leave t op r = s1.modify t (fun th => { th with pendingWakeup := false }) ∨
      s.leave t op r = s1.sleepAt t ⟨.stop, 0⟩ ∨
      s.leave t op r = processTerminateCurrent s1 (s.thr t).owner) := by
  have howner : ((s.returned t op r).thr t).owner = (s.thr t).owner := by
    simp [Sys.returned, Sys.record, Sys.modify]
  unfold Sys.leave processCheckSignals
  simp only [howner]
  have hstop : ∀ (s0 : Sys Pid Oid Tid) (sig : ℕ), ∃ sig' stopped, processStopCurrent s0 t sig =
        { s0 with sig := sig', stopped := stopped }.modify t
          (fun th => { th with pendingWakeup := false }) ∨
      processStopCurrent s0 t sig =
        { s0 with sig := sig', stopped := stopped }.sleepAt t ⟨.stop, 0⟩ := by
    intro s0 sig
    unfold processStopCurrent
    simp only
    split_ifs
    · exact ⟨_, _, .inl rfl⟩
    · exact ⟨_, _, .inr rfl⟩
  split_ifs
  · obtain ⟨sig, stopped, h⟩ := hstop _ sigStop
    exact ⟨_, sig, stopped, rfl, h.elim (fun h => .inr (.inl h)) fun h => .inr (.inr (.inl h))⟩
  · obtain ⟨sig, stopped, h⟩ := hstop _ sigTstp
    exact ⟨_, sig, stopped, rfl, h.elim (fun h => .inr (.inl h)) fun h => .inr (.inr (.inl h))⟩
  · split
    · exact ⟨_, _, (s.returned t op r).stopped, rfl, .inr (.inr (.inr rfl))⟩
    · exact ⟨_, _, (s.returned t op r).stopped, rfl, .inl rfl⟩

variable [DecidableEq Oid] {m : IpcMessage Pid Tid}

theorem copyMsg_eq_some {src dst : Tid} {room : IpcMessage Pid Tid}
    (h : s.copyMsg src dst m room = some s') :
    ∃ k got, s' = { s with kernel := k }.modify dst fun th =>
      { th with buf := some (room.copyFrom m got) } := by
  obtain ⟨x, -, rfl⟩ := map_eq_some_iff.mp h
  exact ⟨x.1, x.2, rfl⟩

def IpcMessage.stamped (m : IpcMessage Pid Tid) (src : Tid) (owner : Pid) : IpcMessage Pid Tid :=
  { m with senderTid := some src, senderPid := some owner }

/-- What a receiver has after a hand-over or a receive of the message of `src`. -/
def Thread.received (th : Thread Pid Oid Tid) (src : Tid) (from_ : Thread Pid Oid Tid)
    (m : IpcMessage Pid Tid) : Thread Pid Oid Tid :=
  { th with ipcPeer := some src, peerOp := from_.op, buf := some (m.stamped src from_.owner) }

theorem handOver_eq_some {r : Tid} {ep : Oid} (h : s.handOver t r ep m = some s') :
    ∃ k room got, (s.thr r).replyTarget = some room ∧ (s.thr r).state ≠ .exited ∧
    s' = schedWakeupThread ({ s with
        kernel := k
        links := s.links.drop (.recv, ep) r
        log := .took (s.thr t).op t (s.thr r).op r :: s.log }.modify r fun th =>
          th.received t (s.thr t) (room.copyFrom m got)) r := by
  simp only [Sys.handOver, Sys.endpointUnref, bind_eq_bind, bind_eq_some_iff] at h
  obtain ⟨s1, h1, room, hroom, s2, h2, h⟩ := h
  obtain ⟨k1, -, rfl⟩ := onKernel_eq_some h1
  obtain ⟨k2, got, rfl⟩ := copyMsg_eq_some h2
  obtain ⟨hx, rfl⟩ := wakeQueued_eq_some h
  refine ⟨k2, room, got, hroom, fun hex => hx ?_, ?_⟩
  · simpa [Sys.stampSender, Sys.record, Sys.modify, Sys.setLinks] using hex
  · congr 1
    simp only [Sys.stampSender, Sys.record, Sys.modify, Sys.setLinks, Function.update_idem,
      Function.update_self, Thread.received, IpcMessage.stamped, map_some]
    by_cases htr : t = r
    · subst htr
      simp
    · simp [htr]

/-- What `takeMsg` and `stampSender` do together: the message is copied, or its sender has none any
more. -/
theorem takeMsg_eq_some (h : s.takeMsg t u = some s') : ((s.thr u).ipcReqMsg = none ∧ s' = s) ∨
    ∃ k m room got, (s.thr u).reqTarget = some m ∧ (s.thr t).buf = some room ∧ s' = { s with
        kernel := k
        log := .took (s.thr u).op u (s.thr t).op t :: s.log }.modify t fun th =>
          { th with buf := some (room.copyFrom m got) } := by
  unfold Sys.takeMsg at h
  split at h
  · rename_i hmsg
    cases h
    exact .inl ⟨hmsg, rfl⟩
  · simp only [bind_eq_bind, bind_eq_some_iff] at h
    obtain ⟨m, hm, room, hroom, s1, h1, h⟩ := h
    obtain ⟨k, got, rfl⟩ := copyMsg_eq_some h1
    cases h
    refine .inr ⟨k, m, room, got, hm, hroom, ?_⟩
    simp only [Sys.record, Sys.modify]
    congr 2
    by_cases hut : u = t
    · subst hut
      simp
    · simp [hut]

theorem takeFrom_eq_some {ep : Oid} (h : s.takeFrom t u ep = some s') :
    (s.thr u).state ≠ .exited ∧ ∃ k s1,
      { s with kernel := k, links := s.links.drop (.send, ep) u }.takeMsg t u = some s1 ∧
      s' = (s1.stampSender u t).release u := by
  unfold Sys.takeFrom Sys.endpointUnref at h
  split_ifs at h with hx
  simp only [bind_eq_some_iff, map_eq_some_iff] at h
  obtain ⟨s0, h0, s1, h1, rfl⟩ := h
  obtain ⟨k, -, rfl⟩ := onKernel_eq_some h0
  exact ⟨hx, k, s1, h1, rfl⟩

theorem copyReply_eq_some {request : ℕ} (h : s.copyReply t u m request = some s') :
    ((s.thr u).ipcReplyMsg = none ∧ s' = s) ∨
    ∃ k room got, (s.thr u).replyTarget = some room ∧
      s' = { s with kernel := k, log := .replied (s.thr u).op request :: s.log }.modify u fun th =>
        { th with buf := some (room.copyFrom m got) } := by
  unfold Sys.copyReply at h
  split at h
  · rename_i hmsg
    cases h
    exact .inl ⟨hmsg, rfl⟩
  · simp only [bind_eq_bind, bind_eq_some_iff] at h
    obtain ⟨room, hroom, s1, h1, h⟩ := h
    obtain ⟨k, got, rfl⟩ := copyMsg_eq_some h1
    cases h
    refine .inr ⟨k, room, got, hroom, ?_⟩
    simp [Sys.record, Sys.modify]

end Inversion

section Rouse
variable [DecidableEq Tid] (s : Sys Pid Oid Tid)

def Cmd.answers (t : Tid) : Cmd Pid Oid Tid → Option (Tid × ℕ)
  | .reply _ => ((s.thr t).ipcPeer.bind (schedLookupBlocked s)).map (·, (s.thr t).peerOp)
  | .replyTo tid _ request => (schedLookupBlocked s tid).map (·, request)
  | _ => none

def Cmd.isReply : Cmd Pid Oid Tid → Bool
  | .reply _ | .replyTo _ _ _ => true
  | _ => false

def Cmd.kills : Cmd Pid Oid Tid → Option Tid
  | .kill p sig =>
    if sig < 1 ∨ nSig ≤ sig then none else (s.kernel.proc p).bind fun _ => (s.threads p).head?
  | _ => none

def Cmd.rouses (t : Tid) (c : Cmd Pid Oid Tid) : Option Tid :=
  ((c.answers s t).map Prod.fst).or (c.kills s)

end Rouse

section Moves
variable [DecidableEq Tid] [DecidableEq Pid] [DecidableEq Oid] [Fintype Tid]

/-- One move. The constructors that begin with `ok` are the first of their step. -/
inductive Move (ok : Sys Pid Oid Tid → Action Pid Oid Tid → Prop) :
    Phase Tid → Sys Pid Oid Tid → Phase Tid → Sys Pid Oid Tid → Prop
  | tick {s} : Move ok .user s .user s.tick
  | enter {s t} : (s.thr t).state = .ready → (s.thr t).pc = none → Move ok .user s (.sys t) s
  | begin {s t kind req buf} : (s.thr t).state = .ready → (s.thr t).pc = none →
      Opens kind req buf → Move ok .user s (.ipc t kind .fresh) (s.begin t req buf)
  | answer {s s' t c u request m} : ok s (.run t c) → (s.thr t).state = .ready →
      (s.thr t).pc = none → c.answers s t = some (u, request) → u ∈ s.blocked →
      s.answer t u m request = some s' → Move ok .user s (.sys t) s'
  | kill {s t p sig} : ok s (.run t (.kill p sig)) → (s.thr t).state = .ready →
      (s.thr t).pc = none → ¬ (sig < 1 ∨ nSig ≤ sig) → (s.kernel.proc p).isSome →
      Move ok .user s (.sys t) (processKillOne s p sig)
  | woken {s t b} : (s.thr t).state = .ready → (s.thr t).pc = some b →
      b.expired (s.thr t) = false →
      Move ok .user s (b.on.phase t .woken) (s.modify t b.on.resumed)
  | expired {s t b kind} : ok s (.resume t) → (s.thr t).state = .ready →
      (s.thr t).pc = some b → b.expired (s.thr t) → b.on.kind = some kind → b.on.queue = none →
      Move ok .user s (.ipc t kind .expired) (s.modify t b.on.resumed)
  | withdrawn {s s' t b kind q} : ok s (.resume t) → (s.thr t).state = .ready →
      (s.thr t).pc = some b → b.expired (s.thr t) → b.on.kind = some kind →
      b.on.queue = some q → (s.modify t b.on.resumed).withdraw q t = some s' →
      Move ok .user s (.ipc t kind .expired) s'
  | handles {s ph} (k : Kernel Pid Oid) : ph ≠ .user → Move ok ph s ph { s with kernel := k }
  | contents {s t} (bits : Oid → BitVec 32) (ring : Oid → List UInt8) :
      Move ok (.sys t) s (.sys t) { s with bits := bits, ring := ring }
  | copied {s t} (bytes : List UInt8) : Move ok (.sys t) s (.sys t) (s.record (.copied t bytes))
  | notified {s t} (bits : BitVec 32) :
      Move ok (.sys t) s (.sys t) (s.modify t fun th => { th with notifiedBits := bits })
  | answered {s t} : Move ok (.sys t) s (.sys t) (s.modify t fun th => { th with ipcPeer := none })
  | newObject {s t} (o : Oid) : Move ok (.sys t) s (.sys t) (s.newObject o)
  | drain {s s' t q} : q.1 = .read ∨ q.1 = .write → s.drain q = some s' →
      Move ok (.sys t) s (.sys t) s'
  | signal {s s' t o bits} : eventSignalByPtr s o bits = some s' → Move ok (.sys t) s (.sys t) s'
  | handOver {s s' t kind r ep m} : kind ≠ .recv → (s.thr t).req = some m →
      s.links.head (.recv, ep) = some r → s.handOver t r ep m = some s' →
      Move ok (.ipc t kind .fresh) s (.ipc t kind .passed) s'
  | takeFrom {s s' t u ep} : s.links.head (.send, ep) = some u → s.takeFrom t u ep = some s' →
      Move ok (.ipc t .recv .fresh) s (.ipc t .recv .passed) s'
  | unpublish {s t kind stage} : Move ok (.ipc t kind stage) s (.ipc t kind stage)
      (s.modify t Thread.unpublished)
  | waitSent {s t ep timeout} : Move ok (.ipc t .call .passed) s .user
      ((s.publish t).sleepAt t ⟨.callSent ep, timeout⟩)
  | waitSend {s t kind w ep timeout} : kind ≠ .recv → w.kind = some kind →
      w.queue = some (.send, ep) → Move ok (.ipc t kind .fresh) s .user
        (((s.enqueue (.send, ep) t).publish t).sleepAt t ⟨w, timeout⟩)
  | waitRecv {s t ep timeout} : Move ok (.ipc t .recv .fresh) s .user
      (((s.enqueue (.recv, ep) t).modify t
        fun th => { th with ipcReplyMsg := some th.op }).sleepAt t ⟨.recv ep, timeout⟩)
  | waitObject {s t w q} : w.kind = none → w.queue = some q →
      Move ok (.sys t) s .user ((s.enqueue q t).sleepAt t ⟨w, 0⟩)
  | sleep {s t} (ticks : ℕ) : Move ok (.sys t) s .user (s.sleepAt t ⟨.sleep, ticks⟩)
  | back {s t} : Move ok (.sys t) s .user s
  | finish {s t} (r : ℤ) : Move ok (.sys t) s .user (s.leave t none r)
  | finishOp {s t kind stage r} : stage.Returns kind r → Move ok (.ipc t kind stage) s .user
      (s.leave t (some (kind, (s.thr t).op)) r)

def Moves (ok : Sys Pid Oid Tid → Action Pid Oid Tid → Prop)
    (x y : Phase Tid × Sys Pid Oid Tid) : Prop :=
  Relation.ReflTransGen (fun x y => Move ok x.1 x.2 y.1 y.2) x y

variable {ok : Sys Pid Oid Tid → Action Pid Oid Tid → Prop} {x z : Phase Tid × Sys Pid Oid Tid}

theorem Moves.refl (x : Phase Tid × Sys Pid Oid Tid) : Moves ok x x := Relation.ReflTransGen.refl

theorem Moves.head {ph : Phase Tid} {s : Sys Pid Oid Tid} (h : Move ok x.1 x.2 ph s)
    (hs : Moves ok (ph, s) z) : Moves ok x z :=
  Relation.ReflTransGen.head h hs

theorem Moves.single (h : Move ok x.1 x.2 z.1 z.2) : Moves ok x z := Relation.ReflTransGen.single h

theorem Moves.invariant {I : Phase Tid → Sys Pid Oid Tid → Prop}
    (hI : ∀ ph s ph' s', I ph s → Move ok ph s ph' s' → I ph' s')
    {y : Phase Tid × Sys Pid Oid Tid} (h : Moves ok x y) (hx : I x.1 x.2) : I y.1 y.2 := by
  induction h with
  | refl => exact hx
  | tail _ hm ih => exact hI _ _ _ _ ih hm

end Moves

end Xnix
