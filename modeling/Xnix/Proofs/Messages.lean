import Xnix.Proofs.Operations

/-!
# The messages of the operations

An operation in progress has the kernel messages it started with, or a copy received in place of its
buffer. A queued sender's `ipc_req_msg` and a queued receiver's `ipc_reply_msg` point to them, and
so does the `ipc_reply_msg` of a caller that is blocked.
-/

namespace Xnix

open Sys

variable {Pid Oid Tid : Type} {b : Blocking Oid} {q : Queue Oid} {Q : Queue Oid → List Tid}
  {s1 : Sys Pid Oid Tid} {kind kind' : OpKind} {v : Tid} {t : Tid} {m : IpcMessage Pid Tid}

def Doing (ph : Phase Tid) (s : Sys Pid Oid Tid) (t : Tid) (kind : OpKind) : Prop :=
  (∃ stage, ph = .ipc t kind stage) ∨ ∃ b, (s.thr t).pc = some b ∧ b.on.kind = some kind

/-- The message a thread waits on is the one of its own operation. -/
structure MsgOk (ph : Phase Tid) (s : Sys Pid Oid Tid) (u : Tid) : Prop where
  opens : ∀ kind, Doing ph s u kind → Opens kind (s.thr u).req (s.thr u).buf
  sender : ∀ ep, s.InQueue (.send, ep) u → (s.thr u).ipcReqMsg = some (s.thr u).op
  receiver : ∀ ep, s.InQueue (.recv, ep) u → (s.thr u).ipcReplyMsg = some (s.thr u).op
  caller : ∀ b, (s.thr u).pc = some b → b.on.kind = some .call → (s.thr u).state = .blocked →
    (s.thr u).ipcReplyMsg = some (s.thr u).op

variable {s s' : Sys Pid Oid Tid} {ph ph' : Phase Tid} {u : Tid} {Q' : Queue Oid → List Tid}
  {req buf : Option (IpcMessage Pid Tid)} {ep : Oid}

theorem Opens.copied {b b' : IpcMessage Pid Tid}
    (h : Opens kind req (some b)) : Opens kind req (some b') := by
  cases h with
  | call h => exact .call h
  | recv => exact .recv

theorem Opens.buf_eq_some (h : Opens kind req buf) (hk : kind ≠ .send) : ∃ b, buf = some b := by
  cases h with
  | send => exact absurd rfl hk
  | call => exact ⟨_, rfl⟩
  | recv => exact ⟨_, rfl⟩

theorem Opens.oneWay_of_send (h : Opens .send req buf) : ∃ m, req = some m ∧ m.isOneWay = true := by
  cases h with
  | send h => exact ⟨_, rfl, h⟩

theorem Opens.not_oneWay_of_call (h : Opens .call req buf) :
    ∃ m, req = some m ∧ m.isOneWay = false := by
  cases h with
  | call h => exact ⟨_, rfl, h⟩

theorem Doing.unique (hpc : ∀ v, ph.thread = some v → (s.thr v).pc = none)
    (h : Doing ph s t kind) (h' : Doing ph s t kind') : kind = kind' := by
  rcases h with ⟨stage, hp⟩ | ⟨b, hb, hk⟩ <;> rcases h' with ⟨stage', hp'⟩ | ⟨b', hb', hk'⟩
  · rw [hp] at hp'
    cases hp'
    rfl
  · rw [hpc t (by rw [hp]; rfl)] at hb'
    cases hb'
  · rw [hpc t (by rw [hp']; rfl)] at hb
    cases hb
  · rw [hb] at hb'
    cases hb'
    rw [hk] at hk'
    cases hk'
    rfl

theorem Doing.wait_of_idle (h : Doing ph s t kind) (hi : ph.Idle) :
    ∃ b, (s.thr t).pc = some b ∧ b.on.kind = some kind := by
  refine h.resolve_left ?_
  rintro ⟨stage, rfl⟩
  exact hi

theorem inOp_of_inQueue (hq : QueueInv s Q)
    (hk : q.1 = .send ∨ q.1 = .recv) (h : s.InQueue q u) : (s.thr u).InOp := by
  obtain ⟨b, hb, hbq, -⟩ := hq.waits q u (hq.inQueue_iff.mp h)
  exact ⟨b, hb, Wait.kind_of_queue hbq hk⟩

theorem MsgOk.congr (h : MsgOk ph s u) (hthr : s'.thr u = s.thr u)
    (hdo : ∀ kind, Doing ph' s' u kind → Doing ph s u kind)
    (hin : ∀ q, s'.InQueue q u → s.InQueue q u) : MsgOk ph' s' u := by
  constructor
  · intro kind hk
    rw [hthr]
    exact h.opens kind (hdo kind hk)
  · intro ep hi
    rw [hthr]
    exact h.sender ep (hin _ hi)
  · intro ep hi
    rw [hthr]
    exact h.receiver ep (hin _ hi)
  · intro b
    rw [hthr]
    exact h.caller b

theorem MsgOk.still (h : MsgOk ph s u) (hq' : QueueInv s' Q') (hs : Still (s.thr u) (s'.thr u))
    (hph : ∀ kind stage, ph' ≠ .ipc u kind stage)
    (hin : ∀ q, (q.1 = .send ∨ q.1 = .recv) → s'.InQueue q u → s.InQueue q u) : MsgOk ph' s' u := by
  have hview : (s'.thr u).InOp → (s'.thr u).op = (s.thr u).op ∧ (s'.thr u).pc = (s.thr u).pc ∧
      (s'.thr u).req = (s.thr u).req ∧ (s'.thr u).buf = (s.thr u).buf ∧
      (s'.thr u).ipcReqMsg = (s.thr u).ipcReqMsg ∧
      (s'.thr u).ipcReplyMsg = (s.thr u).ipcReplyMsg := by
    intro hi
    have hv := hs.view hi
    simpa only [Thread.view, Prod.mk.injEq] using hv
  constructor
  · rintro kind (⟨stage, hk⟩ | ⟨b, hb, hk⟩)
    · exact absurd hk (hph kind stage)
    · obtain ⟨-, hpc, hreq, hbuf, -⟩ := hview ⟨b, hb, by simp [hk]⟩
      rw [hreq, hbuf]
      exact h.opens kind (.inr ⟨b, hpc ▸ hb, hk⟩)
  · intro ep hi
    obtain ⟨hop, -, -, -, hmsg, -⟩ := hview (inOp_of_inQueue hq' (.inl rfl) hi)
    rw [hop, hmsg]
    exact h.sender ep (hin _ (.inl rfl) hi)
  · intro ep hi
    obtain ⟨hop, -, -, -, -, hmsg⟩ := hview (inOp_of_inQueue hq' (.inr rfl) hi)
    rw [hop, hmsg]
    exact h.receiver ep (hin _ (.inr rfl) hi)
  · intro b hb hk hblocked
    have hi : (s'.thr u).InOp := ⟨b, hb, by simp [hk]⟩
    obtain ⟨hop, hpc, -, -, -, hmsg⟩ := hview hi
    rw [hop, hmsg]
    exact h.caller b (hpc ▸ hb) hk (hs.blocked hi hblocked)

theorem MsgOk.running (hq' : QueueInv s' Q') (hr : Running s' Q' u)
    (h : ∀ kind, Doing ph' s' u kind → Opens kind (s'.thr u).req (s'.thr u).buf) :
    MsgOk ph' s' u := by
  refine ⟨h, fun ep hi => ?_, fun ep hi => ?_, fun b hb => ?_⟩
  · exact absurd (hq'.inQueue_iff.mp hi) (hr.free _)
  · exact absurd (hq'.inQueue_iff.mp hi) (hr.free _)
  · rw [hr.pc] at hb
    cases hb

section Effects
variable [DecidableEq Tid] [DecidableEq Pid] [DecidableEq Oid]

theorem handOver_thr_self {r : Tid} (h : s.handOver t r ep m = some s') :
    ∃ room got, (s.thr r).replyTarget = some room ∧ s'.thr r = { s.thr r with
      pendingWakeup := true
      state := .ready
      ipcPeer := some t
      peerOp := (s.thr t).op
      buf := some ((room.copyFrom m got).stamped t (s.thr t).owner) } := by
  obtain ⟨k, room, got, hroom, hx, rfl⟩ := handOver_eq_some h
  refine ⟨room, got, hroom, ?_⟩
  rw [schedWakeupThread_thr_ready, modify_thr_self]
  · rfl
  · rw [modify_thr_self]
    exact hx

/-- What a receive does to the receiver: its buffer is stamped, and filled if the sender still has a
message. -/
theorem takeFrom_thr_self (hne : t ≠ u) (h : s.takeFrom t u ep = some s') :
    ∃ buf, s'.thr t = { s.thr t with ipcPeer := some u, peerOp := (s.thr u).op, buf := buf } ∧
      ((s.thr u).ipcReqMsg = none ∧ buf = (s.thr t).buf.map (·.stamped u (s.thr u).owner) ∨
        ∃ m room got, (s.thr u).reqTarget = some m ∧ (s.thr t).buf = some room ∧
          buf = some ((room.copyFrom m got).stamped u (s.thr u).owner)) := by
  obtain ⟨-, k, s1, h1, rfl⟩ := takeFrom_eq_some h
  rw [release_thr_of_ne _ hne, stampSender, modify_thr_self]
  rcases takeMsg_eq_some h1 with ⟨hnone, rfl⟩ | ⟨k, m, room, got, hm, hroom, rfl⟩
  · exact ⟨_, rfl, .inl ⟨hnone, rfl⟩⟩
  · rw [modify_thr_self, modify_thr_of_ne _ _ hne.symm]
    exact ⟨_, rfl, .inr ⟨m, room, got, hm, hroom, rfl⟩⟩

theorem takeFrom_thr_sender (hne : t ≠ u) (h : s.takeFrom t u ep = some s') :
    s'.thr u = if (s.thr u).reqTarget.any IpcMessage.isOneWay then
      { s.thr u with
        ipcReqMsg := none
        ipcReplyMsg := none
        pendingWakeup := true
        state := .ready }
      else s.thr u := by
  obtain ⟨hx, k, s1, h1, rfl⟩ := takeFrom_eq_some h
  have hthr : (s1.stampSender u t).thr u = s.thr u := by
    rw [stampSender, modify_thr_of_ne _ _ hne.symm]
    rcases takeMsg_eq_some h1 with ⟨hnone, rfl⟩ | ⟨k, m, room, got, hm, hroom, rfl⟩
    · rfl
    · exact modify_thr_of_ne _ _ hne.symm
  unfold release
  rw [hthr]
  split_ifs
  · rw [schedWakeupThread_thr_ready, modify_thr_self, hthr]
    · rfl
    · rw [modify_thr_self, hthr]
      exact hx
  · exact hthr

theorem takeFrom_thr_of_ne (h : s.takeFrom t u ep = some s') (hu : v ≠ u) (ht : v ≠ t) :
    s'.thr v = s.thr v := by
  obtain ⟨-, k, s1, h1, rfl⟩ := takeFrom_eq_some h
  rw [release_thr_of_ne _ hu, stampSender, modify_thr_of_ne _ _ ht]
  rcases takeMsg_eq_some h1 with ⟨-, rfl⟩ | ⟨k, m, room, got, -, -, rfl⟩
  · rfl
  · exact modify_thr_of_ne _ _ ht

theorem answer_thr_self {request : ℕ} (hb : u ∈ s.blocked) (h : s.answer t u m request = some s') :
    ∃ buf, s'.thr u = { s.thr u with
        ipcReqMsg := none
        ipcReplyMsg := none
        pendingWakeup := true
        state := .ready
        buf := buf } ∧
      ((s.thr u).ipcReplyMsg = none ∧ buf = (s.thr u).buf ∨
        ∃ room got, (s.thr u).replyTarget = some room ∧ buf = some (room.copyFrom m got)) := by
  obtain ⟨s1, h1, rfl⟩ := Option.map_eq_some_iff.mp h
  rw [schedWakeupThread_thr_self, modify_thr_self]
  rcases copyReply_eq_some h1 with ⟨hnone, rfl⟩ | ⟨k, room, got, hroom, rfl⟩
  · refine ⟨_, ?_, .inl ⟨hnone, rfl⟩⟩
    rw [if_pos (.inl hb)]
    rfl
  · refine ⟨_, ?_, .inr ⟨room, got, hroom, rfl⟩⟩
    rw [if_pos (.inl hb), modify_thr_self]
    rfl

end Effects

section Move
variable {ok : Sys Pid Oid Tid → Action Pid Oid Tid → Prop}

theorem replyTarget_eq_some {th : Thread Pid Oid Tid} {room : IpcMessage Pid Tid}
    (h : th.replyTarget = some room) : th.ipcReplyMsg = some th.op ∧ th.buf = some room := by
  unfold Thread.replyTarget at h
  split_ifs at h with hm
  exact ⟨hm, h⟩

theorem doing_of_ident (hi : (s'.thr u).ident = (s.thr u).ident)
    (hph : ∀ kind stage, ph' = .ipc u kind stage → ∃ stage', ph = .ipc u kind stage')
    (h : Doing ph' s' u kind) : Doing ph s u kind := by
  rcases h with ⟨stage, hk⟩ | ⟨b, hb, hk⟩
  · exact .inl (hph kind stage hk)
  · simp only [Thread.ident, Prod.mk.injEq] at hi
    exact .inr ⟨b, hi.2.2 ▸ hb, hk⟩

theorem doing_of_resumed {stage : Stage}
    (hpc : (s.thr t).pc = some b) (hk : b.on.kind = some kind) (hself : (s'.thr t).pc = none)
    (h : Doing (.ipc t kind stage) s' t kind') : Doing .user s t kind' := by
  rcases h with ⟨_, hph⟩ | ⟨b', hb', -⟩
  · cases hph
    exact .inr ⟨b, hpc, hk⟩
  · rw [hself] at hb'
    cases hb'

theorem QueueInv.unique (hq : QueueInv s Q) (hq' : QueueInv s Q') : Q = Q' :=
    hq.linked.unique hq'.linked

theorem Wait.eq_recv_of_queue {w : Wait Oid} (h : w.queue = some (.recv, ep)) : w = .recv ep := by
  cases w <;> simp_all [Wait.queue]

theorem Wait.eq_send_of_queue {w : Wait Oid} (h : w.queue = some (.send, ep)) :
    w = .sendQueued ep ∨ w = .callQueued ep := by
  cases w <;> simp_all [Wait.queue]

theorem Wait.resumed_msgs (w : Wait Oid) (th : Thread Pid Oid Tid) :
    (w.resumed th).req = th.req ∧ (w.resumed th).buf = th.buf := by
  cases w <;> exact ⟨rfl, rfl⟩

theorem MsgOk.waits (hq' : QueueInv s' Q') (hpc : (s'.thr t).pc = some b)
    (hk : b.on.kind = some kind) (hopens : Opens kind (s'.thr t).req (s'.thr t).buf)
    (hreq : kind ≠ .recv → (s'.thr t).ipcReqMsg = some (s'.thr t).op)
    (hreply : kind ≠ .send → (s'.thr t).ipcReplyMsg = some (s'.thr t).op) : MsgOk .user s' t := by
  have hqueue : ∀ q, s'.InQueue q t → b.on.queue = some q := fun q hi => by
    obtain ⟨b', hb', hbq, -⟩ := hq'.waits q t (hq'.inQueue_iff.mp hi)
    rw [hpc] at hb'
    cases hb'
    exact hbq
  constructor
  · rintro kind' (⟨_, hph⟩ | ⟨b', hb', hk'⟩)
    · cases hph
    · rw [hpc] at hb'
      cases hb'
      rw [hk] at hk'
      cases hk'
      exact hopens
  · intro ep hi
    refine hreq ?_
    rintro rfl
    rcases Wait.eq_send_of_queue (hqueue _ hi) with h | h <;> rw [h] at hk <;> cases hk
  · intro ep hi
    refine hreply ?_
    rintro rfl
    rw [Wait.eq_recv_of_queue (hqueue _ hi)] at hk
    cases hk
  · intro b' hb' hk' _
    rw [hpc] at hb'
    cases hb'
    rw [hk] at hk'
    cases hk'
    exact hreply nofun

/-- A thread that was woken and is in no queue needs nothing but its messages. -/
theorem MsgOk.roused (hready : (s'.thr u).state = .ready) (hout : ∀ q, ¬ s'.InQueue q u)
    (hopens : ∀ kind, Doing ph' s' u kind → Opens kind (s'.thr u).req (s'.thr u).buf) :
    MsgOk ph' s' u := by
  refine ⟨hopens, fun ep hi => absurd hi (hout _), fun ep hi => absurd hi (hout _),
    fun b _ _ hst => ?_⟩
  rw [hready] at hst
  cases hst

structure IpcInv (ph : Phase Tid) (s : Sys Pid Oid Tid) : Prop where
  ops : OpInv ph s
  msgs : ∀ u, MsgOk ph s u

theorem IpcInv.boot (h : s.Booted) : IpcInv .user s := by
  have hq := QueueInv.boot h
  refine ⟨OpInv.boot h, fun u => MsgOk.running hq ?_ ?_⟩
  · obtain ⟨p, hp⟩ := h.thr u
    refine ⟨?_, ?_, ?_, fun _ => List.not_mem_nil⟩ <;> rw [hp]
  · rintro kind (⟨_, hph⟩ | ⟨b, hb, -⟩)
    · cases hph
    · obtain ⟨p, hp⟩ := h.thr u
      rw [hp] at hb
      cases hb

/-- The queues before and after a move. No running thread is in one, and only a thread that ends its
turn joins one. -/
structure Around (ph : Phase Tid) (s : Sys Pid Oid Tid) (Q : Queue Oid → List Tid) (ph' : Phase Tid)
    (s' : Sys Pid Oid Tid) (Q' : Queue Oid → List Tid) : Prop where
  before : QueueInv s Q
  runs : ∀ t, ph.thread = some t → Running s Q t
  after : QueueInv s' Q'
  runs' : ∀ t, ph'.thread = some t → Running s' Q' t
  inQueue : ∀ q v, s'.InQueue q v → s.InQueue q v ∨ ph.thread = some v ∧ ph' = .user

namespace Around

section
variable (ha : Around ph s Q ph' s' Q')
include ha

theorem inQueue_of_still (hs : Still (s.thr u) (s'.thr u)) (hk : q.1 = .send ∨ q.1 = .recv)
    (hv : s'.InQueue q u) : s.InQueue q u := by
  refine (ha.inQueue q u hv).resolve_right ?_
  rintro ⟨hph, -⟩
  have hin := inOp_of_inQueue ha.after hk hv
  exact not_inOp_of_pc (ha.runs u hph).pc (hin.of_view (hs.view hin))

theorem inQueue_of_blocked (hb : (s.thr u).state = .blocked) (hv : s'.InQueue q u) :
    s.InQueue q u := by
  refine (ha.inQueue q u hv).resolve_right ?_
  rintro ⟨hph, -⟩
  rw [(ha.runs u hph).ready] at hb
  cases hb

theorem still (h : MsgOk ph s u) (hs : Still (s.thr u) (s'.thr u)) (hi : ph'.Idle) :
    MsgOk ph' s' u :=
  h.still ha.after hs (fun kind stage hk => by rw [hk] at hi; exact hi) fun _ =>
    ha.inQueue_of_still hs

theorem other (h : MsgOk ph s u) (hthr : s'.thr u = s.thr u)
    (hne : ph' = .user → ph.thread ≠ some u)
    (hph : ∀ kind stage, ph' = .ipc u kind stage → ∃ stage', ph = .ipc u kind stage') :
    MsgOk ph' s' u :=
  h.congr hthr (fun _ => doing_of_ident (by rw [hthr]) hph) fun q hv =>
    (ha.inQueue q u hv).resolve_right fun hu => hne hu.2 hu.1

end

section
variable {stage : Stage} [DecidableEq Tid]

theorem resumed (ha : Around .user s Q (.ipc t kind stage) s' Q') (h : MsgOk .user s u)
    (hpc : (s.thr t).pc = some b)
    (hk : b.on.kind = some kind) (hthr : s'.thr = (s.modify t b.on.resumed).thr) :
    MsgOk (.ipc t kind stage) s' u := by
  by_cases hu : u = t
  · subst hu
    have hself : s'.thr u = b.on.resumed (s.thr u) := by rw [hthr, modify_thr_self]
    refine .running ha.after (ha.runs' u rfl) fun kind' hd => ?_
    rw [hself, (b.on.resumed_msgs _).1, (b.on.resumed_msgs _).2]
    refine h.opens kind' (doing_of_resumed hpc hk ?_ hd)
    rw [hself, (b.on.resumed_op _).2]
  · refine ha.other h (by rw [hthr, modify_thr_of_ne _ _ hu]) nofun fun kind' stage' hph => ?_
    cases hph
    exact absurd rfl hu

theorem begins (ha : Around .user s Q (.ipc t kind .fresh) (s.begin t req buf) Q')
    (h : MsgOk .user s u)
    (hpc : (s.thr t).pc = none) (hopens : Opens kind req buf) :
    MsgOk (.ipc t kind .fresh) (s.begin t req buf) u := by
  by_cases hu : u = t
  · subst hu
    have hself := begin_thr_self s u req buf
    refine .running ha.after (ha.runs' u rfl) fun kind' hd => ?_
    rw [hself]
    rcases hd with ⟨_, hph⟩ | ⟨b, hb, -⟩
    · cases hph
      exact hopens
    · rw [hself, hpc] at hb
      cases hb
  · refine ha.other h (begin_thr_of_ne s hu ..) nofun fun kind' stage hph => ?_
    cases hph
    exact absurd rfl hu

/-- A thread that waits has published what its kind of operation needs. -/
theorem waits (ha : Around (.ipc t kind stage) s Q .user (s1.sleepAt t b) Q')
    (h : MsgOk (.ipc t kind stage) s u) (hk : b.on.kind = some kind)
    (hne : ∀ v, v ≠ t → s1.thr v = s.thr v)
    (hmsgs : (s1.thr t).req = (s.thr t).req ∧ (s1.thr t).buf = (s.thr t).buf)
    (hreq : kind ≠ .recv → (s1.thr t).ipcReqMsg = some (s1.thr t).op)
    (hreply : kind ≠ .send → (∃ m, (s.thr t).buf = some m) →
    (s1.thr t).ipcReplyMsg = some (s1.thr t).op) :
    MsgOk .user (s1.sleepAt t b) u := by
  by_cases hu : u = t
  · subst hu
    have hopens := h.opens kind (.inl ⟨_, rfl⟩)
    have hself := sleepAt_thr_self s1 u b
    refine MsgOk.waits ha.after (b := b) (by rw [hself]) hk ?_ ?_ fun hsend => ?_
    · rw [hself, hmsgs.1, hmsgs.2]
      exact hopens
    · rw [hself]
      exact hreq
    · rw [hself]
      exact hreply hsend (hopens.buf_eq_some hsend)
  · refine ha.other h (by rw [sleepAt_thr_of_ne _ _ hu, hne u hu]) (fun _ hph => ?_) nofun
    cases hph
    exact hu rfl

theorem published (ha : Around (.ipc t kind stage) s Q .user ((s1.publish t).sleepAt t b) Q')
    (h : MsgOk (.ipc t kind stage) s u) (hk : b.on.kind = some kind) (hthr : s1.thr = s.thr) :
    MsgOk .user ((s1.publish t).sleepAt t b) u := by
  have hself : (s1.publish t).thr t = { s.thr t with
      ipcReqMsg := some (s.thr t).op, ipcReplyMsg := (s.thr t).buf.map fun _ => (s.thr t).op } := by
    rw [publish, modify_thr_self, hthr]
  refine ha.waits h hk (fun v hv => by rw [publish, modify_thr_of_ne _ _ hv, hthr]) ?_ ?_
    ?_ <;> rw [hself]
  · exact ⟨rfl, rfl⟩
  · exact fun _ => rfl
  · rintro - ⟨m, hm⟩
    rw [hm]
    rfl

theorem unpublishes
    (ha : Around (.ipc t kind stage) s Q (.ipc t kind stage) (s.modify t Thread.unpublished) Q')
    (h : MsgOk (.ipc t kind stage) s u) :
    MsgOk (.ipc t kind stage) (s.modify t Thread.unpublished) u := by
  by_cases hu : u = t
  · subst hu
    refine .running ha.after (ha.runs' u rfl) fun kind' hd => ?_
    have hident : ((s.modify u Thread.unpublished).thr u).ident = (s.thr u).ident :=
      modify_field Thread.ident s u u fun _ => rfl
    have hopens := h.opens kind' (doing_of_ident hident (fun _ _ hk => ⟨_, hk⟩) hd)
    rw [modify_thr_self]
    exact hopens
  · exact ha.other h (modify_thr_of_ne _ _ hu) nofun fun kind' stage' hk => ⟨stage', hk⟩

end

section Peers

theorem kills (ha : Around ph s Q ph' s' Q') (h : MsgOk ph s u) (hi : ph'.Idle)
    (hb : (s.thr v).state = .blocked) (hne : ∀ w, w ≠ v → s'.thr w = s.thr w)
    (hself : s'.thr v = { s.thr v with pendingWakeup := true, state := .ready }) :
    MsgOk ph' s' u := by
  by_cases hu : u = v
  · subst hu
    refine ⟨fun kind hd => ?_, fun ep hiq => ?_, fun ep hiq => ?_, fun b _ _ hst => ?_⟩
    · obtain ⟨b, hb, hk⟩ := hd.wait_of_idle hi
      have hopens := h.opens kind (.inr ⟨b, by rwa [hself] at hb, hk⟩)
      rw [hself]
      exact hopens
    · rw [hself]
      exact h.sender ep (ha.inQueue_of_blocked hb hiq)
    · rw [hself]
      exact h.receiver ep (ha.inQueue_of_blocked hb hiq)
    · rw [hself] at hst
      cases hst
  · exact ha.still h (.of_eq (hne u hu)) hi

variable [DecidableEq Tid] [DecidableEq Pid] [DecidableEq Oid] {r : Tid}

theorem answers {request : ℕ} (ha : Around ph s Q ph' s' Q') (h : MsgOk ph s u) (hi : ph'.Idle)
    (hv : v ∈ s.blocked) (hfree : ¬ s.Queued v) (h' : s.answer t v m request = some s') :
    MsgOk ph' s' u := by
  by_cases hu : u = v
  · subst hu
    obtain ⟨buf, hself, hbuf⟩ := answer_thr_self hv h'
    refine .roused (by rw [hself]) (fun q hiq => hfree ⟨q, ?_⟩) fun kind hd => ?_
    · exact ha.inQueue_of_blocked ((ha.before.onList u).mp hv) hiq
    · obtain ⟨b, hb, hk⟩ := hd.wait_of_idle hi
      have hopens := h.opens kind (.inr ⟨b, by rwa [hself] at hb, hk⟩)
      rw [hself]
      rcases hbuf with ⟨-, rfl⟩ | ⟨room, got, hroom, rfl⟩
      · exact hopens
      · rw [(replyTarget_eq_some hroom).2] at hopens
        exact hopens.copied
  · exact ha.still h (.of_eq (answer_thr_of_ne h' hu)) hi

theorem handsOver (ha : Around (.ipc t kind .fresh) s Q (.ipc t kind .passed) s' Q')
    (h : MsgOk (.ipc t kind .fresh) s u) (hh : s.links.head (.recv, ep) = some r)
    (h' : s.handOver t r ep m = some s') : MsgOk (.ipc t kind .passed) s' u := by
  by_cases hu : u = r
  · subst hu
    obtain ⟨Q'', hq'', hfree, -, -⟩ := ha.before.handOver hh h'
    obtain ⟨room, got, hroom, hself⟩ := handOver_thr_self h'
    refine .roused (by rw [hself]) (fun q hiq => hfree q (hq''.inQueue_iff.mp hiq))
      fun kind' hd => ?_
    have hopens := h.opens kind'
      (doing_of_ident (handOver_ident h' u) (fun _ _ => Phase.restage) hd)
    rw [(replyTarget_eq_some hroom).2] at hopens
    rw [hself]
    exact hopens.copied
  · exact ha.other h (handOver_thr_of_ne h' hu) nofun fun _ _ => Phase.restage

theorem takesFrom (ha : Around (.ipc t .recv .fresh) s Q (.ipc t .recv .passed) s' Q')
    (h : MsgOk (.ipc t .recv .fresh) s u) (hh : s.links.head (.send, ep) = some r)
    (h' : s.takeFrom t r ep = some s') : MsgOk (.ipc t .recv .passed) s' u := by
  obtain ⟨Q'', hq'', hfree, -, hmem⟩ := ha.before.takeFrom hh h'
  have hne : t ≠ r := fun heq => (ha.runs t rfl).free _ (heq ▸ hmem)
  have hdo : ∀ kind', Doing (.ipc t .recv .passed) s' u kind' →
    Doing (.ipc t .recv .fresh) s u kind' :=
    fun kind' hd => doing_of_ident (takeFrom_ident h' u) (fun _ _ => Phase.restage) hd
  by_cases hu : u = r
  · subst hu
    have hself := takeFrom_thr_sender hne h'
    have hout : ∀ q, ¬ s'.InQueue q u := fun q hiq => hfree q (hq''.inQueue_iff.mp hiq)
    split_ifs at hself
    · refine .roused (by rw [hself]) hout fun kind' hd => ?_
      have hopens := h.opens kind' (hdo kind' hd)
      rw [hself]
      exact hopens
    · exact h.congr hself hdo fun q hiq => absurd hiq (hout q)
  · by_cases hut : u = t
    · subst hut
      obtain ⟨buf, hself, hbuf⟩ := takeFrom_thr_self hne h'
      refine .running ha.after (ha.runs' u rfl) fun kind' hd => ?_
      have hopens := h.opens kind' (hdo kind' hd)
      rw [hself]
      rcases hbuf with ⟨-, rfl⟩ | ⟨m, room, got, -, hroom, rfl⟩
      · obtain ⟨b, hb⟩ := (h.opens .recv (.inl ⟨_, rfl⟩)).buf_eq_some nofun
        rw [hb] at hopens ⊢
        exact hopens.copied
      · rw [hroom] at hopens
        exact hopens.copied
    · exact ha.other h (takeFrom_thr_of_ne h' hu hut) nofun fun _ _ => Phase.restage

end Peers

end Around

variable [DecidableEq Tid] [DecidableEq Pid] [DecidableEq Oid] [Fintype Tid]
  (hok : ∀ s a, ok s a → QueueCalm s a) (hq : QueueInv s Q)
  (hr : ∀ t, ph.thread = some t → Running s Q t)
include hok hq hr

theorem Move.around (hm : Move ok ph s ph' s') : ∃ Q', Around ph s Q ph' s' Q' := by
  obtain ⟨Q', hq', hr', hsub⟩ := hq.move hok hm hr
  exact ⟨Q', hq, hr, hq', hr',
    fun q v hv => (hsub q v (hq'.inQueue_iff.mp hv)).imp_left hq.inQueue_iff.mpr⟩

theorem MsgOk.move (h : MsgOk ph s u) (hm : Move ok ph s ph' s') : MsgOk ph' s' u := by
  obtain ⟨Q', ha⟩ := hm.around hok hq hr
  by_cases hi : ph.Idle ∧ ph'.Idle
  · rcases hm.quiet hq hr hi.1 hi.2 with hquiet | ⟨t, c, v, request, m, hc, hans, hv, h'⟩ |
      ⟨t, c, v, -, -, hblocked, -, hne, hself, -, -⟩
    · exact ha.still h (hquiet.still u) hi.2
    · have hfree := (hok _ _ hc).1 v (by simp [Cmd.rouses, hans]) ((hq.onList v).mp hv)
      exact ha.answers h hi.2 hv hfree h'
    · exact ha.kills h hi.2 hblocked hne hself
  · cases hm with
    | begin _ hpc hopens => exact ha.begins h hpc hopens
    | @woken _ t b _ hpc _ =>
      rcases hk : b.on.kind with _ | kind
      · rw [Wait.phase, hk] at hi
        exact absurd ⟨trivial, trivial⟩ hi
      · rw [Wait.phase, hk] at ha ⊢
        exact ha.resumed h hpc hk rfl
    | expired _ _ hpc _ hk _ => exact ha.resumed h hpc hk rfl
    | withdrawn _ _ hpc _ hk _ h' =>
      obtain ⟨L, rfl⟩ := withdraw_eq_some h'
      exact ha.resumed h hpc hk rfl
    | handles k hph => exact ha.other h rfl (fun h => absurd h hph) fun kind stage hk => ⟨stage, hk⟩
    | handOver _ _ hh h' => exact ha.handsOver h hh h'
    | takeFrom hh h' => exact ha.takesFrom h hh h'
    | unpublish => exact ha.unpublishes h
    | waitSent => exact ha.published h rfl rfl
    | waitSend _ hw _ => exact ha.published h hw rfl
    | @waitRecv _ t ep _ =>
      have hself := modify_thr_self (s.enqueue (.recv, ep) t) t fun th =>
        { th with ipcReplyMsg := some th.op }
      refine ha.waits h rfl (fun v hv => modify_thr_of_ne (s.enqueue (.recv, ep) t) _ hv) ?_
        (absurd rfl) ?_ <;>
        rw [hself]
      · exact ⟨rfl, rfl⟩
      · exact fun _ _ => rfl
    | @finishOp _ t kind stage r _ => exact ha.still h ((leave_still (hr t rfl) _ r).1 u) trivial
    | _ => exact absurd ⟨trivial, trivial⟩ hi

theorem IpcInv.move (h : IpcInv ph s) (hm : Move ok ph s ph' s') : IpcInv ph' s' :=
  ⟨h.ops.move hq hr hm, fun u => (h.msgs u).move hok hq hr hm⟩

end Move

end Xnix
