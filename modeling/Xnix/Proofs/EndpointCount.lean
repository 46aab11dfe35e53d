import Xnix.Proofs.Endpoints

/-!
# Endpoint counts match their holders

Where timed out waiters are still queued when they run, and replies go to callers, no step touches a
freed endpoint and every endpoint's count is the number of its holders. A waiter that the other side
takes off the queue after its timer fired gives its queue reference back a second time.
-/

namespace Xnix

open Option HandleCmd

variable {Pid Oid Tid : Type} {k : Kernel Pid Oid} {ep : Oid} {s : Sys Pid Oid Tid}
  {Q : Queue Oid → List Tid}

section Run
variable {s' : Sys Pid Oid Tid} {t u : Tid} {a : Action Pid Oid Tid} {c : HandleCmd Pid Oid}
  {extra : List (Hold Oid)}

theorem QueueInv.receiver_room (hq : QueueInv s Q) (h : ∀ u, MsgOk .user s u)
    (hu : u ∈ Q (.recv, ep)) : (s.thr u).pc ≠ none ∧ ∃ room, (s.thr u).replyTarget = some room := by
  obtain ⟨b, hb, hbq, -⟩ := hq.waits _ u hu
  have hkind : b.on.kind = some .recv := by rw [Wait.eq_recv_of_queue hbq]; rfl
  obtain ⟨room, hroom⟩ := ((h u).opens .recv (.inr ⟨b, hb, hkind⟩)).buf_eq_some nofun
  refine ⟨by rw [hb]; nofun, room, ?_⟩
  rw [Thread.replyTarget, if_pos ((h u).receiver ep (hq.inQueue_iff.mpr hu)), hroom]

theorem QueueInv.sender_message (hq : QueueInv s Q) (h : ∀ u, MsgOk .user s u)
    (hu : u ∈ Q (.send, ep)) : (s.thr u).pc ≠ none ∧ (s.thr u).ipcReqMsg = some (s.thr u).op ∧
      ∃ m, (s.thr u).reqTarget = some m := by
  obtain ⟨b, hb, hbq, -⟩ := hq.waits _ u hu
  have hreq := (h u).sender ep (hq.inQueue_iff.mpr hu)
  have hm : ∃ m, (s.thr u).req = some m := by
    rcases Wait.eq_send_of_queue hbq with hon | hon
    · obtain ⟨m, hm, -⟩ := ((h u).opens .send (.inr ⟨b, hb, by rw [hon]; rfl⟩)).oneWay_of_send
      exact ⟨m, hm⟩
    · obtain ⟨m, hm, -⟩ := ((h u).opens .call (.inr ⟨b, hb, by rw [hon]; rfl⟩)).not_oneWay_of_call
      exact ⟨m, hm⟩
  obtain ⟨m, hm⟩ := hm
  refine ⟨by rw [hb]; nofun, hreq, m, ?_⟩
  rw [Thread.reqTarget, if_pos hreq, hm]

variable [DecidableEq Oid] [Fintype Pid] [Fintype Oid] [Fintype Tid]

theorem Refs.newObject (h : Refs s Q extra) {o : Oid} (ho : ∀ q, q.2 = o → Q q = []) :
    Refs (s.newObject o) Q extra := by
  refine h.move ⟨fun q => ?_, h.linked.apart⟩ rfl rfl h.alive h.inOp h.quiet h.ends fun x => rfl
  by_cases hq : q.2 = o
  · rw [ho q hq]
    simp only [Sys.newObject, hq, if_true]
    exact .nil
  · simp only [Sys.newObject, hq, if_false]
    exact h.linked.chain q

theorem Refs.queues_empty (h : Refs s Q extra) {o : Oid} (ho : s.kernel.obj o = none)
    (q : Queue Oid) (hq : q.2 = o) : Q q = [] := by
  by_contra hne
  have hlen := List.length_pos_iff.mpr hne
  have hpos : 0 < queueRefs Q (.endpoint, o) := by
    obtain ⟨kind, ep⟩ := q
    subst hq
    unfold queueRefs
    rcases h.ends _ hne with rfl | rfl
    · exact Nat.add_pos_left hlen _
    · exact Nat.add_pos_right _ hlen
  obtain ⟨ob, hob⟩ := isSome_iff_exists.mp (h.typed (x := (.endpoint, o)) (by omega))
  have := (typed_eq_some_iff.mp hob).1
  rw [ho] at this
  cases this

theorem Refs.boot (h : s.Booted) : Refs s (fun _ => []) [] := by
  have hthr : ∀ t, (s.thr t).state = .ready ∧ (s.thr t).pc = none ∧
    (s.thr t).pendingWakeup = false := fun t => by
    obtain ⟨p, hp⟩ := h.thr t
    rw [hp]
    exact ⟨rfl, rfl, rfl⟩
  refine ⟨(QueueInv.boot h).linked, h.sig, fun t => by rw [(hthr t).1]; nofun, fun t b hb => ?_,
    fun t _ => (hthr t).2.2, fun q hq => absurd rfl hq, [], .boot h.kernel, fun x => ?_⟩
  · rw [(hthr t).2.1] at hb
    cases hb
  · have hheld : s.held x = 0 := Finset.sum_eq_zero fun t _ => by
      simp [holdWeight, Thread.hold, (hthr t).2.1]
    rw [hheld]
    simp [queueRefs]

variable [DecidableEq Tid]

def HandleCmd.HintSafe (k : Kernel Pid Oid) (p : Pid) : HandleCmd Pid Oid → Prop
  | .duplicate srcH hint _ => ∀ e, (k.table p)[srcH]? = some (some e) →
    e.rights.has handleRightDuplicate → HintOk (k.table p) hint
  | _ => True

def Cmd.onEndpoints : Cmd Pid Oid Tid → Bool
  | .send .. | .call .. | .recv .. | .reply .. | .replyTo .. | .handle _ => true
  | _ => false

/-- A reply wakes a thread that waits in a call and is in no queue, a thread whose timeout fired in
an endpoint queue is still in it when it runs, and no hint wraps. -/
structure RefCalm (s : Sys Pid Oid Tid) (a : Action Pid Oid Tid) : Prop where
  calls : ∀ t c, a = .run t c → c.onEndpoints
  reply : ∀ t c u, a = .run t c → c.rouses s t = some u →
    ¬ s.Queued u ∧ ∃ b, (s.thr u).pc = some b ∧ b.on.kind = some .call
  timeout : ∀ u b q, a = .resume u → (s.thr u).pc = some b → b.expired (s.thr u) →
    b.on.queue = some q → s.InQueue q u
  hint : ∀ t c, a = .run t (.handle c) → c.HintSafe s.kernel (s.thr t).owner

theorem Refs.drain (h : Refs s Q extra) {q : Queue Oid} (hq : q.1 = .read ∨ q.1 = .write) :
    ∃ s', s.drain q = some s' ∧ s'.kernel = s.kernel ∧ s'.thr = s.thr ∧ Refs s' Q extra := by
  have hnil : Q q = [] := by
    by_contra hne
    rcases h.ends q hne with hs | hs <;> rcases hq with hq | hq <;> rw [hs] at hq <;> cases hq
  obtain ⟨hl, hL⟩ := h.linked.takeAll q
  have hQ : Function.update Q q [] = Q := by rw [← hnil, Function.update_eq_self]
  refine ⟨s.setLinks (s.links.takeAll q).2, ?_, rfl, rfl, ?_⟩
  · rw [Sys.drain, hl, hnil]
    rfl
  · exact h.move (hQ ▸ hL) rfl rfl h.alive h.inOp h.quiet h.ends fun x => rfl

theorem RefCalm.queueCalm (ha : RefCalm s a) (h : Refs s Q [])
    (hrun : ∀ t c, a = .run t c → (s.thr t).pc = none) : QueueCalm s a := by
  cases a with
  | tick => trivial
  | resume t => trivial
  | run t c =>
    exact ⟨fun u hu _ => (ha.reply t c u rfl hu).1, fun _ => h.quiet t (hrun t c rfl)⟩

theorem Refs.begin (h : Refs s Q []) (t : Tid) (req buf : Option (IpcMessage Pid Tid)) :
    Refs (s.begin t req buf) Q [] := by
  have hmod := h.modify t (f := fun th => { th with op := s.nextOp, req := req, buf := buf })
    fun _ => ⟨rfl, rfl, rfl⟩
  exact hmod.congr rfl rfl rfl (fun _ => rfl) hmod.alive fun _ _ => rfl

theorem Refs.leaveQueue (h : Refs s Q extra) {q : Queue Oid}
    (hq : q = (.send, ep) ∨ q = (.recv, ep)) (ht : t ∈ Q q)
    {f : Sys Pid Oid Tid → Option (Sys Pid Oid Tid)}
    (hf : ∀ {s2 Q2}, Refs s2 Q2 extra → ∃ s', f s2 = some s' ∧ Refs s' Q2 []) :
    ∃ s' Q', ((s.withdraw q t).bind fun s => (s.endpointUnref ep).bind f) = some s' ∧
    Refs s' Q' [] := by
  obtain ⟨s1, Q2, hs1, h1⟩ := h.withdraw hq ht
  obtain ⟨k, hk, h2⟩ := h1.endpointUnref
  obtain ⟨s', hs', h'⟩ := hf h2
  exact ⟨s', Q2, by rw [hs1, bind_some, hk, bind_some, hs'], h'⟩

theorem Refs.tick (h : Refs s Q []) : Refs s.tick Q [] := by
  have hthr : ∀ u, s.tick.thr u = { s.thr u with
      wakeupTick := (s.tick.thr u).wakeupTick, state := (s.tick.thr u).state } ∧
      ((s.tick.thr u).state = (s.thr u).state ∨ (s.tick.thr u).state = .ready) := fun u => by
    simp only [Sys.tick]
    split_ifs
    · exact ⟨rfl, .inr rfl⟩
    · exact ⟨rfl, .inl rfl⟩
  refine h.congr rfl rfl rfl (fun u => ?_) (fun u => ?_) fun u _ => ?_
  · rw [(hthr u).1]
  · rcases (hthr u).2 with hst | hst <;> rw [hst]
    · exact h.alive u
    · nofun
  · rw [(hthr u).1]

variable [DecidableEq Pid]

theorem HandleCmd.exec_balanced {p : Pid} {ext : Oid → ℕ} (hb : Balanced k ext [])
    (hfree : ∀ o, c.makes = some o → k.obj o = none) (hc : c.HintSafe k p) :
    ∃ k' r, c.exec k p = some (k', r) ∧ LiveKept k k' ∧ Balanced k' ext [] := by
  cases c with
  | endpointCreate o name =>
    simp only [exec]
    split_ifs
    · obtain ⟨k', r, hk, hkept, hb'⟩ := hb.endpointCreate (hfree o rfl) p name
      exact ⟨k', _, by rw [hk]; rfl, hkept, hb'⟩
    · exact ⟨k, _, rfl, (ShapeKept.of_eq rfl).live, hb⟩
  | eventCreate o =>
    obtain ⟨k', r, hk, hkept, hb'⟩ := hb.eventCreate (hfree o rfl) p
    exact ⟨k', _, by simp only [exec, hk]; rfl, hkept, hb'⟩
  | pipeCreate o copied => exact hb.sysPipeCreate (hfree o rfl) p copied
  | duplicate srcH hint name =>
    obtain ⟨k', r, hk, hkept, hb'⟩ := hb.sysHandleDuplicate p srcH hint name hc
    exact ⟨k', r, hk, hkept.live, hb'⟩
  | grant pid srcH name rights =>
    obtain ⟨k', r, hk, hkept, hb'⟩ := hb.sysHandleGrant p pid srcH name rights
    exact ⟨k', r, hk, hkept.live, hb'⟩
  | close h =>
    obtain ⟨k', r, hk, hkept, hb'⟩ := hb.sysHandleClose p h
    exact ⟨k', r, hk, hkept.live, hb'⟩

theorem Refs.runHandle (h : Refs s Q []) (hc : c.HintSafe s.kernel (s.thr t).owner) :
    ∃ s' Q', runHandle s t c = some s' ∧ Refs s' Q' [] := by
  unfold Xnix.runHandle
  split_ifs with hmakes
  · exact ⟨s, Q, rfl, h⟩
  have hfree : ∀ o, c.makes = some o → s.kernel.obj o = none := fun o ho => by
    rw [ho] at hmakes
    simpa using hmakes
  have hbefore : ∃ s1, c.before s t = some s1 ∧ s1.kernel = s.kernel ∧ s1.thr = s.thr ∧
    Refs s1 Q [] := by
    unfold before
    split
    · rename_i q hq
      exact h.drain (wakes_kind hq)
    · exact ⟨s, rfl, rfl, rfl, h⟩
  obtain ⟨s1, hs1, hk1, hthr1, h1⟩ := hbefore
  rw [hs1, bind_some]
  have hex : ∃ k' r, c.exec s1.kernel (s1.thr t).owner = some (k', r) ∧
    Refs { s1 with kernel := k' } Q [] := by
    refine h1.call fun ext hb => ?_
    rw [hk1] at hb ⊢
    rw [hthr1]
    exact exec_balanced hb hfree hc
  obtain ⟨k', r, hk', h2⟩ := hex
  refine ⟨_, Q, by rw [hk']; rfl, Refs.leave ?_ t none r⟩
  unfold after
  split
  · rename_i o ho
    exact h2.newObject (h.queues_empty (hfree o ho))
  · exact h2

section
variable (h : Refs s Q []) (hq : QueueInv s Q) (hi : ∀ u, MsgOk .user s u)
include h hq hi

theorem Refs.ipcSend (hr : Running s Q t) (n : ℕ) (kind : OpKind) (m : IpcMessage Pid Tid)
    (reply : Option (IpcMessage Pid Tid)) (timeout : ℕ) :
    ∃ s' Q', ipcSend s t n kind m reply timeout = some s' ∧ Refs s' Q' [] := by
  have h1 := h.begin t (some m) reply
  unfold Xnix.ipcSend
  simp only
  split_ifs
  · exact ⟨_, Q, rfl, h1.leave t _ _⟩
  refine h1.withHandle fun k e h2 => ?_
  split_ifs
  · obtain ⟨s', hs', h'⟩ := h2.putReturn t (some (kind, s.nextOp)) (-ePerm)
    exact ⟨s', Q, hs', h'⟩
  refine h2.ipcSendToEp ?_ hr.free fun r hrq => ?_
  · simp only [begin_thr_self]
    exact hr.pc
  · have hne : r ≠ t := fun he => hr.free _ (he ▸ hrq)
    simp only [begin_thr_of_ne s hne]
    exact hq.receiver_room hi hrq

theorem Refs.ipcRecv (hr : Running s Q t) (n : ℕ) (buf : IpcMessage Pid Tid) (timeout : ℕ) :
    ∃ s' Q', ipcRecv s t n buf timeout = some s' ∧ Refs s' Q' [] := by
  have h1 := h.begin t none (some { buf with handles := [], senderTid := none, senderPid := none })
  unfold Xnix.ipcRecv
  simp only
  split_ifs
  · exact ⟨_, Q, rfl, h1.leave t _ _⟩
  refine h1.withHandle fun k e h2 => ?_
  split_ifs
  · obtain ⟨s', hs', h'⟩ := h2.putReturn t (some (.recv, s.nextOp)) (-ePerm)
    exact ⟨s', Q, hs', h'⟩
  have hroom : ((s.begin t none
    (some { buf with handles := [], senderTid := none, senderPid := none })).thr
      t).buf = some { buf with handles := [], senderTid := none, senderPid := none } := by
    simp only [begin_thr_self]
  refine h2.ipcReceive ?_ hr.free hroom fun u huq => ?_
  · simp only [begin_thr_self]
    exact hr.pc
  · have hne : u ≠ t := fun he => hr.free _ (he ▸ huq)
    simp only [begin_thr_of_ne s hne]
    exact hq.sender_message hi huq

theorem Refs.answerCall (hu : u ∈ s.blocked) {b : Blocking Oid}
    (hb : (s.thr u).pc = some b) (hk : b.on.kind = some .call) (m : IpcMessage Pid Tid)
    (request : ℕ) : ∃ s', s.answer t u m request = some s' ∧ Refs s' Q [] := by
  have hreply := (hi u).caller b hb hk ((hq.onList u).mp hu)
  obtain ⟨room, hroom⟩ := ((hi u).opens .call (.inr ⟨b, hb, hk⟩)).buf_eq_some nofun
  have htarget : (s.thr u).replyTarget = some room := by
    rw [Thread.replyTarget, if_pos hreply, hroom]
  exact h.answer (by rw [hb]; nofun) hreply htarget

theorem Refs.reply {c : Cmd Pid Oid Tid} (ha : RefCalm s (.run t c)) (hc : c.isReply) :
    ∃ s' Q', c.exec s t = some s' ∧ Refs s' Q' [] := by
  rcases exec_reply hc s t with ⟨r, hr⟩ | ⟨u, m, request, hans, f, hf, hexec⟩
  · exact ⟨_, Q, hr, h.leave t none r⟩
  · obtain ⟨-, b, hb, hk⟩ := ha.reply t c u rfl (Cmd.rouses_of_answers hans)
    obtain ⟨s1, hs1, h1⟩ := h.answerCall hq hi (Cmd.blocked_of_answers hans) hb hk m request
    rw [hexec, hs1]
    rcases hf with rfl | rfl
    · exact ⟨_, Q, rfl, h1.leave t none 0⟩
    · exact ⟨_, Q, rfl, Refs.leave (h1.modify t (f := fun th => { th with ipcPeer := none })
        fun _ => ⟨rfl, rfl, rfl⟩) t none 0⟩

theorem Refs.exec (hr : Running s Q t) {c : Cmd Pid Oid Tid} (ha : RefCalm s (.run t c)) :
    ∃ s' Q', c.exec s t = some s' ∧ Refs s' Q' [] := by
  have hc := ha.calls t c rfl
  cases c with
  | send n m timeout => exact h.ipcSend hq hi hr n .send _ none timeout
  | call n m buf timeout => exact h.ipcSend hq hi hr n .call _ _ timeout
  | recv n buf timeout => exact h.ipcRecv hq hi hr n buf timeout
  | reply m => exact h.reply hq hi ha rfl
  | replyTo tid m request => exact h.reply hq hi ha rfl
  | handle c => exact h.runHandle (ha.hint t c rfl)
  | eventSignal | eventWait | pipeRead | pipeWrite | sleep | kill => cases hc

end

theorem Refs.expire (h : Refs s Q []) {w : Wait Oid} {timeout : ℕ}
    (hb : (s.thr t).pc = some ⟨w, timeout⟩) (hin : ∀ q, w.queue = some q → t ∈ Q q) :
    ∃ s' Q', w.expire (s.modify t w.resumed) t = some s' ∧ Refs s' Q' [] := by
  have hkind := h.inOp t _ hb
  have hresumed : ∀ {x}, w.hold = some x → Refs (s.modify t w.resumed) Q [x] :=
    fun hx => h.resumed hb hx
  cases w with
  | sendQueued ep =>
    exact (hresumed rfl).leaveQueue (.inl rfl) (hin (.send, ep) rfl) fun h2 =>
      h2.sendReturn t .send (-eTimedOut)
  | callQueued ep =>
    exact (hresumed rfl).leaveQueue (.inl rfl) (hin (.send, ep) rfl) fun h2 =>
      h2.sendReturn t .call (-eTimedOut)
  | callSent ep =>
    obtain ⟨s', hs', h'⟩ := (hresumed rfl).sendReturn t .call (-eTimedOut)
    exact ⟨s', Q, hs', h'⟩
  | recv ep =>
    exact (hresumed rfl).leaveQueue (.inr rfl) (hin (.recv, ep) rfl) fun h2 =>
      h2.recvReturn t (-eTimedOut)
  | event | pipeRead | pipeWrite | sleep | stop => exact absurd rfl hkind

theorem Refs.wake (h : Refs s Q []) {w : Wait Oid} {timeout : ℕ}
    (hb : (s.thr t).pc = some ⟨w, timeout⟩) :
    ∃ s', w.wake (s.modify t w.resumed) t = some s' ∧ Refs s' Q [] := by
  have hkind := h.inOp t _ hb
  cases w with
  | sendQueued ep => exact (h.resumed hb rfl).sendReturn t .send 0
  | callQueued ep => exact (h.resumed hb rfl).sendReturn t .call 0
  | callSent ep => exact (h.resumed hb rfl).sendReturn t .call 0
  | recv ep => exact (h.resumed hb rfl).recvReturn t 0
  | event | pipeRead | pipeWrite | sleep | stop => exact absurd rfl hkind

theorem Refs.step (h : Refs s Q []) (hq : QueueInv s Q) (hi : ∀ u, MsgOk .user s u)
    (ha : RefCalm s a) : ∃ s' Q', s.step a = some s' ∧ Refs s' Q' [] := by
  cases a with
  | tick => exact ⟨_, Q, rfl, h.tick⟩
  | run t c =>
    simp only [Sys.step]
    split_ifs with hrun
    · exact h.exec hq hi (hq.running hrun.1 hrun.2) ha
    · exact ⟨s, Q, rfl, h⟩
  | resume t =>
    simp only [Sys.step]
    split_ifs with hready
    · split
      · rename_i b hb
        unfold Sys.goOn
        split_ifs with hexp
        · exact h.expire hb fun q hbq => hq.inQueue_iff.mp (ha.timeout t b q rfl hb hexp hbq)
        · obtain ⟨s', hs', h'⟩ := h.wake hb
          exact ⟨s', Q, hs', h'⟩
      · exact ⟨s, Q, rfl, h⟩
    · exact ⟨s, Q, rfl, h⟩

structure RefInv (s : Sys Pid Oid Tid) (Q : Queue Oid → List Tid) : Prop where
  queues : QueueInv s Q
  ipc : IpcInv .user s
  refs : Refs s Q []

theorem RefInv.step (h : RefInv s Q) (ha : RefCalm s a) :
    ∃ s' Q', s.step a = some s' ∧ RefInv s' Q' := by
  obtain ⟨s', Q', hs', h'⟩ := h.refs.step h.queues h.ipc.msgs ha
  by_cases hrun : ∀ t c, a = .run t c → (s.thr t).pc = none
  · have hcalm := ha.queueCalm h.refs hrun
    have hmove : ∀ ph (s : Sys Pid Oid Tid) ph' s', QueueInvAt ph s ∧ IpcInv ph s →
        Move QueueCalm ph s ph' s' → QueueInvAt ph' s' ∧ IpcInv ph' s' := by
      rintro ph s ph' s' ⟨hat, hipc⟩ hm
      refine ⟨hat.move (fun _ _ h => h) hm, ?_⟩
      obtain ⟨Q, hq, hr⟩ := hat
      exact hipc.move (fun _ _ h => h) hq hr hm
    obtain ⟨⟨Q1, hq1, -⟩, hipc⟩ := (step_moves (fun _ _ h => h) hcalm h.queues hs').invariant hmove
      ⟨⟨Q, h.queues, nofun⟩, h.ipc⟩
    obtain rfl := h'.linked.unique hq1.linked
    exact ⟨s', Q', hs', hq1, hipc, h'⟩
  · simp only [not_forall] at hrun
    obtain ⟨t, c, rfl, hpc⟩ := hrun
    have hsame : s.step (.run t c) = some s := if_neg fun hready => hpc hready.2
    exact ⟨s, Q, hsame, h⟩

theorem refInv_of_run (h : Lib.Reach Sys.step Sys.Booted RefCalm s) : ∃ Q, RefInv s Q := by
  refine Lib.Reach.invariant (P := fun s => ∃ Q, RefInv s Q) (fun s hs => ?_)
    (fun s a s' hs ha hstep => ?_) h
  · exact ⟨_, QueueInv.boot hs, IpcInv.boot hs, Refs.boot hs⟩
  · obtain ⟨Q, hinv⟩ := hs
    obtain ⟨s1, Q1, hs1, h1⟩ := hinv.step ha
    cases hs1.symm.trans hstep
    exact ⟨Q1, h1⟩

end Run

section Results

def Kernel.HasEndpoint (k : Kernel Pid Oid) (ep : Oid) : Prop :=
  ∃ ob, k.obj ep = some ob ∧ ob.kind = .endpoint

theorem hasEndpoint_of_typed (h : (k.typed .endpoint ep).isSome) : k.HasEndpoint ep := by
  obtain ⟨ob, hob⟩ := isSome_iff_exists.mp h
  obtain ⟨ho, hf⟩ := typed_eq_some_iff.mp hob
  refine ⟨ob, ho, ?_⟩
  cases hk : ob.kind <;> simp_all [HandleType.fits]

variable [DecidableEq Oid] [Fintype Pid] [Fintype Oid]

theorem WorldBalanced.opsRefs_endpoint {l : List (Hold Oid)} (hw : WorldBalanced ⟨k, l⟩ [])
    {ob : Object Pid Oid} (ho : k.obj ep = some ob) (hk : ob.kind = .endpoint) :
    opsRefs l ep = l.count (.endpoint, ep) := by
  refine List.countP_congr fun x hx => ?_
  obtain ⟨type, o⟩ := x
  simp only [decide_eq_true_eq, beq_iff_eq, Prod.mk.injEq, iff_and_self]
  rintro rfl
  obtain ⟨ob', hob'⟩ := isSome_iff_exists.mp (hw.typed _ hx)
  obtain ⟨ho', hf⟩ := typed_eq_some_iff.mp hob'
  cases ho.symm.trans ho'
  cases type <;> simp_all [HandleType.fits]

variable [Fintype Tid]

/-- Every endpoint is counted by the entries that name it and the threads that use it or queue at
it, and none of these names a freed one. -/
structure EndpointsCounted (s : Sys Pid Oid Tid) (Q : Queue Oid → List Tid) : Prop where
  queues : Lib.Linked s.links Q
  count : ∀ ep ob, s.kernel.obj ep = some ob → ob.kind = .endpoint →
    ob.refcount = s.kernel.entries ep + s.held (.endpoint, ep) + (Q (.send, ep)).length +
      (Q (.recv, ep)).length
  entry : ∀ p (n : ℕ) (e : HandleEntry Oid), (s.kernel.table p)[n]? = some (some e) →
    e.type = .endpoint → s.kernel.HasEndpoint e.object
  holder : ∀ t ep, (s.thr t).hold = some (.endpoint, ep) → s.kernel.HasEndpoint ep
  queued : ∀ t ep, t ∈ Q (.send, ep) ∨ t ∈ Q (.recv, ep) → s.kernel.HasEndpoint ep

theorem Refs.endpointsCounted (h : Refs s Q []) : EndpointsCounted s Q := by
  have htyped : ∀ ep, 0 < s.held (.endpoint, ep) + queueRefs Q (.endpoint, ep) →
      s.kernel.HasEndpoint ep := fun ep hpos => by
    refine hasEndpoint_of_typed (h.typed (x := (.endpoint, ep)) ?_)
    rw [List.count_nil, Nat.zero_add]
    exact hpos
  refine ⟨h.linked, fun ep ob ho hk => ?_, fun p n e he htype => ?_, fun t ep ht => ?_,
    fun t ep ht => ?_⟩
  · obtain ⟨l, hw, hl⟩ := h.refs
    have href : ob.refcount = s.kernel.entries ep + 0 + s.kernel.watchRefs ep + s.kernel.irqRefs ep
        + opsRefs l ep := hw.balanced.refs ep ob ho
    obtain ⟨hwatch, hirq⟩ := hw.balanced.unsignalled ho (by rw [hk]; nofun)
    have hrefs : queueRefs Q (.endpoint, ep) = (Q (.send, ep)).length + (Q (.recv, ep)).length :=
      if_pos rfl
    rw [hw.opsRefs_endpoint ho hk, hl, hwatch, hirq, List.count_nil, hrefs] at href
    omega
  · obtain ⟨l, hw, -⟩ := h.refs
    have hent := hw.balanced.entryTyped p n e he
    rw [htype] at hent
    exact hasEndpoint_of_typed hent
  · refine htyped ep (Nat.add_pos_left ?_ _)
    have hle := Lib.single_le_sum_weight s.thr (fun th => holdWeight (.endpoint, ep) th.hold) t
    simp only [ht, holdWeight, if_true] at hle
    exact hle
  · refine htyped ep (Nat.add_pos_right _ ?_)
    rcases ht with ht | ht
    · exact Nat.add_pos_left (List.length_pos_of_mem ht) _
    · exact Nat.add_pos_right _ (List.length_pos_of_mem ht)

variable [DecidableEq Tid] [DecidableEq Pid]

/-- In every calm run the endpoints are counted, and no further calm step touches a freed
endpoint. -/
theorem endpoints_counted (h : Lib.Reach Sys.step Sys.Booted RefCalm s) :
    (∃ Q, EndpointsCounted s Q) ∧ ∀ a, RefCalm s a → (s.step a).isSome := by
  obtain ⟨Q, hinv⟩ := refInv_of_run h
  refine ⟨⟨Q, hinv.refs.endpointsCounted⟩, fun a ha => ?_⟩
  obtain ⟨s', -, hs', -⟩ := hinv.step ha
  rw [hs']
  rfl

end Results

theorem refCalm_of_receiverRun (s : Sys (Fin 1) (Fin 1) (Fin 2))
    (a : Action (Fin 1) (Fin 1) (Fin 2)) (ha : a ∈ receiverRun) : RefCalm s a := by
  simp only [receiverRun, List.mem_cons, List.not_mem_nil, or_false] at ha
  rcases ha with rfl | rfl
  · refine ⟨?_, ?_, (by simp), ?_⟩
    · rintro _ _ ⟨⟩
      rfl
    · rintro _ _ u ⟨⟩ hu
      cases hu
    · rintro _ _ ⟨⟩
      trivial
  · refine ⟨?_, ?_, (by simp), ?_⟩
    · rintro _ _ ⟨⟩
      rfl
    · rintro _ _ u ⟨⟩ hu
      cases hu
    · rintro _ _ ⟨⟩

theorem endpoints_counted_receiverRun : ∃ s : Sys (Fin 1) (Fin 1) (Fin 2),
    Lib.run Sys.step twinThreads receiverRun = some s ∧
      (s.kernel.obj 0).map (fun ob => (ob.kind, ob.refcount)) = some (.endpoint, 3) ∧
      (∃ Q, EndpointsCounted s Q) ∧ ∀ a, RefCalm s a → (s.step a).isSome := by
  have hrun : (Lib.run Sys.step twinThreads receiverRun).map (fun s =>
      (s.kernel.obj 0).map fun ob => (ob.kind, ob.refcount)) = some (some (.endpoint, 3)) := by
    decide
  obtain ⟨s, hs, hobj⟩ := map_eq_some_iff.mp hrun
  exact ⟨s, hs, hobj, endpoints_counted
    (.of_run receiverRun (.init (booted_bootSys _ _)) (fun s a => refCalm_of_receiverRun s a) hs)⟩

/-- The sender's timeout fires, a receive takes it off the queue, and both drop the queue's
reference: the endpoint is freed while its handle is open. -/
theorem endpoint_freed_while_named :
    ∃ s : Sys (Fin 1) (Fin 1) (Fin 2), Lib.Reach Sys.step Sys.Booted (fun _ _ => True) s ∧
      s.kernel.obj 0 = none ∧ s.kernel.entries 0 = 1 ∧ ¬ ∃ Q, EndpointsCounted s Q := by
  obtain ⟨s, hs, hnone, hent, hentry⟩ :=
    Lib.Reach.exists_run Sys.step (s := twinThreads) (P := fun s =>
    (s.kernel.obj 0).isNone ∧ s.kernel.entries 0 = 1 ∧
      ((s.kernel.table 0)[0]?).map (fun e => e.map fun e => (e.type, e.object)) =
      some (some (.endpoint, 0)))
    [.run 0 (.handle (.endpointCreate 0 [])), .run 1 (.send 0 blankMessage 1), .tick,
      .run 0 (.recv 0 blankMessage 0), .resume 1] (booted_bootSys _ _) (by decide +kernel)
  simp only [isNone_iff_eq_none, map_eq_some_iff, Prod.mk.injEq] at hnone hentry
  obtain ⟨v, hv, e, rfl, htype, ho⟩ := hentry
  refine ⟨s, hs, hnone, hent, fun ⟨Q, hQ⟩ => ?_⟩
  obtain ⟨ob, hob, -⟩ := hQ.entry 0 0 e hv htype
  rw [ho, hnone] at hob
  cases hob

end Xnix
