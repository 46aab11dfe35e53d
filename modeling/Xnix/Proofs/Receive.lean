import Xnix.Proofs.Turns

/-!
# A receive that returns 0 has a message

A receiver leaves its queue only with a message, so when it is woken without a timeout its buffer
holds exactly one message and names the sender. This needs that nothing wakes a thread blocked in
`ipc_receive` but its queue and its timeout.
-/

namespace Xnix

open Event

variable {Pid Oid Tid : Type} {buf : Option (IpcMessage Pid Tid)} {Q : Queue Oid → List Tid}

/-- The receive `n` of `t` got one message, and its buffer names the sender. -/
def Got (log : List (Event Pid Tid)) (n : ℕ) (t : Tid) (buf : Option (IpcMessage Pid Tid)) : Prop :=
  ∃ k u m, buf = some m ∧ m.senderTid = some u ∧ log.filter (into n) = [.took k u n t]

structure RecvOk (ph : Phase Tid) (s : Sys Pid Oid Tid) (u : Tid) : Prop where
  waiting : ∀ b, (s.thr u).pc = some b → b.on.kind = some .recv →
    (s.log.filter (into (s.thr u).op) = [] ∧ ((s.thr u).state = .ready → b.expired (s.thr u))) ∨
      Got s.log (s.thr u).op u (s.thr u).buf
  queued : ∀ ep, s.InQueue (.recv, ep) u → s.log.filter (into (s.thr u).op) = []
  fresh : ph = .ipc u .recv .fresh → s.log.filter (into (s.thr u).op) = []
  got : ph = .ipc u .recv .passed ∨ ph = .ipc u .recv .woken →
    Got s.log (s.thr u).op u (s.thr u).buf

variable {s s' : Sys Pid Oid Tid} {ph ph' : Phase Tid} {u : Tid} {Q' : Queue Oid → List Tid}

theorem Got.congr {log log' : List (Event Pid Tid)} {n : ℕ} {t : Tid}
    (h : Got log n t buf)
    (hf : log'.filter (into n) = log.filter (into n)) : Got log' n t buf := by
  obtain ⟨k, u, m, hm, hu, hlog⟩ := h
  exact ⟨k, u, m, hm, hu, hf.trans hlog⟩

theorem RecvOk.of_not_doing (h : ¬ Doing ph s u .recv) (hq : QueueInv s Q) : RecvOk ph s u := by
  refine ⟨fun b hb hk => absurd (.inr ⟨b, hb, hk⟩) h, fun ep hi => ?_,
    fun hk => absurd (.inl ⟨_, hk⟩) h,
    fun hk => hk.elim (fun hk => absurd (.inl ⟨_, hk⟩) h) fun hk => absurd (.inl ⟨_, hk⟩) h⟩
  obtain ⟨b, hb, hbq, -⟩ := hq.waits _ u (hq.inQueue_iff.mp hi)
  exact absurd (.inr ⟨b, hb, by rw [Wait.eq_recv_of_queue hbq]; rfl⟩) h

theorem RecvOk.running (hq : QueueInv s Q) (hr : Running s Q u)
    (hfresh : ph = .ipc u .recv .fresh → s.log.filter (into (s.thr u).op) = [])
    (hgot : ph = .ipc u .recv .passed ∨ ph = .ipc u .recv .woken →
      Got s.log (s.thr u).op u (s.thr u).buf) : RecvOk ph s u := by
  refine ⟨fun b hb => ?_, fun ep hi => ?_, hfresh, hgot⟩
  · rw [hr.pc] at hb
    cases hb
  · exact absurd (hq.inQueue_iff.mp hi) (hr.free _)

theorem RecvOk.still (h : RecvOk ph s u) (hs : Still (s.thr u) (s'.thr u)) (hf : (s'.thr u).InOp →
      s'.log.filter (into (s.thr u).op) = s.log.filter (into (s.thr u).op))
    (hph : ∀ kind stage, ph' ≠ .ipc u kind stage) (hq' : QueueInv s' Q')
    (hin : ∀ q, (q.1 = .send ∨ q.1 = .recv) → s'.InQueue q u → s.InQueue q u) :
    RecvOk ph' s' u := by
  refine ⟨fun b hb hk => ?_, fun ep hi => ?_, fun hk => absurd hk (hph _ _),
    fun hk => hk.elim (fun hk => absurd hk (hph _ _)) fun hk => absurd hk (hph _ _)⟩
  · have hk' : b.on.kind ≠ none := by
      rw [hk]
      nofun
    have hf' := hf ⟨b, hb, hk'⟩
    rw [hs.op, hf', hs.buf ⟨b, hb, hk'⟩]
    refine (h.waiting b (hs.pc hb hk') hk).imp (fun hw => ⟨hw.1, fun hready => ?_⟩)
      fun hg => hg.congr hf'
    rcases hs.wakes hb hk' hready with hx | ⟨hready', hx⟩
    · exact hx
    · rw [hx]
      exact hw.2 hready'
  · rw [hs.op, hf (inOp_of_inQueue hq' (.inr rfl) hi)]
    exact h.queued ep (hin _ (.inr rfl) hi)

theorem Wait.queue_of_recv {w : Wait Oid} (h : w.kind = some .recv) : w.queue ≠ none := by
  cases w <;> simp_all [Wait.kind, Wait.queue]

section Move
variable {ok : Sys Pid Oid Tid → Action Pid Oid Tid → Prop}

/-- The receives: those in progress, and those that have returned 0. -/
structure RecvInv (ph : Phase Tid) (s : Sys Pid Oid Tid) : Prop where
  ipc : IpcInv ph s
  recv : ∀ u, RecvOk ph s u
  returned : ∀ t n buf, .ret t (some (.recv, n)) 0 buf ∈ s.log → Got s.log n t buf

theorem RecvInv.boot (h : s.Booted) : RecvInv .user s := by
  have hq := QueueInv.boot h
  refine ⟨IpcInv.boot h, fun u => .of_not_doing ?_ hq, fun t n buf hret => ?_⟩
  · rintro (⟨_, hk⟩ | ⟨b, hb, -⟩)
    · cases hk
    · obtain ⟨p, hp⟩ := h.thr u
      rw [hp] at hb
      cases hb
  · rw [h.log] at hret
    cases hret

variable [DecidableEq Tid]

def ReceiveCalm (s : Sys Pid Oid Tid) (a : Action Pid Oid Tid) : Prop :=
  QueueCalm s a ∧ ∀ t c u b, a = .run t c → c.rouses s t = some u → (s.thr u).state = .blocked →
    (s.thr u).pc = some b → b.on.kind ≠ some .recv

theorem RecvOk.turn (hok : ∀ s a, ok s a → ReceiveCalm s a)
    (hr : ∀ t, ph.thread = some t → Running s Q t) (h : IpcInv ph s) (hu : RecvOk ph s u)
    (hq' : QueueInv s' Q') (hr' : ∀ t, ph'.thread = some t → Running s' Q' t)
    (ht : Turn ok s s' u ph ph') : RecvOk ph' s' u := by
  cases ht with
  | still hs hph _ hin hlog =>
    obtain ⟨l, hlog, -, hl⟩ := hlog
    refine hu.still hs (fun hi => ?_) hph hq' hin
    rw [hlog]
    have hpos := h.ops.pos u (.inr (hi.of_view (hs.view hi)))
    exact filter_append_of_false fun e he => into_eq_false (hl hpos e he)
  | kept hident hbuf hlog =>
    refine .running hq' (hr' u rfl) (fun hk => ?_) fun hk => ?_
    · rw [op_of_ident hident, hlog]
      exact hu.fresh hk
    · rw [op_of_ident hident, hlog, hbuf]
      exact hu.got hk
  | begins _ hop hlog =>
    refine .running hq' (hr' u rfl) (fun _ => ?_) fun hk => ?_
    · rw [hop, hlog]
      exact h.ops.filter_nextOp fun _ => into_eq_false
    · rcases hk with hk | hk <;> cases hk
  | @resumes b kind stage hready hpc hk hop hpc' hbuf hstage hlog =>
    refine .running hq' (hr' u rfl) (fun hk' => ?_) fun hk' => ?_
    · cases hk'
      rcases hstage with h | h <;> cases h.1
    · rw [hop, hlog, hbuf]
      rcases hk' with hk' | hk' <;> cases hk'
      · rcases hstage with h | h <;> cases h.1
      · have hexp := (hstage.resolve_right fun h => by cases h.1).2
        refine (hu.waiting b hpc hk).resolve_left fun hw => ?_
        rw [hw.2 hready] at hexp
        cases hexp
  | @handed t kind ep m hne hin hout hident hbuf hm hlog =>
    refine ⟨fun b hb hk => .inr ?_, fun ep hi => absurd hi (hout _), fun hk => ?_, fun hk => ?_⟩
    · refine ⟨(s.thr t).op, t, m, hbuf, hm, ?_⟩
      rw [op_of_ident hident, hlog, List.filter_cons_of_pos (by simp [into]), hu.queued _ hin]
    · cases hk
    · rcases hk with hk | hk <;> cases hk
      exact absurd rfl hne
  | hands hkind hne hthr hlog =>
    refine .running hq' (hr' u rfl) (fun hk => ?_) fun hk => ?_
    · cases hk
    · rcases hk with hk | hk <;> cases hk
      exact absurd rfl hkind
  | @takes v m hne hident hbuf hm hlog =>
    refine .running hq' (hr' u rfl) (by simp) fun _ => ⟨(s.thr v).op, v, m, hbuf, hm, ?_⟩
    rw [op_of_ident hident, hlog, List.filter_cons_of_pos (by simp [into]), hu.fresh rfl]
  | @taken t _ _ hne hin hout hdo hkind hident hcall hsend hlog =>
    refine .of_not_doing (fun hd => ?_) hq'
    have hd' : Doing (.ipc t .recv .fresh) s u .recv := by
      refine doing_of_ident hident (fun kind stage hk => ?_) hd
      cases hk
      exact absurd rfl hne
    exact hkind (hdo.unique (fun v hv => (hr v hv).pc) hd')
  | answered hc hans hph hblocked hout hident hready hlog =>
    refine .of_not_doing (fun hd => ?_) hq'
    obtain ⟨b, hb, hk⟩ := hd.wait_of_idle hph
    simp only [Thread.ident, Prod.mk.injEq] at hident
    exact (hok _ _ hc).2 _ _ u b rfl (Cmd.rouses_of_answers hans) hblocked (hident.2.2 ▸ hb) hk
  | killed hc hkills hph hblocked hinOp hthr hlog =>
    refine .of_not_doing (fun hd => ?_) hq'
    obtain ⟨b, hb, hk⟩ := hd.wait_of_idle hph
    rw [hthr] at hb
    exact (hok _ _ hc).2 _ _ u b rfl (Cmd.rouses_of_kills _ hkills) hblocked hb hk
  | @waits kind stage b hk hpc hblocked hop hstage hlog =>
    have hfresh : kind = .recv → s'.log.filter (into (s'.thr u).op) = [] := by
      rintro rfl
      rw [hop, hlog]
      refine hu.fresh ?_
      rw [(hstage.resolve_left fun h => Wait.queue_of_recv hk h.1).2]
    refine ⟨fun b' hb' hk' => .inl ⟨hfresh ?_, fun hready => ?_⟩, fun ep hi => hfresh ?_, (by simp),
      fun hk => by rcases hk with hk | hk <;> cases hk⟩
    · rw [hpc] at hb'
      cases hb'
      rw [hk] at hk'
      cases hk'
      rfl
    · rw [hblocked] at hready
      cases hready
    · obtain ⟨b', hb', hbq, -⟩ := hq'.waits _ u (hq'.inQueue_iff.mp hi)
      rw [hpc] at hb'
      cases hb'
      rw [Wait.eq_recv_of_queue hbq] at hk
      cases hk
      rfl
  | returns hret hop hnot hlog =>
    refine .of_not_doing (fun hd => hnot ?_) hq'
    rcases hd with ⟨_, hk⟩ | ⟨b, hb, hk⟩
    · cases hk
    · exact ⟨b, hb, by simp [hk]⟩

theorem receiveCalm_of_quietStep (s : Sys Pid Oid Tid) (a : Action Pid Oid Tid)
    (h : quietStep s a) : ReceiveCalm s a := by
  refine ⟨queueCalm_of_quietStep s a h, ?_⟩
  rintro t c u b rfl hc
  simp only [quietStep, hc, Option.isNone_some, Bool.false_and] at h
  cases h

variable [DecidableEq Pid] [DecidableEq Oid] [Fintype Tid]

theorem RecvInv.move (hok : ∀ s a, ok s a → ReceiveCalm s a) (hq : QueueInvAt ph s)
    (h : RecvInv ph s) (hm : Move ok ph s ph' s') : RecvInv ph' s' := by
  have hcalm : ∀ s a, ok s a → QueueCalm s a := fun s a ha => (hok s a ha).1
  obtain ⟨Q, hq, hr⟩ := hq
  obtain ⟨Q', hq', hr', -⟩ := hq.move hcalm hm hr
  refine ⟨h.ipc.move hcalm hq hr hm, fun u =>
    (h.recv u).turn hok hr h.ipc hq' hr' (hm.turn hcalm hq hr h.ipc u), fun t n buf hret => ?_⟩
  obtain ⟨-, hfilter, -, hold | ⟨stage, hph, hret', rfl, rfl⟩⟩ := hm.returned hq hr h.ipc.ops hret
  · exact (h.returned t n buf hold).congr hfilter
  · refine ((h.recv t).got ?_).congr hfilter
    cases stage with
    | fresh => exact absurd rfl hret'.1
    | passed => exact .inl hph
    | woken => exact .inr hph
    | expired => cases hret'

/-- A receive that returned 0 had exactly one message copied into its buffer and names its sender,
and its thread is in no endpoint queue until the next operation. -/
theorem receive_got_message
    (h : Lib.Reach Sys.step Sys.Booted (fun s a => ReceiveCalm s a ∧ s.Unfreed) s)
    {t : Tid} {n : ℕ} (hret : .ret t (some (.recv, n)) 0 buf ∈ s.log) :
    (∃ k u m, buf = some m ∧ m.senderTid = some u ∧ s.log.filter (Event.into n) = [.took k u n t]) ∧
      ((s.thr t).op = n → ∀ ep, ¬ s.InQueue (.send, ep) t ∧ ¬ s.InQueue (.recv, ep) t) := by
  obtain ⟨⟨Q, hq, -⟩, hinv⟩ := reach_invariant (fun _ _ h => h.1.1) (fun _ => RecvInv.boot)
    (fun _ _ _ _ hq h hm => h.move (fun _ _ h => h.1) hq hm) h
  have hopen : ∀ q : Queue Oid, (q.1 = .send ∨ q.1 = .recv) → (s.thr t).op = n → ¬ s.InQueue q t :=
    fun q hk hn hi =>
      hinv.ipc.ops.unreturned t (.inr (inOp_of_inQueue hq hk hi)) _ hret (show n = _ from hn.symm)
  exact ⟨hinv.returned t n buf hret, fun hn ep => ⟨hopen _ (.inl rfl) hn, hopen _ (.inr rfl) hn⟩⟩

end Move

def blankMessage : IpcMessage Pid Tid := ⟨.replicate _ 0#32, none, [], 0#32, none, none⟩

def twinThreads : Sys (Fin 1) (Fin 1) (Fin 2) := bootSys (fun _ => 0) fun _ => [0, 1]

def receiverRun : List (Action (Fin 1) (Fin 1) (Fin 2)) :=
  [.run 0 (.handle (.endpointCreate 0 [])), .run 0 (.recv 0 blankMessage 0)]

theorem receive_got_message_receiverRun :
    ∃ s : Sys (Fin 1) (Fin 1) (Fin 2),
    Lib.Reach Sys.step Sys.Booted (fun s a => ReceiveCalm s a ∧ s.Unfreed) s ∧
      ∃ buf, .ret 0 (some (.recv, 1)) 0 buf ∈ s.log ∧ ∃ k u m, buf = some m ∧ m.senderTid = some u ∧
          s.log.filter (Event.into 1) = [.took k u 1 0] := by
  obtain ⟨s, -, hlog, hreach⟩ :=
    Lib.Reach.exists_runAll Sys.step (s := twinThreads) (P := fun s => s.log.head? =
    some (.ret 0 (some (.recv, 1)) 0 (some (blankMessage.stamped 1 0))))
    (receiverRun ++ [.run 1 (.send 0 blankMessage 0), .resume 0])
    (fun s a h => (unfreed_of_aliveStep h).imp_left (receiveCalm_of_quietStep s a))
      (booted_bootSys _ _) (by decide)
    (by decide)
  have hret := List.mem_of_mem_head? hlog
  exact ⟨s, hreach, _, hret, (receive_got_message hreach hret).1⟩

/-- A signal that is ignored by default wakes the receiver: its receive returns 0 without a message,
and it stays in the queue. -/
theorem receive_without_message :
    ∃ s : Sys (Fin 1) (Fin 1) (Fin 2), Lib.Reach Sys.step Sys.Booted (fun _ _ => True) s ∧
      .ret 0 (some (.recv, 1)) 0 (some blankMessage) ∈ s.log ∧
      s.log.filter (Event.into 1) = [] ∧ s.InQueue (.recv, 0) 0 := by
  obtain ⟨s, hs, hlog, hinto, hhead⟩ :=
    Lib.Reach.exists_run Sys.step (s := twinThreads) (P := fun s =>
    s.log.head? = some (.ret 0 (some (.recv, 1)) 0 (some blankMessage)) ∧
      s.log.filter (into 1) = [] ∧ s.links.head (.recv, 0) = some 0)
    (receiverRun ++ [.run 1 (.kill 0 sigChld), .resume 0]) (booted_bootSys _ _) (by decide)
  refine ⟨s, hs, List.mem_of_mem_head? hlog, hinto, ?_⟩
  rw [Sys.InQueue, hhead]
  exact .here

end Xnix
