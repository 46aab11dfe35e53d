import Xnix.Proofs.Receive

/-!
# What sends and calls report

A queued sender leaves its queue when a receive takes its message, and a caller is then answered; so
an operation that is woken before its timeout has had its message taken. A sender whose timeout has
fired is still in the queue, and can be taken from it, until it runs again: here it is assumed to
run before that happens.
-/

namespace Xnix

open List Option Event

variable {Pid Oid Tid : Type} {log log' : List (Event Pid Tid)} {kind : OpKind} {t : Tid} {u : Tid}
  {Q : Queue Oid → List Tid}

section
variable (log : List (Event Pid Tid))

/-- One receive took the message of the operation `n` of `u`. -/
def Taken (n : ℕ) (u : Tid) : Prop :=
  ∃ r w, log.filter (outOf n) = [.took n u r w]

/-- What a send or call that returns 0 has had. -/
def Served (n : ℕ) (u : Tid) (kind : OpKind) : Prop :=
  Taken log n u ∧ (kind = .call → .replied n n ∈ log)

/-- How far the message of a send or call has come. -/
def Sent (n : ℕ) (u : Tid) (kind : OpKind) : Stage → Prop
  | .fresh => log.filter (outOf n) = []
  | .passed => Taken log n u
  | .woken => Served log n u kind
  | .expired => kind = .send → log.filter (outOf n) = []

end

structure SendOk (ph : Phase Tid) (s : Sys Pid Oid Tid) (u : Tid) : Prop where
  queued : ∀ ep, s.InQueue (.send, ep) u → s.log.filter (outOf (s.thr u).op) = []
  waiting : ∀ b kind, (s.thr u).pc = some b → b.on.kind = some kind → kind ≠ .recv →
    (s.log.filter (outOf (s.thr u).op) = [] ∨ Taken s.log (s.thr u).op u) ∧
      ((s.thr u).state = .ready → b.expired (s.thr u) ∨ Served s.log (s.thr u).op u kind)
  running : ∀ kind stage, ph = .ipc u kind stage → kind ≠ .recv →
    Sent s.log (s.thr u).op u kind stage

section Log
variable {n : ℕ}

theorem Taken.congr (h : Taken log n u) (hf : log'.filter (outOf n) = log.filter (outOf n)) :
    Taken log' n u := by
  obtain ⟨r, w, hlog⟩ := h
  exact ⟨r, w, hf.trans hlog⟩

theorem Taken.ne_nil (h : Taken log n u) : log.filter (outOf n) ≠ [] := by
  obtain ⟨r, w, hlog⟩ := h
  rw [hlog]
  exact cons_ne_nil _ _

theorem Served.congr (h : Served log n u kind)
    (hf : log'.filter (outOf n) = log.filter (outOf n)) (hsub : log ⊆ log') :
    Served log' n u kind :=
  ⟨h.1.congr hf, fun hk => hsub (h.2 hk)⟩

theorem taken_of_nil {r : ℕ} {w : Tid} (h : log.filter (outOf n) = []) :
  Taken (.took n u r w :: log) n u := ⟨r, w, by rw [filter_cons_of_pos (by simp [outOf]), h]⟩

end Log

variable {s s' : Sys Pid Oid Tid} {ph ph' : Phase Tid} {Q' : Queue Oid → List Tid}

theorem SendOk.of_not_doing (h : ∀ kind, Doing ph s u kind → kind = .recv) (hq : QueueInv s Q) :
    SendOk ph s u := by
  refine ⟨fun ep hi => ?_, fun b kind hb hk hne => absurd (h kind (.inr ⟨b, hb, hk⟩)) hne,
    fun kind stage hk hne => absurd (h kind (.inl ⟨_, hk⟩)) hne⟩
  obtain ⟨b, hb, hbq, -⟩ := hq.waits _ u (hq.inQueue_iff.mp hi)
  rcases Wait.eq_send_of_queue hbq with hw | hw
  · cases h .send (.inr ⟨b, hb, by rw [hw]; rfl⟩)
  · cases h .call (.inr ⟨b, hb, by rw [hw]; rfl⟩)

theorem SendOk.of_running (hq : QueueInv s Q) (hr : Running s Q u)
    (h : ∀ kind stage, ph = .ipc u kind stage → kind ≠ .recv →
      Sent s.log (s.thr u).op u kind stage) : SendOk ph s u := by
  refine ⟨fun ep hi => ?_, fun b kind hb => ?_, h⟩
  · exact absurd (hq.inQueue_iff.mp hi) (hr.free _)
  · rw [hr.pc] at hb
    cases hb

theorem SendOk.still (h : SendOk ph s u) (hs : Still (s.thr u) (s'.thr u)) (hf : (s'.thr u).InOp →
      s'.log.filter (outOf (s.thr u).op) = s.log.filter (outOf (s.thr u).op))
    (hsub : s.log ⊆ s'.log) (hph : ∀ kind stage, ph' ≠ .ipc u kind stage) (hq' : QueueInv s' Q')
    (hin : ∀ q, (q.1 = .send ∨ q.1 = .recv) → s'.InQueue q u → s.InQueue q u) :
    SendOk ph' s' u := by
  refine ⟨fun ep hi => ?_, fun b kind hb hk hne => ?_, fun _ _ hk => absurd hk (hph _ _)⟩
  · rw [hs.op, hf (inOp_of_inQueue hq' (.inl rfl) hi)]
    exact h.queued ep (hin _ (.inl rfl) hi)
  · have hk' : b.on.kind ≠ none := by
      rw [hk]
      nofun
    have hf' := hf ⟨b, hb, hk'⟩
    obtain ⟨htaken, hready⟩ := h.waiting b kind (hs.pc hb hk') hk hne
    rw [hs.op]
    refine ⟨htaken.imp hf'.trans fun ht => ht.congr hf', fun hr => ?_⟩
    rcases hs.wakes hb hk' hr with hx | ⟨hr', hx⟩
    · exact .inl hx
    · rw [hx]
      exact (hready hr').imp_right fun hv => hv.congr hf' hsub

theorem Wait.eq_sendQueued {w : Wait Oid} (h : w.kind = some .send) : ∃ ep, w = .sendQueued ep := by
  cases w <;> simp_all [Wait.kind]

theorem Wait.eq_recv {w : Wait Oid} (h : w.kind = some .recv) : ∃ ep, w = .recv ep := by
  cases w <;> simp_all [Wait.kind]

section Move
variable {ok : Sys Pid Oid Tid → Action Pid Oid Tid → Prop}

def Truthful (log : List (Event Pid Tid)) (t : Tid) (n : ℕ) (r : ℤ) : OpKind → Prop
  | .send => (r = 0 → Taken log n t) ∧ (r ≠ 0 → log.filter (outOf n) = [])
  | .call => r = 0 → Served log n t .call
  | .recv => r ≠ 0 → log.filter (into n) = []

structure OutcomeInv (ph : Phase Tid) (s : Sys Pid Oid Tid) : Prop where
  recv : RecvInv ph s
  send : ∀ u, SendOk ph s u
  late : ∀ u, ph = .ipc u .recv .expired → s.log.filter (into (s.thr u).op) = []
  returned : ∀ t kind n r buf, .ret t (some (kind, n)) r buf ∈ s.log → Truthful s.log t n r kind

theorem Truthful.congr {n : ℕ} {r : ℤ}
    (h : Truthful log t n r kind)
    (hinto : log'.filter (into n) = log.filter (into n))
    (hout : log'.filter (outOf n) = log.filter (outOf n)) (hsub : log ⊆ log') :
    Truthful log' t n r kind := by
  cases kind with
  | send => exact ⟨fun hr => (h.1 hr).congr hout, fun hr => hout.trans (h.2 hr)⟩
  | call => exact fun hr => (h hr).congr hout hsub
  | recv => exact fun hr => hinto.trans (h hr)

theorem OutcomeInv.truthful (h : OutcomeInv ph s) {stage : Stage} {r : ℤ}
    (hph : ph = .ipc t kind stage) (hr : stage.Returns kind r) :
    Truthful s.log t (s.thr t).op r kind := by
  have hsent : kind ≠ .recv → Sent s.log (s.thr t).op t kind stage :=
    (h.send t).running kind stage hph
  cases stage with
  | fresh =>
    cases kind with
    | send => exact ⟨fun h0 => absurd h0 hr.1, fun _ => hsent nofun⟩
    | call => exact fun h0 => absurd h0 hr.1
    | recv => exact fun _ => (h.recv.recv t).fresh hph
  | passed =>
    obtain ⟨rfl, hcall⟩ := hr
    cases kind with
    | send => exact ⟨fun _ => hsent nofun, fun h0 => absurd rfl h0⟩
    | call => exact absurd rfl hcall
    | recv => exact fun h0 => absurd rfl h0
  | woken =>
    cases hr
    cases kind with
    | send => exact ⟨fun _ => (hsent nofun).1, fun h0 => absurd rfl h0⟩
    | call => exact fun _ => hsent nofun
    | recv => exact fun h0 => absurd rfl h0
  | expired =>
    cases hr
    cases kind with
    | send => exact ⟨nofun, fun _ => hsent nofun rfl⟩
    | call => exact nofun
    | recv => exact fun _ => h.late t hph

theorem OutcomeInv.boot (h : s.Booted) : OutcomeInv .user s := by
  refine ⟨.boot h, fun u => .of_not_doing (fun kind hd => ?_) (QueueInv.boot h), nofun,
    fun t kind n r buf hret => ?_⟩
  · rcases hd with ⟨_, hk⟩ | ⟨b, hb, -⟩
    · cases hk
    · obtain ⟨p, hp⟩ := h.thr u
      rw [hp] at hb
      cases hb
  · rw [h.log] at hret
    cases hret

variable [DecidableEq Tid]

/-- No signal wakes a thread in an IPC operation, a reply wakes a caller only when it answers its
request, and a thread whose timeout fired in an endpoint queue is still in it when it runs. -/
structure OutcomeCalm (s : Sys Pid Oid Tid) (a : Action Pid Oid Tid) : Prop where
  queue : QueueCalm s a
  kill : ∀ t c u b, a = .run t c → c.kills s = some u → (s.thr u).state = .blocked →
    (s.thr u).pc = some b → b.on.kind = none
  reply : ∀ t c u request b kind, a = .run t c → c.answers s t = some (u, request) →
    (s.thr u).state = .blocked → (s.thr u).pc = some b → b.on.kind = some kind →
    kind = .call ∧ (s.thr u).op = request ∧ ∃ r w, .took request u r w ∈ s.log
  timeout : ∀ u b q, a = .resume u → (s.thr u).pc = some b → b.expired (s.thr u) →
    b.on.queue = some q → s.InQueue q u

theorem OutcomeCalm.receiveCalm {a : Action Pid Oid Tid} (h : OutcomeCalm s a) :
    ReceiveCalm s a := by
  refine ⟨h.queue, fun t c u b ha hc hblocked hb hk => ?_⟩
  rcases or_eq_some_iff.mp hc with hans | ⟨-, hkills⟩
  · obtain ⟨⟨v, request⟩, hreply, rfl⟩ := map_eq_some_iff.mp hans
    cases (h.reply t c v request b .recv ha hreply hblocked hb hk).1
  · rw [h.kill t c u b ha hkills hblocked hb] at hk
    cases hk

theorem SendOk.turn (hok : ∀ s a, ok s a → OutcomeCalm s a) (hq : QueueInv s Q)
    (hr : ∀ t, ph.thread = some t → Running s Q t) (h : IpcInv ph s) (hu : SendOk ph s u)
    (hq' : QueueInv s' Q') (hr' : ∀ t, ph'.thread = some t → Running s' Q' t)
    (ht : Turn ok s s' u ph ph') : SendOk ph' s' u := by
  cases ht with
  | still hs hph _ hin hlog =>
    obtain ⟨l, hlog, -, hl⟩ := hlog
    refine hu.still hs (fun hi => ?_) ?_ hph hq' hin
    · rw [hlog]
      have hpos := h.ops.pos u (.inr (hi.of_view (hs.view hi)))
      exact filter_append_of_false fun e he => outOf_eq_false (hl hpos e he)
    · rw [hlog]
      exact subset_append_right l s.log
  | kept hident hbuf hlog =>
    refine .of_running hq' (hr' u rfl) fun kind stage hk hne => ?_
    rw [op_of_ident hident, hlog]
    exact hu.running kind stage hk hne
  | begins _ hop hlog =>
    refine .of_running hq' (hr' u rfl) fun kind stage hk hne => ?_
    cases hk
    rw [hop, hlog]
    exact h.ops.filter_nextOp fun _ => outOf_eq_false
  | @resumes b kind stage hready hpc hk hop hpc' hbuf hstage hlog =>
    refine .of_running hq' (hr' u rfl) fun kind' stage' hk' hne => ?_
    cases hk'
    obtain ⟨-, hw⟩ := hu.waiting b kind hpc hk hne
    rw [hop, hlog]
    rcases hstage with ⟨rfl, hx⟩ | ⟨rfl, hx, hc⟩
    · exact (hw hready).resolve_left (by simp [hx])
    · rintro rfl
      obtain ⟨ep, hep⟩ := Wait.eq_sendQueued hk
      exact hu.queued ep ((hok _ _ hc).timeout u b _ rfl hpc hx (by rw [hep]; rfl))
  | @handed t kind ep m hne hin hout hident hbuf hm hlog =>
    refine .of_not_doing (fun kind' hd => ?_) hq'
    obtain ⟨b, hb, hbq, -⟩ := hq.waits _ u (hq.inQueue_iff.mp hin)
    rcases hd with ⟨_, hk⟩ | ⟨b', hb', hk⟩
    · cases hk
      exact absurd rfl hne
    · rw [pc_of_ident hident, hb] at hb'
      cases hb'
      rw [Wait.eq_recv_of_queue hbq] at hk
      cases hk
      rfl
  | hands hkind hne hthr hlog =>
    refine .of_running hq' (hr' u rfl) fun kind' stage hk hne' => ?_
    cases hk
    rw [hthr, hlog]
    exact taken_of_nil (hu.running _ _ rfl hkind)
  | takes hne hident hbuf hm hlog =>
    refine .of_running hq' (hr' u rfl) fun kind stage hk hne => ?_
    cases hk
    exact absurd rfl hne
  | @taken t ep kind hne hin hout hdo hkind hident hcall hsend hlog =>
    have hnil := hu.queued ep hin
    refine ⟨fun ep hi => absurd hi (hout _), fun b kind' hb hk _ => ?_,
      fun kind' stage hk hne' => ?_⟩
    · have htaken := taken_of_nil (u := u) (r := (s.thr t).op) (w := t) hnil
      rw [op_of_ident hident, hlog]
      rw [pc_of_ident hident] at hb
      obtain rfl := hdo.unique (fun v hv => (hr v hv).pc) (.inr ⟨b, hb, hk⟩)
      refine ⟨.inr htaken, fun hready => ?_⟩
      cases kind with
      | send => exact .inr ⟨htaken, (by simp)⟩
      | call =>
        rw [hcall rfl] at hready ⊢
        obtain ⟨-, hw⟩ := hu.waiting b .call hb hk hkind
        exact .inl ((hw hready).resolve_right fun hv => hv.1.ne_nil hnil)
      | recv => exact absurd rfl hkind
    · cases hk
      exact absurd rfl hne'
  | @answered _ _ t c request hc hans hph hblocked hout hident hready hlog =>
    refine ⟨fun ep hi => absurd hi (hout _), fun b kind hb hk hne => ?_, fun kind stage hk => ?_⟩
    · rw [pc_of_ident hident] at hb
      obtain ⟨rfl, rfl, r, w, htook⟩ := (hok _ _ hc).reply _ _ u _ b kind rfl hans hblocked hb hk
      have hlog := hlog.resolve_left fun hnone => by
        rw [(h.msgs u).caller b hb hk hblocked] at hnone
        cases hnone.1
      have htaken := (hu.waiting b .call hb hk hne).1.resolve_left fun hnil => by
        have hout := filter_eq_nil_iff.mp hnil _ htook
        simp [outOf] at hout
      have htaken' : Taken s'.log (s.thr u).op u := htaken.congr (by rw [hlog]; rfl)
      rw [op_of_ident hident]
      refine ⟨.inr htaken', fun _ => .inr ⟨htaken', fun _ => ?_⟩⟩
      rw [hlog]
      exact mem_cons_self
    · rw [hk] at hph
      exact hph.elim
  | killed hc hkills hph hblocked hinOp hthr hlog =>
    obtain ⟨b, hb, hk⟩ := hinOp
    exact absurd ((hok _ _ hc).kill _ _ u b rfl hkills hblocked hb) hk
  | @waits kind stage b hk hpc hblocked hop hstage hlog =>
    refine ⟨fun ep hi => ?_, fun b' kind' hb' hk' hne => ?_, (by simp)⟩
    · obtain ⟨b', hb', hbq, -⟩ := hq'.waits _ u (hq'.inQueue_iff.mp hi)
      rw [hpc] at hb'
      cases hb'
      obtain ⟨-, rfl⟩ := hstage.resolve_left fun hnone => by simp [hbq] at hnone
      rw [hop, hlog]
      refine hu.running kind .fresh rfl ?_
      rintro rfl
      rcases Wait.eq_send_of_queue hbq with hw | hw <;> rw [hw] at hk <;> cases hk
    · rw [hpc] at hb'
      cases hb'
      rw [hk] at hk'
      cases hk'
      rw [hop, hlog]
      have hsent := hu.running kind stage rfl hne
      refine ⟨?_, fun hready => ?_⟩
      · rcases hstage with ⟨-, rfl⟩ | ⟨-, rfl⟩
        · exact .inr hsent
        · exact .inl hsent
      · rw [hblocked] at hready
        cases hready
  | returns hret hop hnot hlog =>
    refine .of_not_doing (fun kind hd => ?_) hq'
    rcases hd with ⟨_, hk⟩ | ⟨b, hb, hk⟩
    · cases hk
    · exact absurd ⟨b, hb, by simp [hk]⟩ hnot

variable [DecidableEq Pid] [DecidableEq Oid] [Fintype Tid]

theorem OutcomeInv.move (hok : ∀ s a, ok s a → OutcomeCalm s a) (hq : QueueInvAt ph s)
    (h : OutcomeInv ph s) (hm : Move ok ph s ph' s') : OutcomeInv ph' s' := by
  have hcalm : ∀ s a, ok s a → QueueCalm s a := fun s a ha => (hok s a ha).queue
  have hrecv := h.recv.move (fun s a ha => (hok s a ha).receiveCalm) hq hm
  obtain ⟨Q, hq, hr⟩ := hq
  obtain ⟨Q', hq', hr', -⟩ := hq.move hcalm hm hr
  have hturn := hm.turn hcalm hq hr h.recv.ipc
  refine ⟨hrecv, fun u => (h.send u).turn hok hq hr h.recv.ipc hq' hr' (hturn u), fun u hph => ?_,
    fun t kind n r buf hret => ?_⟩
  · subst hph
    cases hturn u with
    | still _ hph => exact absurd rfl (hph _ _)
    | kept hident _ hlog =>
      rw [op_of_ident hident, hlog]
      exact h.late u rfl
    | @resumes b kind stage hready hpc hk hop _ _ hstage hlog =>
      obtain ⟨-, hx, hc⟩ := hstage.resolve_left fun hw => by cases hw.1
      obtain ⟨ep, hep⟩ := Wait.eq_recv hk
      rw [hop, hlog]
      exact (h.recv.recv u).queued ep ((hok _ _ hc).timeout u b _ rfl hpc hx (by rw [hep]; rfl))
    | answered _ _ hph' => cases hph'
    | killed _ _ hph' => cases hph'
  · obtain ⟨hsub, hinto, hout, hold | ⟨stage, hph, hret', rfl, rfl⟩⟩ :=
      hm.returned hq hr h.recv.ipc.ops hret
    · exact (h.returned t kind n r buf hold).congr hinto hout hsub
    · exact (h.truthful hph hret').congr hinto hout hsub

end Move

def idleQueues (s : Sys Pid (Fin 1) Tid) : Bool :=
  [QueueKind.send, .recv, .wait, .read, .write].all fun k => (s.links.head (k, 0)).isNone

theorem not_queued_of_idleQueues {s : Sys Pid (Fin 1) Tid} (h : idleQueues s) (u : Tid) :
    ¬ s.Queued u := by
  rintro ⟨⟨k, o⟩, hi⟩
  have hk : s.links.head (k, o) = none := by
    simp only [idleQueues, all_cons, all_nil, Bool.and_true, Bool.and_eq_true,
      isNone_iff_eq_none] at h
    rw [Fin.fin_one_eq_zero o]
    cases k
    exacts [h.1, h.2.1, h.2.2.1, h.2.2.2.1, h.2.2.2.2]
  rw [Sys.InQueue, hk] at hi
  cases hi

def orderlyStep [DecidableEq Tid] (s : Sys Pid (Fin 1) Tid) : Action Pid (Fin 1) Tid → Bool
  | .tick => true
  | .run t c =>
    (!c.blocks || !(s.thr t).pendingWakeup) && (c.kills s).isNone &&
      (c.answers s t).all fun x => idleQueues s && decide ((s.thr x.1).op = x.2) &&
        (s.thr x.1).pc.any (fun b => b.on.kind = some .call) &&
        s.log.any fun e => match e with | .took k u _ _ => decide (k = x.2 ∧ u = x.1) | _ => false
  | .resume u => (s.thr u).pc.all fun b => !b.expired (s.thr u)

theorem outcomeCalm_of_orderlyStep [DecidableEq Tid] (s : Sys Pid (Fin 1) Tid)
    (a : Action Pid (Fin 1) Tid) (h : orderlyStep s a) : OutcomeCalm s a := by
  cases a with
  | tick =>
    refine ⟨trivial, ?_, ?_, ?_⟩
    · rintro _ _ _ _ ⟨⟩
    · rintro _ _ _ _ _ _ ⟨⟩
    · rintro _ _ _ ⟨⟩
  | resume u =>
    refine ⟨trivial, ?_, ?_, ?_⟩
    · rintro _ _ _ _ ⟨⟩
    · rintro _ _ _ _ _ _ ⟨⟩
    · rintro u b q ⟨⟩ hb hx
      simp [orderlyStep, hb, hx] at h
  | run t c =>
    simp only [orderlyStep, Bool.and_eq_true, Bool.or_eq_true, Bool.not_eq_true',
      isNone_iff_eq_none] at h
    obtain ⟨⟨hblocks, hkills⟩, hans⟩ := h
    have hreply : ∀ x, c.answers s t = some x → (s.thr x.1).op = x.2 ∧ ¬ s.Queued x.1 ∧
        (∀ b, (s.thr x.1).pc = some b → b.on.kind = some .call) ∧
        ∃ r w, .took x.2 x.1 r w ∈ s.log := by
      intro x hx
      simp only [hx, Option.all_some, Bool.and_eq_true, decide_eq_true_eq, List.any_eq_true] at hans
      obtain ⟨⟨⟨hidle, hop⟩, hcall⟩, e, he, htook⟩ := hans
      refine ⟨hop, not_queued_of_idleQueues hidle _, fun b hb => by simpa [hb] using hcall, ?_⟩
      cases e with
      | took k u r w =>
        obtain ⟨rfl, rfl⟩ := of_decide_eq_true htook
        exact ⟨r, w, he⟩
      | _ => cases htook
    refine ⟨⟨fun u hu _ => ?_, fun hc => ?_⟩, ?_, ?_, ?_⟩
    · rw [Cmd.rouses, hkills, or_none] at hu
      obtain ⟨x, hx, rfl⟩ := map_eq_some_iff.mp hu
      exact (hreply x hx).2.1
    · exact hblocks.resolve_left (by simp [hc])
    · rintro t' c' u b ⟨⟩ hk
      rw [hkills] at hk
      cases hk
    · rintro t' c' u request b kind ⟨⟩ hx - hb hk
      obtain ⟨hop, -, hcall, htook⟩ := hreply _ hx
      rw [hcall b hb] at hk
      cases hk
      exact ⟨rfl, hop, htook⟩
    · rintro _ _ _ ⟨⟩

/-- The second thread calls the first, which waits for a request, returns and replies. -/
def callerRun : List (Action (Fin 1) (Fin 1) (Fin 2)) :=
  receiverRun ++ [.run 1 (.call 0 blankMessage blankMessage 0), .resume 0,
    .run 0 (.reply blankMessage), .resume 1]

end Xnix
