import Xnix.Proofs.Outcomes

/-!
# Whom a reply reaches

`ipc_reply` and `ipc_reply_to` look for their target among all blocked threads. A thread whose
message has been taken stays in that operation until it returns, and while it is blocked there the
operation is a call. So a replier that answers only requests its process has received, that are not
over and not answered reaches nobody else.
-/

namespace Xnix

open List Option

variable {Pid Oid Tid : Type} {Q : Queue Oid → List Tid} {c : Cmd Pid Oid Tid}

/-- The messages of one thread that have been taken, and the one it waits to have taken. -/
structure FlightOk (ph : Phase Tid) (s : Sys Pid Oid Tid) (u : Tid) : Prop where
  inFlight : ∀ n r w, .took n u r w ∈ s.log → (∃ e ∈ s.log, e.Returns n) ∨
    (s.thr u).op = n ∧ ∃ kind, kind ≠ .recv ∧ Doing ph s u kind
  asleep : ∀ b, (s.thr u).pc = some b → b.on.kind = some .send → (s.thr u).state = .blocked →
    s.log.filter (Event.outOf (s.thr u).op) = []
  fresh : ∀ kind, ph = .ipc u kind .fresh → kind ≠ .recv →
    s.log.filter (Event.outOf (s.thr u).op) = []

variable {s s' : Sys Pid Oid Tid} {ph ph' : Phase Tid} {u : Tid}

theorem FlightOk.goes_on (h : FlightOk ph s u) {l : List (Event Pid Tid)}
    (hlog : s'.log = l ++ s.log)
    (hl : ∀ n r w, .took n u r w ∉ l) (hop : (s'.thr u).op = (s.thr u).op)
    (hdo : ∀ kind, Doing ph s u kind → Doing ph' s' u kind) {n r : ℕ} {w : Tid}
    (htook : .took n u r w ∈ s'.log) : (∃ e ∈ s'.log, e.Returns n) ∨
      (s'.thr u).op = n ∧ ∃ kind, kind ≠ .recv ∧ Doing ph' s' u kind := by
  rw [hlog, mem_append] at htook
  rcases h.inFlight n r w (htook.resolve_left (hl n r w)) with ⟨e, he, hret⟩ | ⟨hn, kind, hk, hd⟩
  · exact .inl ⟨e, by rw [hlog]; exact mem_append_right l he, hret⟩
  · exact .inr ⟨hop.trans hn, kind, hk, hdo kind hd⟩

theorem FlightOk.is_taken (h : FlightOk ph s u) {r : ℕ} {w : Tid} {kind : OpKind}
    (hk : kind ≠ .recv)
    (hlog : s'.log = .took (s.thr u).op u r w :: s.log) (hop : (s'.thr u).op = (s.thr u).op)
    (hd : Doing ph' s' u kind) {n r' : ℕ} {w' : Tid} (htook : .took n u r' w' ∈ s'.log) :
    (∃ e ∈ s'.log, e.Returns n) ∨ (s'.thr u).op = n ∧ ∃ kind, kind ≠ .recv ∧
    Doing ph' s' u kind := by
  rw [hlog, mem_cons] at htook
  rcases htook with heq | htook
  · cases heq
    exact .inr ⟨hop, kind, hk, hd⟩
  · rcases h.inFlight n r' w' htook with ⟨e, he, hret⟩ | ⟨hn, -⟩
    · exact .inl ⟨e, by rw [hlog]; exact mem_cons_of_mem _ he, hret⟩
    · exact .inr ⟨hop.trans hn, kind, hk, hd⟩

theorem FlightOk.of_running (hr : Running s Q u)
    (hflight : ∀ n r w, .took n u r w ∈ s.log → (∃ e ∈ s.log, e.Returns n) ∨
      (s.thr u).op = n ∧ ∃ kind, kind ≠ .recv ∧ Doing ph s u kind)
    (hfresh : ∀ kind, ph = .ipc u kind .fresh → kind ≠ .recv →
      s.log.filter (Event.outOf (s.thr u).op) = []) : FlightOk ph s u := by
  refine ⟨hflight, fun b hb => ?_, hfresh⟩
  rw [hr.pc] at hb
  cases hb

section Move
variable {ok : Sys Pid Oid Tid → Action Pid Oid Tid → Prop} {t : Tid}

structure FlightInv (ph : Phase Tid) (s : Sys Pid Oid Tid) : Prop where
  ipc : IpcInv ph s
  flight : ∀ u, FlightOk ph s u

theorem FlightInv.boot (h : s.Booted) : FlightInv .user s := by
  refine ⟨.boot h, fun u => ⟨fun n r w htook => ?_, fun b hb => ?_, nofun⟩⟩
  · rw [h.log] at htook
    cases htook
  · obtain ⟨p, hp⟩ := h.thr u
    rw [hp] at hb
    cases hb

/-- A request of `u` that the process of `t` has received, that is not over and not answered. -/
def OpenRequest (s : Sys Pid Oid Tid) (t u : Tid) (n : ℕ) : Prop :=
  (∃ r w, .took n u r w ∈ s.log ∧ (s.thr w).owner = (s.thr t).owner) ∧
    (∀ m, .replied n m ∉ s.log) ∧ ∀ e ∈ s.log, ¬ e.Returns n

theorem FlightOk.calling (h : FlightOk .user s u) {n : ℕ} (hn : OpenRequest s t u n)
    (hblocked : (s.thr u).state = .blocked) :
    (s.thr u).op = n ∧ ∃ b, (s.thr u).pc = some b ∧ b.on.kind = some .call := by
  obtain ⟨⟨r, w, htook, -⟩, -, hopen⟩ := hn
  obtain ⟨rfl, kind, hk, ⟨_, hph⟩ | ⟨b, hb, hkind⟩⟩ :=
    (h.inFlight n r w htook).resolve_left fun ⟨e, he, hret⟩ => hopen e he hret
  · cases hph
  · refine ⟨rfl, b, hb, ?_⟩
    cases kind with
    | send =>
      have hout := filter_eq_nil_iff.mp (h.asleep b hb hkind hblocked) _ htook
      simp [Event.outOf] at hout
    | call => exact hkind
    | recv => exact absurd rfl hk

variable [DecidableEq Tid]

theorem FlightOk.turn (hq : QueueInv s Q) (hr : ∀ t, ph.thread = some t → Running s Q t)
    (h : IpcInv ph s) (hu : FlightOk ph s u) {Q' : Queue Oid → List Tid}
    (hr' : ∀ t, ph'.thread = some t → Running s' Q' t) (ht : Turn ok s s' u ph ph') :
    FlightOk ph' s' u := by
  have hsame : ∀ n r w, (.took n u r w : Event Pid Tid) ∉ [] := (by simp)
  have hblocked : (s.thr u).state = .blocked → ∀ kind stage, ph ≠ .ipc u kind stage := by
    rintro hb kind stage rfl
    rw [(hr u rfl).ready] at hb
    cases hb
  cases ht with
  | still hs hph hdo hin hlog =>
    obtain ⟨l, hlog, hl, hc⟩ := hlog
    refine ⟨fun n r w => hu.goes_on hlog hl hs.op hdo, fun b hb hk hbl => ?_,
      fun kind hk => absurd hk (hph _ _)⟩
    have hk' : b.on.kind ≠ none := by simp [hk]
    have hi : (s'.thr u).InOp := ⟨b, hb, hk'⟩
    have hpos := h.ops.pos u (.inr (hi.of_view (hs.view hi)))
    rw [hs.op, hlog, filter_append_of_false fun e he => Event.outOf_eq_false (hc hpos e he)]
    exact hu.asleep b (hs.pc hb hk') hk (hs.blocked hi hbl)
  | kept hident hbuf hlog =>
    refine .of_running (hr' u rfl) (fun n r w => hu.goes_on hlog hsame (op_of_ident hident) ?_) ?_
    · exact fun kind hd => doing_of_ident hident.symm (fun kind stage hk => ⟨stage, hk⟩) hd
    · intro kind hk hne
      rw [op_of_ident hident, hlog]
      exact hu.fresh kind hk hne
  | begins hpc hop hlog =>
    refine .of_running (hr' u rfl) (fun n r w htook => .inl ?_) fun kind hk hne => ?_
    · rw [hlog] at htook ⊢
      refine (hu.inFlight n r w htook).resolve_right ?_
      rintro ⟨-, kind, -, ⟨_, hk⟩ | ⟨b, hb, -⟩⟩
      · cases hk
      · rw [hpc] at hb
        cases hb
    · rw [hop, hlog]
      exact h.ops.filter_nextOp fun _ => Event.outOf_eq_false
  | @resumes b kind stage hready hpc hk hop hpc' hbuf hstage hlog =>
    refine .of_running (hr' u rfl) (fun n r w => hu.goes_on hlog hsame hop ?_) fun kind' hk' => ?_
    · rintro kind' (⟨_, hk'⟩ | ⟨b', hb', hk'⟩)
      · cases hk'
      · rw [hpc] at hb'
        cases hb'
        rw [hk] at hk'
        cases hk'
        exact .inl ⟨stage, rfl⟩
    · cases hk'
      rcases hstage with hs | hs <;> cases hs.1
  | @handed t kind ep m hne hin hout hident hbuf hm hlog =>
    obtain ⟨b, hb, hbq, -⟩ := hq.waits _ u (hq.inQueue_iff.mp hin)
    refine ⟨fun n r w => hu.goes_on (l := [_]) hlog ?_ (op_of_ident hident) ?_,
      fun b' hb' hk' => ?_, fun kind' hk' => ?_⟩
    · rintro n r w he
      cases mem_singleton.mp he
      exact hne rfl
    · exact fun kind' hd =>
        doing_of_ident hident.symm (fun k st hk => absurd hk (Phase.ipc_ne hne _ _)) hd
    · rw [pc_of_ident hident, hb] at hb'
      cases hb'
      rw [Wait.eq_recv_of_queue hbq] at hk'
      cases hk'
    · exact absurd hk' (Phase.ipc_ne hne _ _)
  | @hands kind r hkind hne hthr hlog =>
    refine .of_running (hr' u rfl) (fun n r w => hu.is_taken hkind hlog (by rw [hthr]) ?_) (by simp)
    exact .inl ⟨_, rfl⟩
  | @takes v m hne hident hbuf hm hlog =>
    refine .of_running (hr' u rfl)
      (fun n r w => hu.goes_on (l := [_]) hlog ?_ (op_of_ident hident) ?_) (by simp)
    · rintro n r w he
      cases mem_singleton.mp he
      exact hne rfl
    · exact fun kind hd => doing_of_ident hident.symm (fun _ _ => Phase.restage) hd
  | @taken t ep kind hne hin hout hdo hkind hident hcall hsend hlog =>
    refine ⟨fun n r w => hu.is_taken hkind hlog (op_of_ident hident) ?_, fun b hb hk hbl => ?_,
      fun kind' hk' => absurd hk' (Phase.ipc_ne hne _ _)⟩
    · exact doing_of_ident hident.symm (fun k st hk => absurd hk (Phase.ipc_ne hne _ _)) hdo
    · rw [pc_of_ident hident] at hb
      obtain rfl := hdo.unique (fun v hv => (hr v hv).pc) (.inr ⟨b, hb, hk⟩)
      rw [hsend rfl] at hbl
      cases hbl
  | @answered _ _ t c request hc hans hph hb hout hident hready hlog =>
    have hdo : ∀ kind, Doing ph s u kind → Doing ph' s' u kind := fun kind hd =>
      doing_of_ident hident.symm (fun k st hk => absurd hk (hblocked hb k st)) hd
    refine ⟨fun n r w => ?_, fun b' hb' hk' hbl => ?_, fun kind hk => ?_⟩
    · rcases hlog with ⟨-, hlog⟩ | hlog
      · exact hu.goes_on hlog hsame (op_of_ident hident) hdo
      · exact hu.goes_on (l := [_]) hlog (by simp) (op_of_ident hident) hdo
    · rw [hready] at hbl
      cases hbl
    · rw [hk] at hph
      exact hph.elim
  | killed hc hkills hph hb hinOp hthr hlog =>
    refine ⟨fun n r w => hu.goes_on hlog hsame (by rw [hthr]) fun kind hd => ?_,
      fun b' hb' hk' hbl => ?_, fun kind hk => ?_⟩
    · rcases hd with ⟨stage, hk⟩ | ⟨b, hpc, hk⟩
      · exact absurd hk (hblocked hb kind stage)
      · exact .inr ⟨b, by rw [hthr]; exact hpc, hk⟩
    · rw [hthr] at hbl
      cases hbl
    · rw [hk] at hph
      exact hph.elim
  | @waits kind stage b hk hpc hbl hop hstage hlog =>
    refine ⟨fun n r w => hu.goes_on hlog hsame hop fun kind' hd => ?_,
      fun b' hb' hk' _ => ?_, (by simp)⟩
    · rcases hd with ⟨_, hk'⟩ | ⟨b', hb', -⟩
      · cases hk'
        exact .inr ⟨b, hpc, hk⟩
      · rw [(hr u rfl).pc] at hb'
        cases hb'
    · rw [hpc] at hb'
      cases hb'
      rw [hk] at hk'
      cases hk'
      obtain ⟨ep, hep⟩ := Wait.eq_sendQueued hk
      obtain ⟨-, rfl⟩ := hstage.resolve_left fun hnone => by simp [hep, Wait.queue] at hnone
      rw [hop, hlog]
      exact hu.fresh .send rfl (by simp)
  | @returns kind stage r hret hop hnot hlog =>
    refine ⟨fun n r' w htook => .inl ?_, fun b hb hk => ?_, (by simp)⟩
    · rw [hlog, mem_cons] at htook
      rw [hlog]
      rcases hu.inFlight n r' w (htook.resolve_left (by simp)) with ⟨e, he, hret⟩ | ⟨rfl, -⟩
      · exact ⟨e, mem_cons_of_mem _ he, hret⟩
      · exact ⟨_, mem_cons_self, rfl⟩
    · exact absurd ⟨b, hb, by simp [hk]⟩ hnot

variable [DecidableEq Pid]

theorem leave_thr_of_ne (hne : u ≠ t) (op : Option (OpKind × ℕ)) (r : ℤ) :
    (s.leave t op r).thr u = s.thr u ∨
      (s.leave t op r).thr u = { s.thr u with state := .exited } := by
  obtain ⟨s1, sig, stopped, hs1, h⟩ := leave_cases s t op r
  have hthr : s1.thr u = s.thr u := by
    rw [hs1]
    simp [Sys.returned, Sys.record, Sys.modify, hne]
  rcases h with h | h | h | h <;> rw [h]
  · exact .inl hthr
  · exact .inl (by rw [modify_thr_of_ne _ _ hne, hthr])
  · exact .inl (by rw [sleepAt_thr_of_ne _ _ hne, hthr])
  · show (if (s1.thr u).owner = (s.thr t).owner then { s1.thr u with state := .exited }
      else s1.thr u) = _ ∨ (if (s1.thr u).owner = (s.thr t).owner then
        { s1.thr u with state := .exited } else s1.thr u) = _
    rw [hthr]
    split_ifs
    · exact .inr rfl
    · exact .inl rfl

variable [DecidableEq Oid] [Fintype Tid]

theorem FlightInv.move (hok : ∀ s a, ok s a → QueueCalm s a) (hq : QueueInvAt ph s)
    (h : FlightInv ph s) (hm : Move ok ph s ph' s') : FlightInv ph' s' := by
  obtain ⟨Q, hq, hr⟩ := hq
  obtain ⟨Q', -, hr', -⟩ := hq.move hok hm hr
  exact ⟨h.ipc.move hok hq hr hm,
    fun u => (h.flight u).turn hq hr h.ipc hr' (hm.turn hok hq hr h.ipc u)⟩

theorem reply_thr_of_ne (hc : c.isReply) (hstep : s.step (.run t c) = some s')
    (hne : u ≠ t) (hu : ∀ request, c.answers s t ≠ some (u, request)) :
    s'.thr u = s.thr u ∨ s'.thr u = { s.thr u with state := .exited } := by
  simp only [Sys.step] at hstep
  split_ifs at hstep with hready
  · rcases exec_reply hc s t with ⟨r, hr⟩ | ⟨v, m, request, hans, f, hf, hexec⟩
    · rw [hr] at hstep
      cases hstep
      exact leave_thr_of_ne hne _ _
    · rw [hexec] at hstep
      obtain ⟨s1, h1, rfl⟩ := map_eq_some_iff.mp hstep
      rw [← answer_thr_of_ne h1 fun heq => hu _ (heq ▸ hans)]
      rcases hf with rfl | rfl
      · exact leave_thr_of_ne hne _ _
      · rw [← modify_thr_of_ne s1 (fun th => { th with ipcPeer := none }) hne]
        exact leave_thr_of_ne hne _ _
  · cases hstep
    exact .inl rfl

/-- A calm step in which a reply goes only to a thread with an open request. -/
def ReplyCalm (s : Sys Pid Oid Tid) (a : Action Pid Oid Tid) : Prop :=
  QueueCalm s a ∧ ∀ t c u request, a = .run t c → c.answers s t = some (u, request) →
    ∃ n, OpenRequest s t u n

end Move

def receivedBy [DecidableEq Pid] [DecidableEq Tid] (s : Sys Pid Oid Tid) (t u : Tid) (n : ℕ) :
    Event Pid Tid → Bool
  | .took k v _ w => decide (k = n ∧ v = u ∧ (s.thr w).owner = (s.thr t).owner)
  | _ => false

def closes (n : ℕ) : Event Pid Tid → Bool
  | .replied k _ => decide (k = n)
  | .ret _ (some (_, k)) _ _ => decide (k = n)
  | _ => false

theorem openRequest_of_log [DecidableEq Pid] [DecidableEq Tid] {t : Tid}
    {n : ℕ} (hrecv : s.log.any (receivedBy s t u n)) (hopen : s.log.all fun e => !closes n e) :
    OpenRequest s t u n := by
  obtain ⟨e, he, hrecv⟩ := any_eq_true.mp hrecv
  have hnot : ∀ e ∈ s.log, closes n e = false := by
    simpa only [List.all_eq_true, Bool.not_eq_true'] using hopen
  refine ⟨?_, fun m hm => ?_, fun e he hret => ?_⟩
  · cases e with
    | took k v r w =>
      obtain ⟨rfl, rfl, howner⟩ := of_decide_eq_true hrecv
      exact ⟨r, w, he, howner⟩
    | _ => cases hrecv
  · have hcl := hnot _ hm
    simp [closes] at hcl
  · have hcl := hnot e he
    cases e with
    | ret t op r buf =>
      cases op with
      | none => exact hret.elim
      | some op =>
        simp only [closes, decide_eq_false_iff_not] at hcl
        exact hcl hret
    | _ => exact hret.elim

theorem replyCalm_of_quietStep [DecidableEq Tid] (s : Sys Pid Oid Tid) (a : Action Pid Oid Tid)
    (h : quietStep s a) : ReplyCalm s a := by
  refine ⟨queueCalm_of_quietStep s a h, ?_⟩
  rintro t c u request rfl hans
  simp only [quietStep, Cmd.rouses_of_answers hans, isNone_some, Bool.false_and] at h
  cases h

/-- The second thread calls the first, which takes the request. -/
def requestRun : List (Action (Fin 1) (Fin 1) (Fin 2)) :=
  receiverRun ++ [.run 1 (.call 0 blankMessage blankMessage 0), .resume 0]

end Xnix
