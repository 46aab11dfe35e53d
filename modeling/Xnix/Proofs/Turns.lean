import Xnix.Proofs.Messages

/-!
# What a move means for one thread

Every move is one of a few turns in the operation of a given thread: nothing happens to it, or it
begins, is resumed, passes a message as sender or receiver, is answered or signalled, blocks or
returns. The log of a turn concerns no operation but those that take part.
-/

namespace Xnix

open List Event Phase

variable {Pid Oid Tid : Type} {s : Sys Pid Oid Tid} {e : Event Pid Tid} {c : Cmd Pid Oid Tid}
  {p : Event Pid Tid → Bool}

def Event.into (n : ℕ) : Event Pid Tid → Bool
  | .took _ _ r _ => r == n
  | _ => false

def Event.outOf (n : ℕ) : Event Pid Tid → Bool
  | .took k _ _ _ => k == n
  | _ => false

theorem Event.into_eq_false {n : ℕ} (h : ¬ e.Concerns n) : e.into n = false := by
  cases e with
  | took k t r u => simpa [into] using fun hr => h (.inr hr)
  | _ => rfl

theorem Event.outOf_eq_false {n : ℕ} (h : ¬ e.Concerns n) : e.outOf n = false := by
  cases e with
  | took k t r u => simpa [outOf] using fun hk => h (.inl hk)
  | _ => rfl

theorem filter_append_of_false {log l : List (Event Pid Tid)}
    (h : ∀ e ∈ l, p e = false) : (l ++ log).filter p = log.filter p := by
  rw [filter_append, filter_eq_nil_iff.mpr fun e he => by simp [h e he], nil_append]

theorem OpInv.filter_nextOp {ph : Phase Tid} (h : OpInv ph s)
    (hp : ∀ e, ¬ e.Concerns s.nextOp → p e = false) : s.log.filter p = [] :=
  filter_eq_nil_iff.mpr fun e he => by simp [hp e fun hn => lt_irrefl _ (h.below e he _ hn)]

theorem Cmd.rouses_of_answers [DecidableEq Tid] {t u : Tid} {request : ℕ}
    (h : c.answers s t = some (u, request)) : c.rouses s t = some u := by
  simp [Cmd.rouses, h]

theorem Cmd.rouses_of_kills [DecidableEq Tid] {u : Tid} (t : Tid)
    (h : c.kills s = some u) : c.rouses s t = some u := by
  cases c with
  | kill p sig => simp [Cmd.rouses, Cmd.answers, h]
  | _ => cases h

theorem Phase.user_ne (u : Tid) (kind : OpKind) (stage : Stage) : user ≠ .ipc u kind stage := nofun

theorem Phase.ipc_ne {t u : Tid} {kind : OpKind} {stage : Stage} (h : u ≠ t) (kind' : OpKind)
    (stage' : Stage) : ipc t kind stage ≠ .ipc u kind' stage' := by
  rintro ⟨⟩
  exact h rfl

section Turn
variable [DecidableEq Tid]

inductive Turn (ok : Sys Pid Oid Tid → Action Pid Oid Tid →
    Prop) (s s' : Sys Pid Oid Tid) (u : Tid) : Phase Tid → Phase Tid → Prop
  | still {ph ph'} (hs : Still (s.thr u) (s'.thr u)) (hph : ∀ kind stage, ph' ≠ .ipc u kind stage)
      (hdo : ∀ kind, Doing ph s u kind → Doing ph' s' u kind)
      (hin : ∀ q, (q.1 = .send ∨ q.1 = .recv) → s'.InQueue q u → s.InQueue q u)
      (hlog : ∃ l, s'.log = l ++ s.log ∧ (∀ n r w, .took n u r w ∉ l) ∧
        ((s.thr u).op ≠ 0 → ∀ e ∈ l, ¬ e.Concerns (s.thr u).op)) : Turn ok s s' u ph ph'
  | kept {kind stage} (hident : (s'.thr u).ident = (s.thr u).ident)
      (hbuf : (s'.thr u).buf = (s.thr u).buf) (hlog : s'.log = s.log) :
      Turn ok s s' u (.ipc u kind stage) (.ipc u kind stage)
  | begins {kind} (hpc : (s.thr u).pc = none) (hop : (s'.thr u).op =
      s.nextOp) (hlog : s'.log = s.log) : Turn ok s s' u .user (.ipc u kind .fresh)
  | resumes {b kind stage} (hready : (s.thr u).state = .ready) (hpc : (s.thr u).pc = some b)
      (hk : b.on.kind = some kind) (hop : (s'.thr u).op = (s.thr u).op)
      (hpc' : (s'.thr u).pc = none) (hbuf : (s'.thr u).buf = (s.thr u).buf)
      (hstage : stage = .woken ∧ b.expired (s.thr u) = false ∨
        stage = .expired ∧ b.expired (s.thr u) ∧ ok s (.resume u))
      (hlog : s'.log = s.log) : Turn ok s s' u .user (.ipc u kind stage)
  | handed {t kind ep m} (hne : u ≠ t) (hin : s.InQueue (.recv, ep) u)
    (hout : ∀ q, ¬ s'.InQueue q u)
      (hident : (s'.thr u).ident = (s.thr u).ident) (hbuf : (s'.thr u).buf = some m)
      (hm : m.senderTid = some t) (hlog : s'.log = .took (s.thr t).op t (s.thr u).op u :: s.log) :
      Turn ok s s' u (.ipc t kind .fresh) (.ipc t kind .passed)
  | hands {kind r} (hkind : kind ≠ .recv) (hne : r ≠ u) (hthr : s'.thr u = s.thr u)
      (hlog : s'.log = .took (s.thr u).op u (s.thr r).op r :: s.log) :
      Turn ok s s' u (.ipc u kind .fresh) (.ipc u kind .passed)
  | takes {v m} (hne : v ≠ u) (hident : (s'.thr u).ident =
    (s.thr u).ident) (hbuf : (s'.thr u).buf = some m)
      (hm : m.senderTid = some v) (hlog : s'.log = .took (s.thr v).op v (s.thr u).op u :: s.log) :
      Turn ok s s' u (.ipc u .recv .fresh) (.ipc u .recv .passed)
  | taken {t ep kind} (hne : u ≠ t) (hin : s.InQueue (.send, ep) u) (hout : ∀ q, ¬ s'.InQueue q u)
      (hdo : Doing (.ipc t .recv .fresh) s u kind) (hkind : kind ≠ .recv)
      (hident : (s'.thr u).ident = (s.thr u).ident)
      (hcall : kind = .call → s'.thr u = s.thr u) (hsend : kind = .send → (s'.thr u).state = .ready)
      (hlog : s'.log = .took (s.thr u).op u (s.thr t).op t :: s.log) :
      Turn ok s s' u (.ipc t .recv .fresh) (.ipc t .recv .passed)
  | answered {ph ph' t c request} (hok : ok s (.run t c)) (hans : c.answers s t = some (u, request))
      (hph : ph'.Idle) (hblocked : (s.thr u).state = .blocked) (hout : ∀ q, ¬ s'.InQueue q u)
      (hident : (s'.thr u).ident = (s.thr u).ident) (hready : (s'.thr u).state = .ready)
      (hlog : (s.thr u).ipcReplyMsg = none ∧ s'.log = s.log ∨
        s'.log = .replied (s.thr u).op request :: s.log) : Turn ok s s' u ph ph'
  | killed {ph ph' t c} (hok : ok s (.run t c)) (hkills : c.kills s = some u) (hph : ph'.Idle)
      (hblocked : (s.thr u).state = .blocked) (hinOp : (s.thr u).InOp)
      (hthr : s'.thr u = { s.thr u with pendingWakeup := true, state := .ready })
      (hlog : s'.log = s.log) : Turn ok s s' u ph ph'
  | waits {kind stage b} (hk : b.on.kind = some kind) (hpc : (s'.thr u).pc = some b)
      (hblocked : (s'.thr u).state = .blocked) (hop : (s'.thr u).op = (s.thr u).op)
      (hstage : b.on.queue = none ∧ stage = .passed ∨ b.on.queue ≠ none ∧ stage = .fresh)
      (hlog : s'.log = s.log) : Turn ok s s' u (.ipc u kind stage) .user
  | returns {kind stage r} (hr : stage.Returns kind r) (hop : (s'.thr u).op = (s.thr u).op)
      (hnot : ¬ (s'.thr u).InOp)
      (hlog : s'.log = .ret u (some (kind, (s.thr u).op)) r (s.thr u).buf :: s.log) :
      Turn ok s s' u (.ipc u kind stage) .user

variable {ok : Sys Pid Oid Tid → Action Pid Oid Tid → Prop} {s s' : Sys Pid Oid Tid}
  {Q : Queue Oid → List Tid} {ph ph' : Phase Tid}

namespace Around

variable {Q' : Queue Oid → List Tid} {u t r : Tid} {b : Blocking Oid} {kind : OpKind}
  {stage : Stage} {ep : Oid} {m : IpcMessage Pid Tid}

section
variable (ha : Around ph s Q ph' s' Q') (hph : ∀ kind stage, ph ≠ .ipc u kind stage)
  (hph' : ∀ kind stage, ph' ≠ .ipc u kind stage)
include ha hph hph'

theorem turn_still (hs : Still (s.thr u) (s'.thr u))
    (hlog : ∃ l, s'.log = l ++ s.log ∧ (∀ n r w, .took n u r w ∉ l) ∧
      ((s.thr u).op ≠ 0 → ∀ e ∈ l, ¬ e.Concerns (s.thr u).op)) : Turn ok s s' u ph ph' := by
  refine .still hs hph' (fun kind hd => ?_) (fun _ => ha.inQueue_of_still hs) hlog
  rcases hd with ⟨stage, hk⟩ | ⟨b, hb, hk⟩
  · exact absurd hk (hph kind stage)
  · obtain ⟨b', hb', hk'⟩ := hs.keeps ⟨b, hb, by simp [hk]⟩
    have hb'' := hs.pc hb' hk'
    rw [hb] at hb''
    cases hb''
    exact .inr ⟨b, hb', hk⟩

theorem turn_other (hthr : s'.thr u = s.thr u) (hlog : s'.log = s.log) : Turn ok s s' u ph ph' :=
  ha.turn_still hph hph' (.of_eq hthr) ⟨[], hlog, nofun, nofun⟩

/-- Something is logged that concerns operations of other threads only. -/
theorem turn_beside (hs : Still (s.thr u) (s'.thr u)) (hlog : s'.log = e :: s.log)
    (htook : ∀ n r w, e ≠ .took n u r w) (he : (s.thr u).op ≠ 0 → ¬ e.Concerns (s.thr u).op) :
    Turn ok s s' u ph ph' := by
  refine ha.turn_still hph hph' hs ⟨[e], hlog, fun n r w hm => ?_, fun hpos e' hm => ?_⟩
  · exact htook n r w (mem_singleton.mp hm).symm
  · rw [mem_singleton.mp hm]
    exact he hpos

theorem turn_took (h : OpInv ph s) {a c : Tid} (hthr : s'.thr u = s.thr u) (hua : u ≠ a)
    (huc : u ≠ c)
    (hlog : s'.log = .took (s.thr a).op a (s.thr c).op c :: s.log) : Turn ok s s' u ph ph' := by
  refine ha.turn_beside hph hph' (.of_eq hthr) hlog (fun n r w he => ?_) fun hpos hc => ?_
  · cases he
    exact hua rfl
  · rcases hc with heq | heq
    · exact hua (h.inj _ _ heq.symm hpos)
    · exact huc (h.inj _ _ heq.symm hpos)

end

theorem turn_resumed (ha : Around .user s Q (.ipc t kind stage) s' Q')
    (hready : (s.thr t).state = .ready) (hpc : (s.thr t).pc = some b) (hk : b.on.kind = some kind)
    (hstage : stage = .woken ∧ b.expired (s.thr t) = false ∨
      stage = .expired ∧ b.expired (s.thr t) ∧ ok s (.resume t))
    (hthr : s'.thr = (s.modify t b.on.resumed).thr) (hlog : s'.log = s.log) :
    Turn ok s s' u .user (.ipc t kind stage) := by
  by_cases hu : u = t
  · subst hu
    have hself : s'.thr u = b.on.resumed (s.thr u) := by rw [hthr, modify_thr_self]
    refine .resumes hready hpc hk ?_ ?_ ?_ hstage hlog
    · rw [hself, (b.on.resumed_op _).1]
    · rw [hself, (b.on.resumed_op _).2]
    · rw [hself, (b.on.resumed_msgs _).2]
  · exact ha.turn_other (user_ne u) (ipc_ne hu) (by rw [hthr, modify_thr_of_ne _ _ hu]) hlog

theorem turn_waits {s1 : Sys Pid Oid Tid}
    (ha : Around (.ipc t kind stage) s Q .user (s1.sleepAt t b) Q') (hk : b.on.kind = some kind)
    (hstage : b.on.queue = none ∧ stage = .passed ∨ b.on.queue ≠ none ∧ stage = .fresh)
    (hop : (s1.thr t).op = (s.thr t).op) (hne : ∀ v, v ≠ t → s1.thr v = s.thr v)
    (hlog : s1.log = s.log) :
    Turn ok s (s1.sleepAt t b) u (.ipc t kind stage) .user := by
  by_cases hu : u = t
  · subst hu
    have hself := sleepAt_thr_self s1 u b
    exact .waits hk (by rw [hself]) (by rw [hself]) (by rw [hself]; exact hop) hstage hlog
  · exact ha.turn_other (ipc_ne hu) (user_ne u) (by rw [sleepAt_thr_of_ne _ _ hu, hne u hu]) hlog

variable [DecidableEq Pid] [DecidableEq Oid]

theorem turn_answers {v : Tid} {request : ℕ} (ha : Around ph s Q ph' s' Q') (h : OpInv ph s)
    (hi : ph.Idle) (hi' : ph'.Idle) (hc : ok s (.run t c))
    (hans : c.answers s t = some (v, request))
    (hv : v ∈ s.blocked) (hfree : ¬ s.Queued v) (h' : s.answer t v m request = some s') :
    Turn ok s s' u ph ph' := by
  have hph : ∀ {ph : Phase Tid}, ph.Idle → ∀ kind stage, ph ≠ .ipc u kind stage := by
    rintro _ hi kind stage rfl
    exact hi
  by_cases hu : u = v
  · subst hu
    have hblocked := (ha.before.onList u).mp hv
    obtain ⟨buf, hself, -⟩ := answer_thr_self hv h'
    exact .answered hc hans hi' hblocked (fun q hiq => hfree ⟨q,
      ha.inQueue_of_blocked hblocked hiq⟩) (answer_ident h' u) (by rw [hself]) (answer_log h').2
  · rcases (answer_log h').2 with ⟨-, hlog⟩ | hlog
    · exact ha.turn_other (hph hi) (hph hi') (answer_thr_of_ne h' hu) hlog
    · exact ha.turn_beside (hph hi) (hph hi') (.of_eq (answer_thr_of_ne h' hu)) hlog nofun
        fun hpos heq => hu (h.inj _ _ heq.symm hpos)

theorem turn_handsOver (ha : Around (.ipc t kind .fresh) s Q (.ipc t kind .passed) s' Q')
    (h : OpInv (.ipc t kind .fresh) s) (hkind : kind ≠ .recv)
    (hh : s.links.head (.recv, ep) = some r)
    (h' : s.handOver t r ep m = some s') :
    Turn ok s s' u (.ipc t kind .fresh) (.ipc t kind .passed) := by
  obtain ⟨Q'', hq'', hfree, -, hmem⟩ := ha.before.handOver hh h'
  have hne : t ≠ r := fun heq => (ha.runs t rfl).free _ (heq ▸ hmem)
  have hlog := (handOver_log h').2
  by_cases hu : u = r
  · subst hu
    obtain ⟨room, got, -, hself⟩ := handOver_thr_self h'
    exact .handed hne.symm (ha.before.inQueue_iff.mpr hmem)
      (fun q hiq => hfree q (hq''.inQueue_iff.mp hiq)) (handOver_ident h' u)
      (by rw [hself]) rfl hlog
  · by_cases hut : u = t
    · subst hut
      exact .hands hkind hne.symm (handOver_thr_of_ne h' hu) hlog
    · exact ha.turn_took (ipc_ne hut) (ipc_ne hut) h (handOver_thr_of_ne h' hu) hut hu hlog

theorem takeFrom_took {v : Tid} (h : (s.thr v).ipcReqMsg = some (s.thr v).op)
    (hne : t ≠ v) (h' : s.takeFrom t v ep = some s') :
    s'.log = .took (s.thr v).op v (s.thr t).op t :: s.log ∧ ∃ m, (s'.thr t).buf = some m ∧
    m.senderTid = some v := by
  refine ⟨(takeFrom_log h').2.resolve_left fun hnone => ?_, ?_⟩
  · rw [h] at hnone
    cases hnone.1
  · obtain ⟨buf, hself, ⟨hnone, -⟩ | ⟨m, room, got, -, -, rfl⟩⟩ := takeFrom_thr_self hne h'
    · rw [h] at hnone
      cases hnone
    · exact ⟨_, by rw [hself], rfl⟩

theorem turn_takesFrom (ha : Around (.ipc t .recv .fresh) s Q (.ipc t .recv .passed) s' Q')
    (h : IpcInv (.ipc t .recv .fresh) s) (hh : s.links.head (.send, ep) = some r)
    (h' : s.takeFrom t r ep = some s') :
    Turn ok s s' u (.ipc t .recv .fresh) (.ipc t .recv .passed) := by
  obtain ⟨Q'', hq'', hfree, -, hmem⟩ := ha.before.takeFrom hh h'
  have hne : t ≠ r := fun heq => (ha.runs t rfl).free _ (heq ▸ hmem)
  have hr := ha.before.inQueue_iff.mpr hmem
  obtain ⟨hlog, m, hbuf, hm⟩ := takeFrom_took ((h.msgs r).sender ep hr) hne h'
  by_cases hu : u = r
  · subst hu
    obtain ⟨b, hb, hbq, -⟩ := ha.before.waits _ u hmem
    have hself := takeFrom_thr_sender hne h'
    have htarget : (s.thr u).reqTarget = (s.thr u).req := if_pos ((h.msgs u).sender ep hr)
    rw [htarget] at hself
    have hout : ∀ q, ¬ s'.InQueue q u := fun q hiq => hfree q (hq''.inQueue_iff.mp hiq)
    have hdo : ∀ kind, b.on.kind = some kind → Doing (.ipc t .recv .fresh) s u kind :=
      fun kind hk => .inr ⟨b, hb, hk⟩
    rcases Wait.eq_send_of_queue hbq with hw | hw
    · have hd := hdo .send (by rw [hw]; rfl)
      obtain ⟨m, hreq, hone⟩ := ((h.msgs u).opens .send hd).oneWay_of_send
      refine .taken hne.symm hr hout hd nofun (takeFrom_ident h' u) nofun (fun _ => ?_) hlog
      rw [hself, hreq, Option.any_some, if_pos hone]
    · have hd := hdo .call (by rw [hw]; rfl)
      obtain ⟨m, hreq, hone⟩ := ((h.msgs u).opens .call hd).not_oneWay_of_call
      refine .taken hne.symm hr hout hd nofun (takeFrom_ident h' u) (fun _ => ?_) nofun hlog
      rw [hself, hreq, Option.any_some, hone]
      rfl
  · by_cases hut : u = t
    · subst hut
      exact .takes (Ne.symm hu) (takeFrom_ident h' u) hbuf hm hlog
    · exact ha.turn_took (ipc_ne hut) (ipc_ne hut) h.ops (takeFrom_thr_of_ne h' hu hut) hu hut hlog

end Around

variable [DecidableEq Pid] [DecidableEq Oid] [Fintype Tid]

theorem Move.turn (hok : ∀ s a, ok s a → QueueCalm s a) (hq : QueueInv s Q)
    (hr : ∀ t, ph.thread = some t → Running s Q t) (h : IpcInv ph s) (hm : Move ok ph s ph' s')
    (u : Tid) : Turn ok s s' u ph ph' := by
  obtain ⟨Q', ha⟩ := hm.around hok hq hr
  by_cases hi : ph.Idle ∧ ph'.Idle
  · have hph : ∀ kind stage, ph ≠ .ipc u kind stage := by
      rintro kind stage rfl
      exact hi.1
    have hph' : ∀ kind stage, ph' ≠ .ipc u kind stage := by
      rintro kind stage rfl
      exact hi.2
    rcases hm.quiet hq hr hi.1 hi.2 with hquiet | ⟨t, c, v, request, m, hc, hans, hv, h'⟩ |
      ⟨t, c, v, hc, hkills, hblocked, hinOp, hne, hself, -, hlog⟩
    · obtain ⟨l, hlog, hl⟩ := hquiet.log
      exact ha.turn_still hph hph' (hquiet.still u)
        ⟨l, hlog, fun n r w he => hl _ he n (.inl rfl), fun _ e he => hl e he _⟩
    · have hfree := (hok _ _ hc).1 v (Cmd.rouses_of_answers hans) ((hq.onList v).mp hv)
      exact ha.turn_answers h.ops hi.1 hi.2 hc hans hv hfree h'
    · by_cases hu : u = v
      · subst hu
        exact .killed hc hkills hi.2 hblocked hinOp hself hlog
      · exact ha.turn_other hph hph' (hne u hu) hlog
  · cases hm with
    | @begin _ t kind req buf hready hpc hopens =>
      by_cases hu : u = t
      · subst hu
        have hself := begin_thr_self s u req buf
        exact .begins hpc (by rw [hself]) rfl
      · exact ha.turn_other (user_ne u) (ipc_ne hu) (begin_thr_of_ne s hu ..) rfl
    | @woken _ t b hready hpc hexp =>
      rcases hk : b.on.kind with _ | kind
      · rw [Wait.phase, hk] at hi
        exact absurd ⟨trivial, trivial⟩ hi
      · rw [Wait.phase, hk] at ha ⊢
        exact ha.turn_resumed hready hpc hk (.inl ⟨rfl, hexp⟩) rfl rfl
    | expired hgo hready hpc hexp hk _ =>
      exact ha.turn_resumed hready hpc hk (.inr ⟨rfl, hexp, hgo⟩) rfl rfl
    | withdrawn hgo hready hpc hexp hk _ h' =>
      obtain ⟨L, rfl⟩ := withdraw_eq_some h'
      exact ha.turn_resumed hready hpc hk (.inr ⟨rfl, hexp, hgo⟩) rfl rfl
    | handles k hph =>
      by_cases hu : ∃ kind stage, ph = .ipc u kind stage
      · obtain ⟨kind, stage, rfl⟩ := hu
        exact .kept rfl rfl rfl
      · have hne : ∀ kind stage, ph ≠ .ipc u kind stage := fun kind stage hk => hu ⟨kind, stage, hk⟩
        exact ha.turn_other hne hne rfl rfl
    | handOver hkind _ hh h' => exact ha.turn_handsOver h.ops hkind hh h'
    | takeFrom hh h' => exact ha.turn_takesFrom h hh h'
    | @unpublish _ t kind stage =>
      by_cases hu : u = t
      · subst hu
        refine .kept ?_ ?_ rfl
        · exact modify_field Thread.ident s u u fun _ => rfl
        · exact modify_field Thread.buf s u u fun _ => rfl
      · exact ha.turn_other (ipc_ne hu) (ipc_ne hu) (modify_thr_of_ne _ _ hu) rfl
    | @waitSent _ t _ _ =>
      exact ha.turn_waits rfl (.inl ⟨rfl, rfl⟩) (modify_field Thread.op s t t fun _ => rfl)
        (fun v hv => modify_thr_of_ne _ _ hv) rfl
    | @waitSend _ t _ _ ep _ _ hw hwq =>
      exact ha.turn_waits hw (.inr ⟨by simp [hwq], rfl⟩) (modify_field Thread.op (s.enqueue _ t) t t
        fun _ => rfl) (fun v hv => modify_thr_of_ne (s.enqueue (.send, ep) t) _ hv) rfl
    | @waitRecv _ t ep _ =>
      exact ha.turn_waits rfl (.inr ⟨by simp [Wait.queue], rfl⟩)
        (modify_field Thread.op (s.enqueue _ t) t t fun _ => rfl)
        (fun v hv => modify_thr_of_ne (s.enqueue (.recv, ep) t) _ hv) rfl
    | @finishOp _ t kind stage r hret =>
      obtain ⟨hs, -, hlog⟩ := leave_still (hr t rfl) (some (kind, (s.thr t).op)) r
      by_cases hu : u = t
      · subst hu
        refine .returns hret (hs u).op (fun hi' => ?_) hlog
        exact not_inOp_of_pc (hr u rfl).pc (hi'.of_view ((hs u).view hi'))
      · exact ha.turn_beside (ipc_ne hu) (user_ne u) (hs u) hlog (by simp)
          fun hpos heq => hu (h.ops.inj _ _ heq.symm hpos)
    | _ => exact absurd ⟨trivial, trivial⟩ hi

variable (hq : QueueInv s Q) (hr : ∀ t, ph.thread = some t → Running s Q t)
include hq hr

theorem Move.logged (hm : Move ok ph s ph' s') : (∃ l, s'.log = l ++ s.log ∧ ∀ e ∈ l, e.Idle) ∨
    (∃ t c v request, ok s (.run t c) ∧ c.answers s t = some (v, request) ∧
      s'.log = .replied (s.thr v).op request :: s.log) ∨
    (∃ a b, Busy ph s a ∧ Busy ph s b ∧ s'.log = .took (s.thr a).op a (s.thr b).op b :: s.log) ∨
    (∃ t kind stage r, ph = .ipc t kind stage ∧ stage.Returns kind r ∧
      s'.log = .ret t (some (kind, (s.thr t).op)) r (s.thr t).buf :: s.log) := by
  have same : s'.log = s.log → ∃ l, s'.log = l ++ s.log ∧ ∀ e ∈ l, e.Idle :=
    fun h => ⟨[], h, nofun⟩
  by_cases hi : ph.Idle ∧ ph'.Idle
  · rcases hm.quiet hq hr hi.1 hi.2 with hquiet | ⟨t, c, v, request, m, hc, hans, hv, h'⟩ |
      ⟨t, c, v, -, -, -, -, -, -, -, hlog⟩
    · exact .inl hquiet.log
    · rcases (answer_log h').2 with ⟨-, hlog⟩ | hlog
      · exact .inl (same hlog)
      · exact .inr (.inl ⟨t, c, v, request, hc, hans, hlog⟩)
    · exact .inl (same hlog)
  · cases hm with
    | begin | woken | expired | handles | unpublish | waitSent | waitSend | waitRecv =>
      exact .inl (same rfl)
    | withdrawn _ _ _ _ _ _ h' =>
      obtain ⟨L, rfl⟩ := withdraw_eq_some h'
      exact .inl (same rfl)
    | @handOver _ _ t kind r ep m _ _ hh h' =>
      obtain ⟨-, -, -, -, hmem⟩ := hq.handOver hh h'
      exact .inr (.inr (.inl ⟨t, r, .inl ⟨_, _, rfl⟩,
        .inr (inOp_of_inQueue hq (.inr rfl) (hq.inQueue_iff.mpr hmem)), (handOver_log h').2⟩))
    | @takeFrom _ _ t v ep hh h' =>
      obtain ⟨-, -, -, -, hmem⟩ := hq.takeFrom hh h'
      rcases (takeFrom_log h').2 with ⟨-, hlog⟩ | hlog
      · exact .inl (same hlog)
      · exact .inr (.inr (.inl ⟨v, t,
          .inr (inOp_of_inQueue hq (.inl rfl) (hq.inQueue_iff.mpr hmem)), .inl ⟨_, _, rfl⟩, hlog⟩))
    | @finishOp _ t kind stage r hret =>
      exact .inr (.inr (.inr ⟨t, kind, stage, r, rfl, hret,
        (leave_still (hr t rfl) (some (kind, (s.thr t).op)) r).2.2⟩))
    | _ => exact absurd ⟨trivial, trivial⟩ hi

theorem Move.returned (h : OpInv ph s) (hm : Move ok ph s ph' s') {t : Tid} {kind : OpKind} {n : ℕ}
    {r : ℤ} {buf : Option (IpcMessage Pid Tid)} (hret : .ret t (some (kind, n)) r buf ∈ s'.log) :
    s.log ⊆ s'.log ∧ s'.log.filter (into n) = s.log.filter (into n) ∧
      s'.log.filter (outOf n) = s.log.filter (outOf n) ∧
      (.ret t (some (kind, n)) r buf ∈ s.log ∨ ∃ stage, ph = .ipc t kind stage ∧
        stage.Returns kind r ∧ n = (s.thr t).op ∧ buf = (s.thr t).buf) := by
  rcases hm.logged hq hr with ⟨l, hlog, hl⟩ | ⟨_, _, v, request, -, -, hlog⟩ |
    ⟨a, b, ha, hb, hlog⟩ | ⟨v, kind', stage, r', hph, hret', hlog⟩
  · rw [hlog, mem_append] at hret
    rw [hlog]
    have hn := fun e he => hl e he n
    exact ⟨subset_append_right l s.log, filter_append_of_false fun e he => into_eq_false (hn e he),
      filter_append_of_false fun e he => outOf_eq_false (hn e he),
      .inl (hret.resolve_left fun he => hl _ he n rfl)⟩
  · rw [hlog, mem_cons] at hret
    rw [hlog]
    exact ⟨subset_cons_self _ _, rfl, rfl, .inl (hret.resolve_left nofun)⟩
  · rw [hlog, mem_cons] at hret
    have hret := hret.resolve_left nofun
    have hne : ∀ v, Busy ph s v → (s.thr v).op ≠ n := fun v hv hn =>
      h.unreturned v hv _ hret (show n = _ from hn.symm)
    rw [hlog]
    refine ⟨subset_cons_self _ _, filter_cons_of_neg ?_, filter_cons_of_neg ?_, .inl hret⟩
    · simpa [into] using hne b hb
    · simpa [outOf] using hne a ha
  · rw [hlog, mem_cons] at hret
    rw [hlog]
    refine ⟨subset_cons_self _ _, rfl, rfl, hret.symm.imp_right fun heq => ?_⟩
    cases heq
    exact ⟨stage, hph, hret', rfl, rfl⟩

end Turn

end Xnix
