import Xnix.Proofs.Queues

/-!
# Steps as moves

Every step whose action is calm takes the system through a sequence of moves, so an invariant that
every move keeps holds in all states reached by calm steps. While a thread is in the kernel it is in
no queue and no wakeup is pending for it, hence it sleeps wherever it blocks.
-/

namespace Xnix

open Option

variable {Pid Oid Tid : Type} {ok : Sys Pid Oid Tid → Action Pid Oid Tid → Prop}
  {s s' : Sys Pid Oid Tid} {t : Tid} {c : Cmd Pid Oid Tid} {a : Action Pid Oid Tid} {ep o : Oid}

structure Inside (s : Sys Pid Oid Tid) (t : Tid) : Prop where
  queues : ∃ Q, QueueInv s Q ∧ Running s Q t
  calm : (s.thr t).pendingWakeup = false

theorem Inside.congr (h : Inside s t) (hl : s'.links = s.links) (hb : s'.blocked = s.blocked)
    (hthr : s'.thr = s.thr) : Inside s' t := by
  obtain ⟨⟨Q, hq, hr⟩, hcalm⟩ := h
  refine ⟨⟨Q, hq.congr hl hb fun u => ?_, hr.congr ?_⟩, ?_⟩ <;> rw [hthr]
  exact hcalm

theorem HandleCmd.wakes_kind {k : Kernel Pid Oid} {p : Pid} {c : HandleCmd Pid Oid} {q : Queue Oid}
    (h : c.wakes k p = some q) : q.1 = .read ∨ q.1 = .write := by
  cases c with
  | close n =>
    simp only [HandleCmd.wakes, closeWakes] at h
    split at h
    · split at h
      · split_ifs at h
        cases h
        exact .inr rfl
      · split_ifs at h
        cases h
        exact .inl rfl
      · cases h
    · cases h
  | _ => cases h

theorem isOneWay_of_send (m : IpcMessage Pid Tid) :
    ({ m with flags := m.flags ||| ipcFlagNoReply } : IpcMessage Pid Tid).isOneWay = true := by
  have hflag : (m.flags ||| ipcFlagNoReply) &&& ipcFlagNoReply = ipcFlagNoReply := by
    ext i
    simp only [BitVec.getElem_and, BitVec.getElem_or]
    cases m.flags[i] <;> simp
  simp only [IpcMessage.isOneWay, hflag]
  decide

theorem isOneWay_of_call (m : IpcMessage Pid Tid) :
    ({ m with flags := m.flags &&& ~~~ ipcFlagNoReply } : IpcMessage Pid Tid).isOneWay = false := by
  have hflag : (m.flags &&& ~~~ ipcFlagNoReply) &&& ipcFlagNoReply = 0#32 := by
    ext i
    cases ipcFlagNoReply[i] <;> simp
  simp only [IpcMessage.isOneWay, hflag]
  decide

def QueueInvAt (ph : Phase Tid) (s : Sys Pid Oid Tid) : Prop :=
  ∃ Q, QueueInv s Q ∧ ∀ t, ph.thread = some t → Running s Q t

theorem QueueInv.boot (h : s.Booted) : QueueInv s fun _ => [] := by
  have hthr : ∀ t, (s.thr t).sched = (.ready, none, 0) := fun t => by
    obtain ⟨p, hp⟩ := h.thr t
    rw [hp]
    rfl
  simp only [Thread.sched, Prod.mk.injEq] at hthr
  refine ⟨⟨fun q => ?_, (by simp)⟩, (by simp), fun t => ?_, ?_,
    fun t => ⟨fun hb => ?_, fun hd => ?_⟩⟩
  · rw [h.head]
    exact .nil
  · rw [h.blocked, (hthr t).1]
    simp
  · rw [h.blocked]
    exact List.nodup_nil
  · rw [(hthr t).1] at hb
    cases hb
  · exact absurd (hthr t).2.2 hd

variable [DecidableEq Tid] {b : Blocking Oid}

theorem Inside.begin (h : Inside s t) (req buf : Option (IpcMessage Pid Tid)) :
    Inside (s.begin t req buf) t := by
  obtain ⟨⟨Q, hq, hr⟩, hcalm⟩ := h
  have hsched := begin_sched s t req buf
  refine ⟨⟨Q, hq.congr rfl rfl hsched, hr.congr (hsched t)⟩, ?_⟩
  simpa [Sys.begin, Sys.modify] using hcalm

theorem block_eq_some {goOn : Sys Pid Oid Tid → Option (Sys Pid Oid Tid)}
    (hcalm : (s.thr t).pendingWakeup = false) (h : s.block t b goOn = some s') :
    s' = s.sleepAt t b := by
  rw [Sys.block, hcalm] at h
  cases h
  rfl

theorem schedLookupBlocked_eq_some {tid u : Tid} (h : schedLookupBlocked s tid = some u) :
    u = tid ∧ u ∈ s.blocked := by
  unfold schedLookupBlocked at h
  split_ifs at h with hb
  cases h
  exact ⟨rfl, hb⟩

theorem Cmd.blocked_of_answers {request : ℕ}
    (h : c.answers s t = some (u, request)) : u ∈ s.blocked := by
  cases c with
  | reply m =>
    obtain ⟨v, hv, heq⟩ := map_eq_some_iff.mp h
    cases heq
    obtain ⟨w, -, hlook⟩ := bind_eq_some_iff.mp hv
    exact (schedLookupBlocked_eq_some hlook).2
  | replyTo tid m request =>
    obtain ⟨v, hlook, heq⟩ := map_eq_some_iff.mp h
    cases heq
    exact (schedLookupBlocked_eq_some hlook).2
  | _ => cases h

def quietStep (s : Sys Pid Oid Tid) : Action Pid Oid Tid → Bool
  | .run t c => (c.rouses s t).isNone && (!c.blocks || !(s.thr t).pendingWakeup)
  | _ => true

theorem queueCalm_of_quietStep (s : Sys Pid Oid Tid) (a : Action Pid Oid Tid)
    (h : quietStep s a) : QueueCalm s a := by
  cases a with
  | run t c =>
    simp only [quietStep, Bool.and_eq_true, Bool.or_eq_true, Bool.not_eq_true'] at h
    obtain ⟨hr, hb⟩ := h
    refine ⟨fun u hu => ?_, fun hc => ?_⟩
    · rw [hu] at hr
      cases hr
    · rcases hb with hb | hb
      · rw [hc] at hb
        cases hb
      · exact hb
  | tick => trivial
  | resume t => trivial

variable [Fintype Tid]

def aliveStep (s : Sys Pid Oid Tid) (a : Action Pid Oid Tid) : Bool :=
  quietStep s a && decide (∀ u, (s.thr u).state ≠ .exited)

theorem unfreed_of_aliveStep (h : aliveStep s a) :
    quietStep s a ∧ s.Unfreed := by
  obtain ⟨hquiet, halive⟩ := Bool.and_eq_true_iff.mp h
  exact ⟨hquiet, fun u _ => of_decide_eq_true halive u⟩

variable [DecidableEq Oid]

theorem Inside.drain (hin : Inside s t) {q : Queue Oid} (h : s.drain q = some s') :
    Inside s' t := by
  obtain ⟨⟨Q, hq, hr⟩, hcalm⟩ := hin
  obtain ⟨hq', hsub, hthr⟩ := hq.drain h
  exact ⟨⟨_, hq', hr.mono (hthr t hr) hsub⟩, by rw [hthr t hr]; exact hcalm⟩

variable [DecidableEq Pid] {m : IpcMessage Pid Tid} {Q : Queue Oid → List Tid} {kind : OpKind}

theorem putReturn_moves {x : Hold Oid} {r : ℤ} (h : s.putReturn t x none r = some s') :
    Moves ok (.sys t, s) (.user, s') := by
  obtain ⟨s1, h1, rfl⟩ := map_eq_some_iff.mp h
  obtain ⟨k, -, rfl⟩ := onKernel_eq_some h1
  exact .head (.handles k nofun) (.single (.finish r))

theorem putReturn_moves_op {stage : Stage} {x : Hold Oid} {r : ℤ} (hr : stage.Returns kind r)
    (h : s.putReturn t x (some (kind, (s.thr t).op)) r = some s') :
    Moves ok (.ipc t kind stage, s) (.user, s') := by
  obtain ⟨s1, h1, rfl⟩ := map_eq_some_iff.mp h
  obtain ⟨k, -, rfl⟩ := onKernel_eq_some h1
  exact .head (.handles k nofun) (.single (.finishOp hr))

theorem sendReturn_moves {stage : Stage} {r : ℤ} (hr : stage.Returns kind r)
    (h : s.sendReturn t ep kind r = some s') : Moves ok (.ipc t kind stage, s) (.user, s') := by
  unfold Sys.sendReturn at h
  have hop : ((s.modify t Thread.unpublished).thr t).op = (s.thr t).op := by
    rw [modify_thr_self]
    rfl
  rw [← hop] at h
  exact .head .unpublish (putReturn_moves_op hr h)

theorem withHandle_moves {ph : Phase Tid} (hph : ph ≠ .user) {n : ℕ} {type : HandleType}
    {op : Option (OpKind × ℕ)} {err : ℤ}
    {go : Sys Pid Oid Tid → HandleEntry Oid → Option (Sys Pid Oid Tid)}
    (hend : ∀ k, Move ok ph { s with kernel := k } .user ({ s with kernel := k }.leave t op err))
    (hgo : ∀ k e, go { s with kernel := k } e = some s' →
    Moves ok (ph, { s with kernel := k }) (.user, s'))
    (h : s.withHandle t n type op err go = some s') : Moves ok (ph, s) (.user, s') := by
  obtain ⟨⟨k, r⟩, -, h⟩ := bind_eq_some_iff.mp h
  refine .head (.handles k hph) ?_
  rcases r with _ | e
  · cases h
    exact .single (hend k)
  · exact hgo k e h

theorem ipcSendToEp_moves {timeout : ℕ} (hin : Inside s t)
    (hkind : kind = .send ∧ m.isOneWay ∨ kind = .call ∧ m.isOneWay = false)
    (hreq : (s.thr t).req = some m) (h : ipcSendToEp s t ep kind m timeout = some s') :
    Moves ok (.ipc t kind .fresh, s) (.user, s') := by
  have hrecv : kind ≠ .recv := by
    rintro rfl
    rcases hkind with h | h <;> cases h.1
  unfold ipcSendToEp at h
  split at h
  · rename_i r hh
    obtain ⟨s1, h1, h⟩ := bind_eq_some_iff.mp h
    refine .head (.handOver hrecv hreq hh h1) ?_
    rcases hkind with ⟨rfl, hone⟩ | ⟨rfl, hone⟩
    · rw [if_pos hone] at h
      exact putReturn_moves_op ⟨rfl, nofun⟩ h
    · obtain ⟨⟨Q, hq, hrun⟩, hcalm⟩ := hin
      obtain ⟨Q', -, -, -, hmem⟩ := hq.handOver hh h1
      have hne : t ≠ r := fun heq => hrun.free _ (heq ▸ hmem)
      rw [if_neg (by simp [hone])] at h
      have hcalm' : ((s1.publish t).thr t).pendingWakeup = false := by
        rw [Sys.publish, modify_thr_self, handOver_thr_of_ne h1 hne]
        exact hcalm
      rw [block_eq_some hcalm' h]
      exact .single .waitSent
  · obtain ⟨s1, h1, h⟩ := bind_eq_some_iff.mp h
    obtain ⟨k, -, rfl⟩ := onKernel_eq_some h1
    have hcalm' : (((Sys.enqueue { s with kernel := k } (.send, ep) t).publish t).thr
        t).pendingWakeup = false := by
      rw [Sys.publish, modify_thr_self]
      exact hin.calm
    rw [block_eq_some hcalm' h]
    refine .head (.handles k nofun) (.single (.waitSend hrecv ?_ ?_))
    · rcases hkind with ⟨rfl, hone⟩ | ⟨rfl, hone⟩ <;> simp [hone, Wait.kind]
    · split_ifs <;> rfl

theorem ipcReceive_moves {timeout : ℕ} (hin : Inside s t)
    (h : ipcReceive s t ep timeout = some s') : Moves ok (.ipc t .recv .fresh, s) (.user, s') := by
  unfold ipcReceive at h
  split at h
  · rename_i u hh
    obtain ⟨s1, h1, h⟩ := bind_eq_some_iff.mp h
    exact .head (.takeFrom hh h1) (putReturn_moves_op ⟨rfl, nofun⟩ h)
  · obtain ⟨s1, h1, h⟩ := bind_eq_some_iff.mp h
    obtain ⟨k, -, rfl⟩ := onKernel_eq_some h1
    rw [block_eq_some ?_ h]
    · exact .head (.handles k nofun) (.single .waitRecv)
    · rw [modify_thr_self]
      exact hin.calm

theorem eventWait_moves (hin : Inside s t) (h : eventWait s t o = some s') :
    Moves ok (.sys t, s) (.user, s') := by
  unfold eventWait at h
  split_ifs at h
  · exact .head (.contents (Function.update s.bits o 0#32) s.ring) (putReturn_moves h)
  · rw [block_eq_some (s := s.enqueue (.wait, o) t) hin.calm h]
    exact .single (.waitObject rfl rfl)

theorem pipeRead_moves {size limit passes : ℕ} (hin : Inside s t)
    (h : pipeRead t o size limit passes s = some s') : Moves ok (.sys t, s) (.user, s') := by
  cases passes with
  | zero => cases h
  | succ passes =>
    unfold pipeRead at h
    split_ifs at h
    · obtain ⟨s1, h1, h⟩ := bind_eq_some_iff.mp h
      exact .head (.contents s.bits _) (.head (.copied _)
        (.head (.drain (.inr rfl) h1) (putReturn_moves h)))
    · split at h
      · cases h
      · exact putReturn_moves h
      · rw [block_eq_some (s := s.enqueue (.read, o) t) hin.calm h]
        exact .single (.waitObject rfl rfl)

theorem pipeWrite_moves {data : List UInt8} {limit : ℕ} :
    ∀ {passes total : ℕ} {s : Sys Pid Oid Tid}, Inside s t →
      pipeWrite t o data limit passes total s = some s' → Moves ok (.sys t, s) (.user, s')
  | 0, _, _, _, h => by cases h
  | passes + 1, total, s, hin, h => by
    unfold pipeWrite at h
    split at h
    · cases h
    · exact putReturn_moves h
    · simp only at h
      split at h
      · obtain ⟨s1, h1, h⟩ := bind_eq_some_iff.mp h
        have hin1 : Inside s1 t := by
          refine Inside.drain (Inside.congr hin ?_ ?_ ?_) h1
          exacts [rfl, rfl, rfl]
        refine .head (.contents s.bits _) (.head (.drain (.inl rfl) h1) ?_)
        split at h
        · exact putReturn_moves h
        · split at h
          · exact putReturn_moves h
          · exact pipeWrite_moves hin1 h
      · rw [block_eq_some (s := s.enqueue (.write, o) t) hin.calm h]
        exact .single (.waitObject rfl rfl)

theorem runHandle_moves {c : HandleCmd Pid Oid} (hready : (s.thr t).state = .ready)
    (hpc : (s.thr t).pc = none) (h : runHandle s t c = some s') :
    Moves ok (.user, s) (.user, s') := by
  unfold runHandle at h
  split_ifs at h
  · cases h
    exact .refl _
  · obtain ⟨s1, h1, h⟩ := bind_eq_some_iff.mp h
    obtain ⟨x, -, rfl⟩ := map_eq_some_iff.mp h
    have hafter : Moves ok (.sys t, { s1 with kernel := x.1 })
        (.user, (c.after { s1 with kernel := x.1 }).leave t none x.2) := by
      unfold HandleCmd.after
      split
      · exact .head (.newObject _) (.single (.finish _))
      · exact .single (.finish _)
    refine .head (.enter hready hpc) ?_
    unfold HandleCmd.before at h1
    split at h1
    · rename_i q hq
      exact .head (.drain (HandleCmd.wakes_kind hq) h1) (.head (.handles x.1 nofun) hafter)
    · cases h1
      exact .head (.handles x.1 nofun) hafter

/-- An operation that begins has the next number and is inside. -/
theorem Inside.opens_moves {req buf : Option (IpcMessage Pid Tid)} (hin : Inside s t)
    (hopens : Opens kind req buf)
    (h : ((s.begin t req buf).thr t).op = s.nextOp → Inside (s.begin t req buf) t →
      Moves ok (.ipc t kind .fresh, s.begin t req buf) (.user, s')) :
      Moves ok (.user, s) (.user, s') := by
  have hbegin := h (by rw [begin_thr_self]) (hin.begin req buf)
  obtain ⟨⟨Q, -, hrun⟩, -⟩ := hin
  exact .head (.begin hrun.ready hrun.pc hopens) hbegin

theorem ipcSend_moves {n timeout : ℕ} {reply : Option (IpcMessage Pid Tid)} (hin : Inside s t)
    (hopens : Opens kind (some m) reply) (h : ipcSend s t n kind m reply timeout = some s') :
    Moves ok (.user, s) (.user, s') := by
  refine hin.opens_moves hopens fun hop hin => ?_
  have hkind : kind = .send ∧ m.isOneWay ∨ kind = .call ∧ m.isOneWay = false := by
    cases hopens with
    | send hm => exact .inl ⟨rfl, hm⟩
    | call hm => exact .inr ⟨rfl, hm⟩
  unfold ipcSend at h
  simp only [← hop] at h
  split_ifs at h
  · cases h
    exact .single (.finishOp ⟨by decide, by decide⟩)
  · refine withHandle_moves (by simp) (fun k => ?_) (fun k e hgo => ?_) h
    · exact .finishOp ⟨by decide, by decide⟩
    · split_ifs at hgo
      · exact putReturn_moves_op ⟨by decide, by decide⟩ hgo
      · refine ipcSendToEp_moves (hin.congr rfl rfl rfl) hkind ?_ hgo
        simp [Sys.begin, Sys.modify]

theorem ipcRecv_moves {n timeout : ℕ} {buf : IpcMessage Pid Tid} (hin : Inside s t)
    (h : ipcRecv s t n buf timeout = some s') : Moves ok (.user, s) (.user, s') := by
  refine hin.opens_moves
    (.recv (b := { buf with handles := [], senderTid := none, senderPid := none }))
    fun hop hin => ?_
  unfold ipcRecv at h
  simp only [← hop] at h
  split_ifs at h
  · cases h
    exact .single (.finishOp ⟨by decide, by decide⟩)
  · refine withHandle_moves (by simp) (fun k => ?_) (fun k e hgo => ?_) h
    · exact .finishOp ⟨by decide, by decide⟩
    · split_ifs at hgo
      · exact putReturn_moves_op ⟨by decide, by decide⟩ hgo
      · exact ipcReceive_moves (hin.congr rfl rfl rfl) hgo

/-- A reply fails, or answers the thread that it looked up and returns 0; `ipc_reply` clears
`ipc_peer` in between. -/
theorem exec_reply (hc : c.isReply) (s : Sys Pid Oid Tid) (t : Tid) :
    (∃ r, c.exec s t = some (s.leave t none r)) ∨
    ∃ u m request, c.answers s t = some (u, request) ∧ ∃ f : Sys Pid Oid Tid → Sys Pid Oid Tid,
      (f = id ∨ f = fun s => s.modify t fun th => { th with ipcPeer := none }) ∧
      c.exec s t = (s.answer t u m request).map fun s => (f s).leave t none 0 := by
  cases c with
  | reply m =>
    simp only [Cmd.exec, ipcReply]
    split_ifs
    · exact .inl ⟨_, rfl⟩
    · split
      · exact .inl ⟨_, rfl⟩
      · rename_i u hu
        exact .inr ⟨u, m, _, by simp only [Cmd.answers, hu, map_some], _, .inr rfl, rfl⟩
  | replyTo tid m request =>
    simp only [Cmd.exec, ipcReplyTo]
    split_ifs
    · exact .inl ⟨_, rfl⟩
    · split
      · exact .inl ⟨_, rfl⟩
      · rename_i u hu
        exact .inr ⟨u, m, _, by simp only [Cmd.answers, hu, map_some], _, .inl rfl, rfl⟩
  | _ => cases hc

theorem reply_moves (hc : ok s (.run t c)) (hready : (s.thr t).state = .ready)
    (hpc : (s.thr t).pc = none) (hreply : c.isReply) (h : c.exec s t = some s') :
    Moves ok (.user, s) (.user, s') := by
  rcases exec_reply hreply s t with ⟨r, hr⟩ | ⟨u, m, request, hans, f, hf, hexec⟩
  · rw [hr] at h
    cases h
    exact .head (.enter hready hpc) (.single (.finish r))
  · rw [hexec] at h
    obtain ⟨s1, h1, rfl⟩ := map_eq_some_iff.mp h
    refine .head (.answer hc hready hpc hans (Cmd.blocked_of_answers hans) h1) ?_
    rcases hf with rfl | rfl
    · exact .single (.finish 0)
    · exact .head .answered (.single (.finish 0))

theorem exec_moves (hc : ok s (.run t c)) (hq : QueueInv s Q)
    (hready : (s.thr t).state = .ready) (hpc : (s.thr t).pc = none)
    (hcalm : c.blocks → (s.thr t).pendingWakeup = false) (h : c.exec s t = some s') :
    Moves ok (.user, s) (.user, s') := by
  have hin : c.blocks → Inside s t := fun hb => ⟨⟨Q, hq, hq.running hready hpc⟩, hcalm hb⟩
  have failed : ∀ r, some (s.leave t none r) = some s' → Moves ok (.user, s) (.user, s') := by
    intro r hr
    cases hr
    exact .head (.enter hready hpc) (.single (.finish r))
  cases c with
  | send n m timeout => exact ipcSend_moves (hin rfl) (.send (isOneWay_of_send m)) h
  | call n m buf timeout => exact ipcSend_moves (hin rfl) (.call (isOneWay_of_call m)) h
  | recv n buf timeout => exact ipcRecv_moves (hin rfl) h
  | reply m => exact reply_moves hc hready hpc rfl h
  | replyTo tid m request => exact reply_moves hc hready hpc rfl h
  | eventSignal n bits =>
    simp only [Cmd.exec] at h
    split_ifs at h
    · exact failed _ h
    · refine .head (.enter hready hpc) (withHandle_moves nofun (fun k => .finish _) ?_ h)
      intro k e hgo
      obtain ⟨s1, h1, hgo⟩ := bind_eq_some_iff.mp hgo
      exact .head (.signal h1) (putReturn_moves hgo)
  | eventWait n =>
    simp only [Cmd.exec] at h
    refine .head (.enter hready hpc) (withHandle_moves nofun (fun k => .finish _) ?_ h)
    exact fun k e hgo => eventWait_moves ((hin rfl).congr rfl rfl rfl) hgo
  | pipeRead n size limit =>
    simp only [Cmd.exec] at h
    refine .head (.enter hready hpc) (withHandle_moves nofun (fun k => .finish _) ?_ h)
    intro k e hgo
    split_ifs at hgo
    · exact putReturn_moves hgo
    · exact pipeRead_moves ((hin rfl).congr rfl rfl rfl) hgo
  | pipeWrite n data limit =>
    simp only [Cmd.exec] at h
    refine .head (.enter hready hpc) (withHandle_moves nofun (fun k => .finish _) ?_ h)
    intro k e hgo
    split_ifs at hgo
    · exact putReturn_moves hgo
    · exact pipeWrite_moves ((hin rfl).congr rfl rfl rfl) hgo
  | sleep ms =>
    cases h
    exact .head (.enter hready hpc) (.single (.sleep _))
  | kill p sig =>
    simp only [Cmd.exec, processKill] at h
    split_ifs at h with hsig
    · exact failed _ h
    · split at h
      · exact failed _ h
      · rename_i pr hpr
        cases h
        exact .head (.kill hc hready hpc hsig (by simp [hpr])) (.single (.finish 0))
  | handle c => exact runHandle_moves hready hpc h

theorem expire_moves (ha : ok s (.resume t)) (hready : (s.thr t).state = .ready)
    (hpc : (s.thr t).pc = some b) (hexp : b.expired (s.thr t))
    (h : b.on.expire (s.modify t b.on.resumed) t = some s') : Moves ok (.user, s) (.user, s') := by
  obtain ⟨w, timeout⟩ := b
  have queued : ∀ {kind q ep} {f : Sys Pid Oid Tid → Option (Sys Pid Oid Tid)},
      w.kind = some kind → w.queue = some q →
      (∀ s1, f s1 = some s' → Moves ok (.ipc t kind .expired, s1) (.user, s')) →
      (((s.modify t w.resumed).withdraw q t).bind fun s => (s.endpointUnref ep).bind f) = some s' →
      Moves ok (.user, s) (.user, s') := by
    intro kind q ep f hkind hqueue hf h
    obtain ⟨s1, h1, h⟩ := bind_eq_some_iff.mp h
    obtain ⟨s2, h2, h⟩ := bind_eq_some_iff.mp h
    obtain ⟨k, -, rfl⟩ := onKernel_eq_some h2
    exact .head (.withdrawn ha hready hpc hexp hkind hqueue h1) (.head (.handles k nofun) (hf _ h))
  cases w with
  | sendQueued | callQueued => exact queued rfl rfl (fun _ => sendReturn_moves rfl) h
  | recv ep => exact queued rfl rfl (fun _ => putReturn_moves_op rfl) h
  | callSent ep =>
    exact .head (.expired ha hready hpc hexp rfl rfl) (sendReturn_moves rfl h)
  | _ => cases h

theorem wake_moves (hok : ∀ s a, ok s a → QueueCalm s a) (hq : QueueInv s Q)
    (hready : (s.thr t).state = .ready) (hpc : (s.thr t).pc = some b)
    (hexp : b.expired (s.thr t) = false) (h : b.on.wake (s.modify t b.on.resumed) t = some s') :
    Moves ok (.user, s) (.user, s') := by
  have hmove : Move ok .user s (b.on.phase t .woken) (s.modify t b.on.resumed) :=
    .woken hready hpc hexp
  obtain ⟨Q', hq', hr', -⟩ := hq.move hok hmove nofun
  have hrun := hr' t (b.on.phase_thread t .woken)
  refine .head hmove ?_
  obtain ⟨w, timeout⟩ := b
  cases w with
  | sendQueued | callQueued | callSent => exact sendReturn_moves rfl h
  | recv ep => exact putReturn_moves_op rfl h
  | event o => exact .head (.notified 0#32) (putReturn_moves h)
  | pipeRead o size limit =>
    refine pipeRead_moves ⟨⟨Q', hq', hrun⟩, ?_⟩ h
    rw [modify_thr_self]
    rfl
  | pipeWrite o data limit total =>
    refine pipeWrite_moves ⟨⟨Q', hq', hrun⟩, ?_⟩ h
    rw [modify_thr_self]
    rfl
  | sleep =>
    cases h
    exact .single (.finish 0)
  | stop =>
    cases h
    exact .single .back

theorem step_moves (hok : ∀ s a, ok s a → QueueCalm s a) (ha : ok s a)
    (hq : QueueInv s Q) (h : s.step a = some s') : Moves ok (.user, s) (.user, s') := by
  cases a with
  | tick =>
    cases h
    exact .single .tick
  | run t c =>
    simp only [Sys.step] at h
    split_ifs at h with hrun
    · exact exec_moves ha hq hrun.1 hrun.2 (hok _ _ ha).2 h
    · cases h
      exact .refl _
  | resume t =>
    simp only [Sys.step] at h
    split_ifs at h with hready
    · split at h
      · rename_i b hpc
        unfold Sys.goOn at h
        split_ifs at h with hexp
        · exact expire_moves ha hready hpc hexp h
        · exact wake_moves hok hq hready hpc (by simpa using hexp) h
      · cases h
        exact .refl _
    · cases h
      exact .refl _

theorem QueueInvAt.move (hok : ∀ s a, ok s a → QueueCalm s a) {ph ph' : Phase Tid}
    (h : QueueInvAt ph s) (hm : Move ok ph s ph' s') : QueueInvAt ph' s' := by
  obtain ⟨Q, hq, hr⟩ := h
  obtain ⟨Q', hq', hr', -⟩ := hq.move hok hm hr
  exact ⟨Q', hq', hr'⟩

/-- An invariant of the threads that holds at the start and is kept by every move holds in all
states reached by calm steps. -/
theorem reach_invariant (hok : ∀ s a, ok s a → QueueCalm s a)
    {I : Phase Tid → Sys Pid Oid Tid → Prop} (h0 : ∀ s : Sys Pid Oid Tid, s.Booted → I .user s)
    (hI : ∀ ph s ph' s', QueueInvAt ph s → I ph s → Move ok ph s ph' s' → I ph' s')
    (h : Lib.Reach Sys.step Sys.Booted ok s) : QueueInvAt .user s ∧ I .user s := by
  have hmove : ∀ ph (s : Sys Pid Oid Tid) ph' s', QueueInvAt ph s ∧ I ph s → Move ok ph s ph' s' →
      QueueInvAt ph' s' ∧ I ph' s' :=
    fun ph s ph' s' h hm => ⟨h.1.move hok hm, hI ph s ph' s' h.1 h.2 hm⟩
  refine Lib.Reach.invariant (P := fun s => QueueInvAt .user s ∧ I .user s)
    (fun s hs => ⟨⟨_, QueueInv.boot hs, nofun⟩, h0 s hs⟩) (fun s a s' hs ha hstep => ?_) h
  obtain ⟨Q, hq, -⟩ := hs.1
  exact (step_moves hok ha hq hstep).invariant hmove hs

/-- The walks along the queues end, meet no thread twice and no thread that is not inside a blocking
operation. -/
def QueuesWellFormed (s : Sys Pid Oid Tid) : Prop :=
  ∃ Q : Queue Oid → List Tid, (∀ q, Lib.Chain s.links.next (s.links.head q) (Q q)) ∧
    (∀ q, (Q q).Nodup) ∧ (∀ q q' t, t ∈ Q q → t ∈ Q q' → q = q') ∧
    ∀ q t, t ∈ Q q → (s.thr t).pc ≠ none

def twoThreads : Sys (Fin 2) (Fin 1) (Fin 2) := bootSys id fun p => [p]

def readerRun : List (Action (Fin 2) (Fin 1) (Fin 2)) :=
  [.run 0 (.handle (.pipeCreate 0 true)), .run 0 (.pipeRead 0 1 1)]

end Xnix
