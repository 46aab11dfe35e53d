import Xnix.HandleMachine
import Xnix.Proofs.Calls

/-!
# Runs of calls and replies

Each step of the machine keeps `CallInv` where it meets `CallCalm`: most steps concern a thread that
is not in a call, a caller on its way to `sched_block_timeout` goes on without being answered, and
the replies and the timer wake a caller that is blocked.
-/

namespace Xnix

open Function Option CallJob CallSys

variable {Pid Oid Tid : Type} {u : Tid} {s : CallSys Pid Oid Tid}

section Steps
variable {s' : CallSys Pid Oid Tid} {t : Tid}

theorem not_calling_of_user {j : CallJob Pid Oid Tid} (hpc : j.pc = .user) : ¬ j.calling := by
  rw [calling, hpc]
  exact id

theorem isReply_copyFrom {m room : IpcMessage Pid Tid} {got : List ℕ}
    (hfit : m.buffer.getD [] = [] ∨
      ∃ bytes, room.buffer = some bytes ∧ (m.buffer.getD []).length ≤ bytes.length)
    (hgot : got.length = m.handles.length) : IsReply m got (some (room.copyFrom m got)) := by
  refine ⟨_, rfl, rfl, ?_, rfl, hgot⟩
  show (copyBuffer m.buffer room.buffer).getD [] = m.buffer.getD []
  unfold copyBuffer
  split
  · rename_i bytes space hm hroom
    simp only [hm, hroom, getD_some, some.injEq, exists_eq_left'] at hfit
    split
    · rw [hm]
    · rename_i hno
      rw [hm]
      rcases hfit with rfl | hle
      · rfl
      · have hzero : bytes.length = 0 := by omega
        rw [List.eq_nil_of_length_eq_zero hzero]
  · rename_i hno
    have hempty : m.buffer.getD [] = [] := by
      rcases hfit with hempty | ⟨space, hroom, -⟩
      · exact hempty
      · cases hm : m.buffer with
        | none => rfl
        | some bytes => exact (hno bytes space hm hroom).elim
    rw [hempty]
    cases room.buffer <;> rfl

variable [DecidableEq Tid] {w : Wait Oid} {m : IpcMessage Pid Tid} {ep : Oid} {k : ℕ}

section
variable (h : CallInv s)
include h

theorem CallInv.start {pc : CallPc Pid Oid Tid} {req buf : Option (IpcMessage Pid Tid)} {n : ℕ}
    (hpc : (s.job t).pc = .user)
    (hnot : ∀ j : CallJob Pid Oid Tid, j.pc = pc → j.req = req → ¬ j.calling)
    (hans : ∀ u k m own, pc ≠ .answer u k m own) : CallInv (s.start t pc req buf n) := by
  have hnone := (h.ok t).points.eq_none (by simp [hpc])
  exact h.modify (not_calling_of_user hpc) (hnot _ rfl rfl) (Nat.le_succ _) (.of_none hnone)
    fun u k m own ha => absurd ha (hans u k m own)

theorem CallInv.startCall {buf : Option (IpcMessage Pid Tid)} {n : ℕ} (hpc : (s.job t).pc = .user)
    (hm : m.isOneWay = false) (hp : (s.sched t).pendingWakeup = false) :
    CallInv ((s.start t (.send ep) (some m) buf n).record (.called t ((s.job t).op + 1))) := by
  have hnot := not_calling_of_user hpc
  have hnone := (h.ok t).points.eq_none (by simp [hpc])
  have hcall : ({ s.job t with
      pc := .send ep, op := (s.job t).op + 1, timeout := n, req := some m, buf :=
      buf, took := none } :
      CallJob Pid Oid Tid).calling := hm
  refine h.own rfl (update_eq_self t s.sched).symm (fun u hu => ?_)
    ((h.ok t).start hnot hp rfl hcall hm hnone fun x => ⟨nofun, nofun⟩) (h.free_of_idle hnot) nofun
    (h.heard.cons nofun)
  refine (h.ok u).cons fun k hk => hu ?_
  exact (Prod.mk.inj (some.inj hk)).1.symm

theorem CallInv.publish (hpc : (s.job t).pc = .publish w) : CallInv (s.publish t w) := by
  have hcall : (s.job t).calling ↔ w.isCall = true := by rw [calling, hpc]
  have hnone := (h.ok t).points.eq_none (by simp [hpc])
  unfold CallSys.publish
  split
  · exact h.modify (by rw [hcall]; rintro ⟨⟩) (fun hc => by cases hc) (Nat.le_refl _)
      (.of_none hnone) (by simp)
  · rename_i hne
    have hpts : ({ s.job t with
        pc := .block w
        ipcReqMsg := some (s.job t).op
        ipcReplyMsg := (s.job t).buf.map fun _ => (s.job t).op } : CallJob Pid Oid Tid).Points := by
      intro k hk
      exact ⟨(some.inj hk).symm, w, hne, .inl rfl⟩
    by_cases hw : w.isCall = true
    · exact h.advance (hcall.mpr hw) (by simp [hpc]) hw (by simp) rfl hpts
        ((h.ok t).kind (hcall.mpr hw)) fun _ _ => rfl
    · exact h.modify (mt hcall.mp hw) hw (Nat.le_refl _) hpts (by simp)

theorem CallInv.block (hpc : (s.job t).pc = .block w) : CallInv (s.block t w) := by
  have hcall : (s.job t).calling ↔ w.isCall = true := by rw [calling, hpc]
  unfold CallSys.block
  by_cases hw : w.isCall = true
  · have hp := (((h.ok t).phase (hcall.mpr hw)).awake (by simp [hpc])).1
    rw [if_neg (by simp [hp]), block_of_not_pending _ hp]
    exact h.own rfl rfl (fun u _ => h.ok u) ((h.ok t).sleep hpc hw)
      (h.free_of_not (by simp [hpc])) (by simp) h.heard
  · have hnot := mt hcall.mp hw
    have h1 : CallInv (s.setSched t (s.sched t).block) := h.setSched hnot
    split
    · exact h1.finish hnot (.inl hpc)
    · refine h1.modify hnot hw (Nat.le_refl _) (fun k hk => ?_) (by simp)
      obtain ⟨hop, x, hne, hx⟩ := (h.ok t).points k hk
      rcases hx with hx | hx <;> rw [hpc] at hx <;> cases hx
      exact ⟨hop, w, hne, .inr rfl⟩

theorem CallInv.finishCall {r : ℤ} {L : Lib.Links (Queue Oid) Tid} (hpc : (s.job t).pc = .asleep w)
    (hw : w.isCall = true) (hr : (s.sched t).run = .woken)
    (hzero : (s.sched t).expired = false → r = 0) :
    CallInv (({ s with links := L }.setSched t (s.sched t).resume).finish t w r) := by
  have heq : ({ s with links := L }.setSched t (s.sched t).resume).finish t w r =
      ({ s with links := L }.setSched t (s.sched t).resume).sendReturn t r := by
    cases w <;> first | rfl | cases hw
  rw [heq]
  refine h.own rfl rfl (fun u hu => ?_)
    ((h.ok t).ret hpc hw hr hzero (fun hc => hc) rfl rfl) (h.free_of_not ?_) nofun
    (h.heard.cons nofun)
  · refine (h.ok u).cons fun k hk => hu ?_
    exact (Prod.mk.inj (some.inj hk)).1.symm
  · intro _ _ _
    rw [hr]
    nofun

theorem CallInv.lookup {own : Bool} (hpc : (s.job t).pc = .lookup u k m own)
    (htarget : (s.sched u).run = .blocked → k = (s.job u).op ∧
      (∃ x, (s.job u).pc = .asleep x ∧ x.isCall = true) ∧ ∀ t', ¬ Answering s t' u)
    (hwindow : (∃ r, .received r u k ∈ s.log) → (s.job u).op = k → (s.job u).calling →
      ∃ x, (s.job u).pc = .asleep x) : CallInv (s.lookup t u k m own) := by
  have hnot : ¬ (s.job t).calling := by
    rw [calling, hpc]
    exact id
  have hnone := (h.ok t).points.eq_none (by simp [hpc])
  unfold CallSys.lookup
  split
  · rename_i hr
    obtain ⟨hk, ⟨x, hx, hc⟩, hnobody⟩ := htarget hr
    have hself : (s.setPc t (.answer u k m own)).job t = { s.job t with pc := .answer u k m own } :=
      modify_self ..
    have hother : ∀ v, v ≠ t → (s.setPc t (.answer u k m own)).job v = s.job v :=
      fun v hv => modify_of_ne _ hv _
    have hback : ∀ t' v, t' ≠ t → Answering (s.setPc t (.answer u k m own)) t' v →
      Answering s t' v := by
      rintro t' v ht' ⟨k', m', own', ha⟩
      rw [hother t' ht'] at ha
      exact ⟨k', m', own', ha⟩
    have hmine : ∀ v, Answering (s.setPc t (.answer u k m own)) t v → v = u := by
      rintro v ⟨k', m', own', ha⟩
      rw [hself] at ha
      cases ha
      rfl
    refine ⟨fun v => ?_, fun t' v k' m' own' ha => ?_, fun t' t'' v ha ha' => ?_, h.heard⟩
    · by_cases hv : v = t
      · subst hv
        rw [hself]
        exact (h.ok v).idle hnot (fun hc => hc) (Nat.le_refl _) (.of_none hnone)
      · rw [hother v hv]
        exact h.ok v
    · have hut : ∀ w, (∃ x, (s.job w).pc = .asleep x ∧ x.isCall = true) → w ≠ t := by
        rintro w ⟨y, hy, -⟩ rfl
        rw [hpc] at hy
        cases hy
      by_cases ht' : t' = t
      · subst ht'
        rw [hself] at ha
        cases ha
        rw [hother u (hut u ⟨x, hx, hc⟩)]
        exact ⟨hk, ⟨x, hx, hc⟩, hr⟩
      · rw [hother t' ht'] at ha
        obtain ⟨hk', hx', hr'⟩ := h.target t' v k' m' own' ha
        rw [hother v (hut v hx')]
        exact ⟨hk', hx', hr'⟩
    · by_cases ht' : t' = t
      · by_cases ht'' : t'' = t
        · rw [ht', ht'']
        · subst ht'
          rw [hmine v ha] at ha'
          exact absurd (hback t'' u ht'' ha') (hnobody t'')
      · by_cases ht'' : t'' = t
        · subst ht''
          rw [hmine v ha'] at ha
          exact absurd (hback t' u ht' ha) (hnobody t')
        · exact h.sole t' t'' v (hback t' v ht' ha) (hback t'' v ht'' ha')
  · rename_i hr
    have h1 : CallInv (s.setPc t .user) :=
      h.modify hnot (fun hc => hc) (Nat.le_refl _) (.of_none hnone) (by simp)
    refine ⟨fun v => (h1.ok v).cons fun _ => (some_ne_none _).symm, h1.target, h1.sole,
      fun hcalled hrecv => ?_, h.heard⟩
    by_cases hcall : k = (s.job u).op ∧ (s.job u).calling
    · obtain ⟨rfl, hcall⟩ := hcall
      obtain ⟨x, hx⟩ := hwindow hrecv rfl hcall
      exact (((h.ok u).phase hcall).woken x hx hr).1
    · exact ((h.ok u).past k (not_and.mp hcall)).called hcalled

theorem CallInv.expire (hpc : (s.job t).pc = .asleep w) (hr : (s.sched t).run = .blocked)
    (hfree : ∀ t', ¬ Answering s t' t) :
    CallInv ((s.setSched t (s.sched t).expire).record (.expired t (s.job t).op)) := by
  by_cases hw : w.isCall = true
  · refine h.own (update_eq_self t s.job).symm rfl (fun u hu => ?_) ?_ hfree
      (fun _ _ _ _ ha => ha) (h.heard.cons (by simp))
    · exact (h.ok u).cons fun k hk => hu (Prod.mk.inj (some.inj hk)).1.symm
    · refine (h.ok t).wake hpc hw hr hpc rfl rfl (fun _ => id) ?_ rfl (by simp)
        (.inl (List.mem_cons_self ..)) (by simp)
      simp [Waiter.expire, hr]
  · have hnot : ¬ (s.job t).calling := by
      rw [calling, hpc]
      exact hw
    refine (h.setSched hnot).record (fun u k hk => ?_) (by simp) (by simp) (by simp)
    obtain ⟨rfl, rfl⟩ := Prod.mk.inj (some.inj hk)
    exact ⟨hnot, Nat.le_refl _⟩

/-- A message is copied to a thread that is in no call. -/
theorem CallInv.deliver (src : Tid) {dst : Tid} (hnot : ¬ (s.job dst).calling)
    (kern : Kernel Pid Oid) (b : IpcMessage Pid Tid) (k : ℕ) (took : Option (Tid × ℕ)) :
    ∃ s₂, ({ s with kernel := kern }.modify dst fun j => { j with buf := some b }).stampSender src
    dst k took =
      s₂ ∧ CallInv s₂ ∧ ¬ (s₂.job dst).calling ∧ (s₂.job dst).ipcReqMsg = (s.job dst).ipcReqMsg ∧
      ∀ v, v ≠ dst → s₂.job v = s.job v := by
  have h₁ : CallInv ({ s with kernel := kern }.modify dst fun j => { j with buf := some b }) :=
    CallInv.touch (h.congr rfl rfl rfl) hnot rfl rfl rfl rfl
  have hself : ¬ (({ s with kernel := kern }.modify dst
    fun j => { j with buf := some b }).job dst).calling := by
    rw [modify_self]
    exact hnot
  refine ⟨_, rfl, h₁.touch hself rfl rfl rfl rfl, ?_, ?_, fun v hv => ?_⟩
  · rw [stampSender, modify_self]
    exact hself
  · rw [stampSender, modify_self, modify_self]
  · exact (modify_of_ne _ hv _).trans (modify_of_ne _ hv _)

end

variable [DecidableEq Oid]

theorem CallInv.sendHead (h : CallInv s) (hpc : (s.job t).pc = .send ep) :
    CallInv (s.sendHead t ep) := by
  have hnone := (h.ok t).points.eq_none (by simp [hpc])
  have hcall : (s.job t).calling ↔ (s.job t).req.any IpcMessage.isOneWay = false := by
    rw [calling, hpc]
  have hL : ∀ L, CallInv { s with links := L } := fun L => h.congr rfl rfl rfl
  unfold CallSys.sendHead
  by_cases hone : (s.job t).req.any IpcMessage.isOneWay = false
  · split
    · exact (hL _).advance (hcall.mpr hone) (by simp [hpc]) hone (by simp) rfl (.of_none hnone)
        hone (by simp)
    · rw [if_neg (by simp [hone])]
      exact (hL _).advance (hcall.mpr hone) (by simp [hpc]) rfl (by simp) rfl (.of_none hnone)
        hone (by simp)
  · have hnot := mt hcall.mp hone
    split
    · exact (hL _).modify hnot hone (Nat.le_refl _) (.of_none hnone) (by simp)
    · rw [if_pos (by simpa using hone)]
      exact (hL _).modify hnot (fun hc => by cases hc) (Nat.le_refl _) (.of_none hnone) (by simp)

theorem CallInv.recvHead (h : CallInv s) (hpc : (s.job t).pc = .receive ep) :
    CallInv (s.recvHead t ep) := by
  have hnone := (h.ok t).points.eq_none (by simp [hpc])
  have hnot : ¬ (s.job t).calling := by
    rw [calling, hpc]
    exact id
  have hL : ∀ L, CallInv { s with links := L } := fun L => h.congr rfl rfl rfl
  unfold CallSys.recvHead
  split
  · exact (hL _).modify hnot (fun hc => hc) (Nat.le_refl _) (.of_none hnone) (by simp)
  · exact (hL _).modify hnot (fun hc => by cases hc) (Nat.le_refl _) (.of_none hnone) (by simp)

theorem CallInv.resume [Fintype Tid] (h : CallInv s) (hpc : (s.job t).pc = .asleep w)
    (hs : s.resume t w = some s') : CallInv s' := by
  unfold CallSys.resume at hs
  split at hs
  swap
  · cases hs
    exact h
  rename_i hr
  have hgo : ∀ L r, ((s.sched t).expired = false → r = 0) →
      CallInv (({ s with links := L }.setSched t (s.sched t).resume).finish t w r) := by
    intro L r hzero
    by_cases hw : w.isCall = true
    · exact h.finishCall hpc hw hr hzero
    · have hnot : ¬ (s.job t).calling := by
        rw [calling, hpc]
        exact hw
      have hL : CallInv { s with links := L } := h.congr rfl rfl rfl
      exact (hL.setSched hnot).finish hnot (.inr hpc)
  split at hs
  · rename_i hexp
    have hne : (s.sched t).expired = false → (-eTimedOut : ℤ) = 0 := by simp [hexp]
    split at hs
    · cases hs
      exact hgo s.links _ hne
    · obtain ⟨L, -, rfl⟩ := map_eq_some_iff.mp hs
      exact hgo (L.clear t) _ hne
  · cases hs
    exact hgo s.links _ fun _ => rfl

variable [DecidableEq Pid]

theorem CallInv.handOver {r : Tid} (h : CallInv s) (hpc : (s.job t).pc = .handOver ep r k)
    (hr : (s.job r).pc = .block (.recv ep) ∨ (s.job r).pc = .asleep (.recv ep))
    (hs : s.handOver t r ep = some s') : CallInv s' := by
  have hnone := (h.ok t).points.eq_none (by simp [hpc])
  have hne : t ≠ r := by
    rintro rfl
    rcases hr with hr | hr <;> rw [hpc] at hr <;> cases hr
  have hnotr : ¬ (s.job r).calling := by
    rcases hr with hr | hr <;> rw [calling, hr] <;> exact Bool.false_ne_true
  simp only [CallSys.handOver, bind, bind_eq_some_iff, CallSys.copyMsg, map_eq_some_iff] at hs
  obtain ⟨m, hm, room, -, -, ⟨⟨kern, got⟩, -, rfl⟩, hs⟩ := hs
  simp only [modify_of_ne _ hne] at hs
  obtain ⟨s2, hs2, h2, hr2, -, hother⟩ :=
    h.deliver t hnotr kern (room.copyFrom m got) (s.job t).op (some (t, (s.job t).op))
  rw [hs2] at hs
  have ht2 := hother t hne
  have h3 : CallInv (s2.setSched r (s2.sched r).wakeup) := h2.setSched hr2
  have hreq : (s.job t).req.any IpcMessage.isOneWay = m.isOneWay := by rw [hm, any_some]
  have hcall : (s.job t).calling ↔ m.isOneWay = false := by rw [calling, hpc, hreq]
  have ht3 : (s2.setSched r (s2.sched r).wakeup).job t = s.job t := ht2
  split at hs <;> cases hs
  · rename_i hone
    have hnot : ¬ (s.job t).calling := by simp [hcall, hone]
    have h4 : CallInv ((s2.setSched r (s2.sched r).wakeup).modify t returned) := by
      refine h3.modify (by rwa [ht3]) (fun hc => hc) (Nat.le_refl _) (.of_none ?_)
        (by intros; contradiction)
      rw [ht3]
      exact hnone
    refine h4.record (fun u j hj => ?_) (by simp) (by simp) (by simp)
    obtain ⟨rfl, rfl⟩ := Prod.mk.inj (some.inj hj)
    rw [modify_self]
    exact ⟨fun hc => hc, Nat.le_refl _⟩
  · rename_i hone
    have hone : m.isOneWay = false := by simpa using hone
    refine h3.advance (by rwa [ht3, hcall]) (by simp [ht3, hpc]) rfl (by simp) rfl (.of_none ?_)
      ?_ (by simp)
    · rw [ht3]
      exact hnone
    · rw [ht3]
      exact hreq.trans hone

theorem CallInv.take (h : CallInv s) (hpc : (s.job t).pc = .take ep u k)
    (hu : (s.job u).ipcReqMsg = some k) (hs : s.take t u k = some s') : CallInv s' := by
  have hnone := (h.ok t).points.eq_none (by simp [hpc])
  have hnot : ¬ (s.job t).calling := by
    rw [calling, hpc]
    exact id
  have hne : u ≠ t := by
    rintro rfl
    rw [hnone] at hu
    cases hu
  obtain ⟨hk, -⟩ := (h.ok u).points k hu
  simp only [CallSys.take, hu, bind, bind_eq_some_iff, CallSys.copyMsg, map_eq_some_iff] at hs
  obtain ⟨m, hm, room, -, -, ⟨⟨kern, got⟩, -, rfl⟩, hs⟩ := hs
  have hreq : (s.job u).req = some m := by
    rwa [reqTarget, hu, hk, if_pos rfl] at hm
  obtain ⟨s2, hs2, h2, hnot2, hnone2, hother⟩ :=
    h.deliver u hnot kern (room.copyFrom m got) k (some (u, k))
  rw [hs2] at hs
  rw [hnone] at hnone2
  have hu2 := hother u hne
  cases hs
  split
  · rename_i hone
    have hnotu : ¬ (s.job u).calling := by
      intro hc
      have := (h.ok u).kind hc
      simp [hreq, hone] at this
    have h3 : CallInv (s2.modify u unpublished) := by
      refine h2.modify (by rwa [hu2]) ?_ (Nat.le_refl _) (.of_none rfl) fun v j m own ha => ?_
      · rw [hu2]
        exact hnotu
      · exact ha
    have h4 : CallInv ((s2.modify u unpublished).setSched u (s2.sched u).wakeup) := by
      refine h3.setSched ?_
      rw [modify_self, hu2]
      exact hnotu
    refine h4.recvReturn ?_ ?_
    · show ¬ ((s2.modify u unpublished).job t).calling
      rw [modify_of_ne _ hne.symm]
      exact hnot2
    · show ((s2.modify u unpublished).job t).ipcReqMsg = none
      rw [modify_of_ne _ hne.symm]
      exact hnone2
  · exact h2.recvReturn hnot2 hnone2

theorem CallInv.answer {own : Bool} (h : CallInv s)
    (hpc : (s.job t).pc = .answer u k m own) (hfits : Fits s t u m)
    (hs : s.answer t u k m own = some s') : CallInv s' := by
  obtain ⟨rfl, ⟨x, hx, hc⟩, hr⟩ := h.target t u k m own hpc
  obtain ⟨hexp, hptr, -⟩ := ((h.ok u).phase (calling_of_asleep hx hc)).blocked x hx hr
  obtain ⟨room, hbuf, hfit, kern, got, hcopy, hgot⟩ := hfits
  have hne : u ≠ t := by
    rintro rfl
    rw [hpc] at hx
    cases hx
  have hnot : ¬ (s.job t).calling := by
    rw [calling, hpc]
    exact id
  have hnone := (h.ok t).points.eq_none (by simp [hpc])
  rw [hbuf, map_some] at hptr
  have htarget : (s.job u).replyTarget = some room := by
    rw [replyTarget, hptr, if_pos rfl, hbuf]
  simp only [CallSys.answer, copyReply, hptr, htarget, bind_some, copyMsg, hcopy, map_some,
    some.injEq] at hs
  have hju : s'.job u = { s.job u with
      buf := some (room.copyFrom m got), ipcReqMsg := none, ipcReplyMsg := none } := by
    rw [← hs]
    simp only [CallSys.record, CallSys.setSched, modify_of_ne _ hne, modify_self,
      CallJob.unpublished]
  have hjt : (s'.job t).pc = .user ∧ (s'.job t).op = (s.job t).op ∧
    (s'.job t).ipcReqMsg = (s.job t).ipcReqMsg := by
    rw [← hs]
    simp only [CallSys.record, CallSys.setSched, modify_self, modify_of_ne _ hne.symm, and_self]
  have hjv : ∀ v, v ≠ u → v ≠ t → s'.job v = s.job v := by
    intro v hvu hvt
    rw [← hs]
    simp only [CallSys.record, CallSys.setSched, modify_of_ne _ hvu, modify_of_ne _ hvt]
  have hsu : s'.sched u = (s.sched u).wakeup := by
    rw [← hs]
    exact update_self ..
  have hsv : ∀ v, v ≠ u → s'.sched v = s.sched v := by
    intro v hv
    rw [← hs]
    exact update_of_ne hv ..
  have hlog : s'.log = .replied t u (s.job u).op m got :: s.log := by rw [← hs]; rfl
  have hquiet : ∀ v, v ≠ u → ∀ k', (.replied t u (s.job u).op m got : CallEvent Pid Tid).about ≠
      some (v, k') := fun v hv k' hk => hv (Prod.mk.inj (some.inj hk)).1.symm
  have hback : ∀ t' v k' m' own', (s'.job t').pc = .answer v k' m' own' →
      t' ≠ t ∧ (s.job t').pc = .answer v k' m' own' := by
    intro t' v k' m' own' ha
    by_cases ht' : t' = t
    · rw [ht', hjt.1] at ha
      cases ha
    · by_cases hu' : t' = u
      · rw [hu', hju, hx] at ha
        cases ha
      · rw [hjv t' hu' ht'] at ha
        exact ⟨ht', ha⟩
  refine h.keep (fun v => ?_) (fun t' v k' m' own' ha => (hback t' v k' m' own' ha).2)
    (fun t' v ha => ?_) ?_
  · rw [hlog]
    by_cases hvu : v = u
    · subst hvu
      rw [hju, hsu]
      refine (h.ok v).wake hx hc hr hx rfl rfl (by simp) ?_ rfl (by simp)
        (.inr ⟨t, m, got, List.mem_cons_self ..⟩) fun t' k' m' got' heq => ?_
      · simp [Waiter.wakeup, hr]
      · cases heq
        exact ⟨hexp, isReply_copyFrom hfit hgot⟩
    · by_cases hvt : v = t
      · subst hvt
        refine ((h.ok v).cons (hquiet v hvu)).idle hnot (not_calling_of_user hjt.1) hjt.2.1.ge ?_
        exact .of_none (hjt.2.2.trans hnone)
      · rw [hjv v hvu hvt, hsv v hvu]
        exact (h.ok v).cons (hquiet v hvu)
  · obtain ⟨k', m', own', ha⟩ := ha
    obtain ⟨ht', ha⟩ := hback t' v k' m' own' ha
    have hvu : v ≠ u := by
      rintro rfl
      exact ht' (h.sole t' t v ⟨k', m', own', ha⟩ ⟨_, m, own, hpc⟩)
    have hvt : v ≠ t := by
      rintro rfl
      obtain ⟨-, ⟨y, hy, -⟩, -⟩ := h.target t' v k' m' own' ha
      rw [hpc] at hy
      cases hy
    exact ⟨hjv v hvu hvt, hsv v hvu⟩
  · rw [hlog]
    exact h.heard.cons (by simp)

variable [Fintype Tid]

theorem CallInv.next (h : CallInv s) (hc : CallCalm s (.next t)) (hs : s.next t = some s') :
    CallInv s' := by
  unfold CallSys.next at hs
  split at hs <;> rename_i hpc
  · cases hs
    exact h
  · cases hs
    exact h.sendHead hpc
  · exact h.handOver hpc (hc.handOver _ _ _ _ rfl hpc).2 hs
  · cases hs
    exact h.recvHead hpc
  · exact h.take hpc (hc.take _ _ _ _ rfl hpc) hs
  · cases hs
    exact h.publish hpc
  · cases hs
    exact h.block hpc
  · exact h.resume hpc hs
  · cases hs
    exact h.lookup hpc (hc.target _ _ _ _ _ rfl hpc) (hc.window _ _ _ _ _ rfl hpc)
  · exact h.answer hpc (hc.fits _ _ _ _ _ rfl hpc) hs

theorem CallInv.step {a : CallAction Pid Oid Tid} (h : CallInv s) (hc : CallCalm s a)
    (hs : s.step a = some s') : CallInv s' := by
  cases a with
  | send t ep m room timeout =>
    simp only [CallSys.step] at hs
    split at hs
    · rename_i hpc
      split at hs <;> cases hs
      · rename_i hone
        refine h.start hpc (fun j hj hreq => ?_) (by simp)
        simp [calling, hj, hreq, hone]
      · rename_i hone
        exact h.startCall hpc (by simpa using hone) (hc.start _ _ _ _ _ rfl)
    · cases hs
      exact h
  | receive t ep room timeout =>
    simp only [CallSys.step] at hs
    split at hs <;> cases hs
    · rename_i hpc
      refine h.start hpc (fun j hj _ => ?_) (by simp)
      simp [calling, hj]
    · exact h
  | reply t m =>
    simp only [CallSys.step] at hs
    split at hs
    · rename_i hpc
      split at hs <;> cases hs
      · exact h.modify (not_calling_of_user hpc) (fun hc => hc) (Nat.le_refl _)
          (.of_none ((h.ok t).points.eq_none (by simp [hpc]))) (by simp)
      · exact h
    · cases hs
      exact h
  | replyTo t u request m =>
    simp only [CallSys.step] at hs
    split at hs <;> cases hs
    · rename_i hpc
      exact h.modify (not_calling_of_user hpc) (fun hc => hc) (Nat.le_refl _)
        (.of_none ((h.ok t).points.eq_none (by simp [hpc]))) (by simp)
    · exact h
  | next t => exact h.next hc hs
  | expire t =>
    simp only [CallSys.step] at hs
    split at hs
    · rename_i hpc
      split at hs <;> cases hs
      · rename_i hcond
        exact h.expire hpc hcond.2 (hc.expire t rfl)
      · exact h
    · cases hs
      exact h
  | poke u =>
    cases hs
    exact h.setSched (hc.poke u rfl)
  | tables k =>
    cases hs
    exact h.congr rfl rfl rfl

end Steps

section Results

theorem CallInv.of_init (h : s.Init) : CallInv s := by
  refine ⟨fun u => ?_, fun t u k m own ha => ?_, fun t t' u ha => ?_, by rw [h.log]; trivial⟩
  · rw [h.job, h.log]
    exact ⟨nofun, .of_none rfl, fun hc => hc.elim, fun hc => hc.elim, fun _ _ => ⟨nofun, nofun⟩⟩
  · rw [h.job] at ha
    cases ha
  · obtain ⟨k, m, own, ha⟩ := ha
    rw [h.job] at ha
    cases ha

variable [DecidableEq Tid] [DecidableEq Pid] [DecidableEq Oid] [Fintype Tid]

theorem CallInv.sound (h : CallInv s) : CallSound s := by
  refine ⟨h.heard, fun t u k m got hm => ?_⟩
  by_cases hcall : k = (s.job u).op ∧ (s.job u).calling
  swap
  · exact .inl (((h.ok u).past k (not_and.mp hcall)).replied t m got hm)
  · obtain ⟨rfl, hcall⟩ := hcall
    have hans : Answered s.log u (s.job u).op := .inr ⟨t, m, got, hm⟩
    have hphase := (h.ok u).phase hcall
    obtain ⟨x, hx⟩ : ∃ x, (s.job u).pc = .asleep x := by
      by_contra hn
      exact (hphase.awake (not_exists.mp hn)).2.2 hans
    obtain ⟨-, hrep⟩ := hphase.woken x hx fun hr => (hphase.blocked x hx hr).2.2 hans
    obtain ⟨hr, hexp, hrep⟩ := hrep t m got hm
    have hc : x.isCall = true := by rwa [calling, hx] at hcall
    refine .inr ⟨(s.setSched u (s.sched u).resume).sendReturn u 0, (s.job u).buf, ?_,
      List.mem_cons_self .., hrep⟩
    simp only [CallSys.step, CallSys.next, hx, CallSys.resume, hr, hexp]
    cases x <;> first | rfl | cases hc

end Results

def callPair : CallSys Unit Unit (Fin 2) where
  kernel := (bootWorld Unit Unit).kernel
  owner := fun _ => ()
  links := ⟨fun _ => none, fun _ => none⟩
  job := fun _ => .fresh
  sched := fun _ => .fresh
  log := []

theorem init_callPair : callPair.Init := ⟨rfl, fun _ => rfl, fun _ => rfl, rfl⟩

def numbered (n : BitVec 32) : IpcMessage Unit (Fin 2) :=
  ⟨Vector.replicate ipcMsgRegs n, some [7], [], 0, none, none⟩

/-- The first thread waits in a receive, and the second calls and hands it the request. -/
def handedRun : List (CallAction Unit Unit (Fin 2)) :=
  [.receive 0 () (numbered 0) 0, .next 0, .next 0, .next 0,
    .send 1 () (numbered 5) (some (numbered 0)) 0, .next 1, .next 1]

def callReplyRun : List (CallAction Unit Unit (Fin 2)) :=
  handedRun ++ [.next 1, .next 1, .next 0, .reply 0 (numbered 6), .next 0, .next 0, .next 1]

def callCalmCheck (s : CallSys Unit Unit (Fin 2)) : CallAction Unit Unit (Fin 2) → Bool
  | .send t _ _ _ _ => !(s.sched t).pendingWakeup
  | .next t =>
    match (s.job t).pc with
    | .handOver ep r k => decide ((s.job r).op = k ∧ (s.job r).pc = .asleep (.recv ep))
    | .take _ u k => decide ((s.job u).ipcReqMsg = some k)
    | .lookup u k _ _ =>
      decide (k = (s.job u).op ∧ (s.job u).pc = .asleep (.callSent ()) ∧
        (s.job 1).pc = .asleep (.callSent ()) ∧ t = 0)
    | .answer u _ m _ =>
      decide ((s.job u).buf = some (numbered 0) ∧ m.buffer = some [7] ∧ m.handles = [])
    | _ => true
  | .poke _ | .expire _ => false
  | _ => true

theorem callCalm_of_check (s : CallSys Unit Unit (Fin 2)) (a : CallAction Unit Unit (Fin 2))
    (h : callCalmCheck s a = true) : CallCalm s a := by
  refine ⟨?_, ?_, ?_, ?_, ?_, ?_, ?_, ?_⟩
  · rintro t ep m room timeout rfl
    simpa [callCalmCheck] using h
  · rintro u rfl
    cases h
  · rintro t ep r k rfl hpc
    simp only [callCalmCheck, hpc, decide_eq_true_eq] at h
    exact ⟨h.1, .inr h.2⟩
  · rintro t ep u k rfl hpc
    simpa only [callCalmCheck, hpc, decide_eq_true_eq] using h
  · rintro t u k m own rfl hpc -
    simp only [callCalmCheck, hpc, decide_eq_true_eq] at h
    obtain ⟨hk, hu, h1, rfl⟩ := h
    refine ⟨hk, ⟨_, hu, rfl⟩, Fin.forall_fin_two.mpr ⟨?_, ?_⟩⟩
    · rintro ⟨k', m', own', ha⟩
      rw [hpc] at ha
      cases ha
    · rintro ⟨k', m', own', ha⟩
      rw [h1] at ha
      cases ha
  · rintro t u k m own rfl hpc - - -
    simp only [callCalmCheck, hpc, decide_eq_true_eq] at h
    exact ⟨_, h.2.1⟩
  · rintro t u k m own rfl hpc
    simp only [callCalmCheck, hpc, decide_eq_true_eq] at h
    obtain ⟨hbuf, hm, hh⟩ := h
    refine ⟨numbered 0, hbuf, .inr ⟨[7], rfl, by simp [hm]⟩, s.kernel, [], ?_, by simp [hh]⟩
    rw [hh]
    rfl
  · rintro u rfl
    cases h

end Xnix
