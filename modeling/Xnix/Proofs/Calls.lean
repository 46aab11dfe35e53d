import Xnix.CallMachine

/-!
# Replies on several CPUs

A caller takes its receiver off `recv_queue`, or joins `send_queue`, before it is on `blocked_list`:
a receiver that replies at once finds no blocked thread (`reply_lost`). Where every reply to a
received request finds its caller asleep in that call, a reply fails only when the call has timed
out or was answered before, and a call that was answered returns 0 with the reply.
-/

namespace Xnix

open Function List CallJob

variable {Pid Oid Tid : Type} {e : CallEvent Pid Tid} {log : List (CallEvent Pid Tid)} {u : Tid}
  {j' : CallJob Pid Oid Tid} {w' : Waiter}

section Statements
def CallJob.calling (j : CallJob Pid Oid Tid) : Prop :=
  match j.pc with
  | .send _ | .handOver _ _ _ => j.req.any IpcMessage.isOneWay = false
  | .publish w | .block w | .asleep w => w.isCall = true
  | _ => False

def IsReply (m : IpcMessage Pid Tid) (got : List ℕ) (buf : Option (IpcMessage Pid Tid)) : Prop :=
  ∃ b, buf = some b ∧ b.regs = m.regs ∧ b.buffer.getD [] = m.buffer.getD [] ∧ b.handles = got ∧
    got.length = m.handles.length

def Answered (log : List (CallEvent Pid Tid)) (u : Tid) (k : ℕ) : Prop :=
  .expired u k ∈ log ∨ ∃ t m got, .replied t u k m got ∈ log

/-- A reply to a call whose request was received fails only after the call has timed out or has been
answered. -/
def RepliesHeard : List (CallEvent Pid Tid) → Prop
  | [] => True
  | .refused _ u k :: log =>
    (.called u k ∈ log → (∃ r, .received r u k ∈ log) → Answered log u k) ∧ RepliesHeard log
  | _ :: log => RepliesHeard log

def Answering (s : CallSys Pid Oid Tid) (t u : Tid) : Prop :=
  ∃ k m own, (s.job t).pc = .answer u k m own

variable [DecidableEq Tid] [DecidableEq Pid] [DecidableEq Oid]

/-- The reply fits into the buffer of the caller, and all its handles can be passed. -/
def Fits (s : CallSys Pid Oid Tid) (t u : Tid) (m : IpcMessage Pid Tid) : Prop :=
  ∃ room, (s.job u).buf = some room ∧
    (m.buffer.getD [] = [] ∨
      ∃ bytes, room.buffer = some bytes ∧ (m.buffer.getD []).length ≤ bytes.length) ∧
    ∃ k got, ipcCopyHandles s.kernel (s.owner t) (s.owner u) m.handles = some (k, got) ∧
      got.length = m.handles.length

/-- A call begins with `pending_wakeup` clear and only a reply or the timer wakes the caller. A
thread taken off a queue is still in that operation, with its message pointer stored, when the other
side copies. A thread that a reply finds is in the call that it answers, with room for it and no
other reply or timeout on the way, and asleep when the reply looks for it. -/
structure CallCalm (s : CallSys Pid Oid Tid) (a : CallAction Pid Oid Tid) : Prop where
  start : ∀ t ep m room timeout, a = .send t ep m room timeout → (s.sched t).pendingWakeup = false
  poke : ∀ u, a = .poke u → ¬ (s.job u).calling
  handOver : ∀ t ep r k, a = .next t → (s.job t).pc = .handOver ep r k →
    (s.job r).op = k ∧ ((s.job r).pc = .block (.recv ep) ∨ (s.job r).pc = .asleep (.recv ep))
  take : ∀ t ep u k, a = .next t → (s.job t).pc = .take ep u k → (s.job u).ipcReqMsg = some k
  target : ∀ t u k m own, a = .next t → (s.job t).pc = .lookup u k m own →
    (s.sched u).run = .blocked →
      k = (s.job u).op ∧ (∃ w, (s.job u).pc = .asleep w ∧ w.isCall = true) ∧ ∀ t',
      ¬ Answering s t' u
  window : ∀ t u k m own, a = .next t → (s.job t).pc = .lookup u k m own →
    (∃ r, .received r u k ∈ s.log) → (s.job u).op = k → (s.job u).calling →
      ∃ w, (s.job u).pc = .asleep w
  fits : ∀ t u k m own, a = .next t → (s.job t).pc = .answer u k m own → Fits s t u m
  expire : ∀ u, a = .expire u → ∀ t, ¬ Answering s t u

variable [Fintype Tid]

/-- Each reply reaches the call it answers, at once or at its next step. -/
structure CallSound (s : CallSys Pid Oid Tid) : Prop where
  heard : RepliesHeard s.log
  delivered : ∀ t u k m got, .replied t u k m got ∈ s.log →
    (∃ buf, .ret u k 0 buf ∈ s.log ∧ IsReply m got buf) ∨
      ∃ s' buf, s.step (.next u) = some s' ∧ .ret u k 0 buf ∈ s'.log ∧ IsReply m got buf

end Statements

section Events
def CallEvent.about : CallEvent Pid Tid → Option (Tid × ℕ)
  | .called u k | .expired u k | .replied _ u k _ _ | .ret u k _ _ => some (u, k)
  | .received _ _ _ | .refused _ _ _ => none

variable {x : CallEvent Pid Tid} {k : ℕ}

theorem mem_cons_of_about (hx : x.about = some (u, k)) (he : ∀ k, e.about ≠ some (u, k)) :
    x ∈ e :: log ↔ x ∈ log := by
  rw [mem_cons]
  refine or_iff_right ?_
  rintro rfl
  exact he k hx

theorem Answered.cons (h : Answered log u k) : Answered (e :: log) u k :=
  h.imp (mem_cons_of_mem _) fun ⟨t, m, got, h⟩ => ⟨t, m, got, mem_cons_of_mem _ h⟩

theorem answered_cons (he : ∀ k, e.about ≠ some (u, k)) :
    Answered (e :: log) u k ↔ Answered log u k := by
  refine ⟨?_, Answered.cons⟩
  rintro (h | ⟨t, m, got, h⟩)
  · exact .inl ((mem_cons_of_about rfl he).mp h)
  · exact .inr ⟨t, m, got, (mem_cons_of_about rfl he).mp h⟩

theorem RepliesHeard.cons (h : RepliesHeard log) (he : ∀ t u k, e ≠ .refused t u k) :
    RepliesHeard (e :: log) := by
  cases e with
  | refused t u k => exact absurd rfl (he t u k)
  | _ => exact h

end Events

variable {r : ℤ}

section Threads
/-- `ipc_req_msg` points to the message of a send that is about to block or has blocked. -/
def CallJob.Points (j : CallJob Pid Oid Tid) : Prop :=
  ∀ k, j.ipcReqMsg = some k →
    k = j.op ∧ ∃ x, (∀ ep, x ≠ .recv ep) ∧ (j.pc = .block x ∨ j.pc = .asleep x)

/-- A call that is over: it was answered, and it returned with the reply. -/
structure CallSettled (log : List (CallEvent Pid Tid)) (u : Tid) (k : ℕ) : Prop where
  replied : ∀ t m got, .replied t u k m got ∈ log → ∃ buf, .ret u k 0 buf ∈ log ∧ IsReply m got buf
  called : .called u k ∈ log → Answered log u k

/-- A call that is under way: before it sleeps, asleep, or woken by a reply or the timer. -/
structure CallPhase (log : List (CallEvent Pid Tid)) (u : Tid) (j : CallJob Pid Oid Tid)
    (w : Waiter) : Prop where
  awake : (∀ x, j.pc ≠ .asleep x) → w.pendingWakeup = false ∧
    (∀ x, j.pc = .block x → j.ipcReplyMsg = j.buf.map fun _ => j.op) ∧ ¬ Answered log u j.op
  blocked : ∀ x, j.pc = .asleep x → w.run = .blocked →
    w.expired = false ∧ j.ipcReplyMsg = (j.buf.map fun _ => j.op) ∧ ¬ Answered log u j.op
  woken : ∀ x, j.pc = .asleep x → w.run ≠ .blocked → Answered log u j.op ∧
    ∀ t m got, .replied t u j.op m got ∈ log → w.run = .woken ∧ w.expired = false ∧
    IsReply m got j.buf

/-- What the state of one thread says about its calls in the log. -/
structure CallOk (log : List (CallEvent Pid Tid)) (u : Tid) (j : CallJob Pid Oid Tid) (w : Waiter) :
    Prop where
  fresh : ∀ e ∈ log, ∀ k, e.about = some (u, k) → k ≤ j.op
  points : j.Points
  kind : j.calling → j.req.any IpcMessage.isOneWay = false
  phase : j.calling → CallPhase log u j w
  past : ∀ k, (k = j.op → ¬ j.calling) → CallSettled log u k

variable {j : CallJob Pid Oid Tid} {w : Waiter} {x : Wait Oid}

theorem CallJob.Points.of_none (h : j.ipcReqMsg = none) : j.Points := fun k hk => by
  rw [h] at hk
  cases hk

theorem CallJob.Points.eq_none (h : j.Points)
    (hpc : ∀ x, (∀ ep, x ≠ .recv ep) → j.pc ≠ .block x ∧ j.pc ≠ .asleep x) :
    j.ipcReqMsg = none := by
  cases hk : j.ipcReqMsg with
  | none => rfl
  | some k =>
    obtain ⟨-, x, hne, hx⟩ := h k hk
    rcases hx with hx | hx
    · exact absurd hx (hpc x hne).1
    · exact absurd hx (hpc x hne).2

theorem CallJob.Points.congr (h : j.Points) (hpc : j'.pc = j.pc) (hop : j'.op = j.op)
    (hptr : j'.ipcReqMsg = j.ipcReqMsg) : j'.Points := by
  unfold CallJob.Points
  rw [hpc, hop, hptr]
  exact h

theorem calling_congr (hpc : j'.pc = j.pc) (hreq : j'.req = j.req) : j'.calling ↔ j.calling := by
  rw [calling, calling, hpc, hreq]

theorem calling_of_asleep (hpc : j.pc = .asleep x) (hx : x.isCall = true) : j.calling := by
  rw [calling, hpc]
  exact hx

theorem CallSettled.cons {k : ℕ} (h : CallSettled log u k)
    (hnr : ∀ t m got, e ≠ .replied t u k m got)
    (hnc : e ≠ .called u k) : CallSettled (e :: log) u k := by
  refine ⟨fun t m got hm => ?_, fun hm => ?_⟩
  · obtain ⟨buf, hb, hr⟩ := h.replied t m got ((mem_cons.mp hm).resolve_left (hnr t m got).symm)
    exact ⟨buf, mem_cons_of_mem _ hb, hr⟩
  · exact (h.called ((mem_cons.mp hm).resolve_left hnc.symm)).cons

theorem CallPhase.cons (h : CallPhase log u j w) (he : ∀ k, e.about ≠ some (u, k)) :
    CallPhase (e :: log) u j w := by
  refine ⟨?_, ?_, fun x hx hr => ⟨(h.woken x hx hr).1.cons, fun t m got hm => ?_⟩⟩
  · rw [answered_cons he]
    exact h.awake
  · rw [answered_cons he]
    exact h.blocked
  · exact (h.woken x hx hr).2 t m got ((mem_cons_of_about rfl he).mp hm)

variable (h : CallOk log u j w)
include h

theorem CallOk.cons (he : ∀ k, e.about ≠ some (u, k)) : CallOk (e :: log) u j w where
  fresh x hx k hk := h.fresh x ((mem_cons_of_about hk he).mp hx) k hk
  points := h.points
  kind := h.kind
  phase hc := (h.phase hc).cons he
  past k hk := by
    refine (h.past k hk).cons ?_ ?_
    · rintro t m got rfl
      exact he k rfl
    · rintro rfl
      exact he k rfl

theorem CallOk.idle (hj : ¬ j.calling) (hj' : ¬ j'.calling) (hop : j.op ≤ j'.op)
    (hptr : j'.Points) : CallOk log u j' w' where
  fresh x hx k hk := (h.fresh x hx k hk).trans hop
  points := hptr
  kind hc := absurd hc hj'
  phase hc := absurd hc hj'
  past k _ := h.past k fun _ => hj

theorem CallOk.cons_idle (hj : ¬ j.calling) (hop : ∀ k, e.about = some (u, k) → k ≤ j.op)
    (hnr : ∀ t k m got, e ≠ .replied t u k m got) (hnc : ∀ k, e ≠ .called u k) :
    CallOk (e :: log) u j w where
  fresh x hx k hk := by
    rcases mem_cons.mp hx with rfl | hx
    · exact hop k hk
    · exact h.fresh x hx k hk
  points := h.points
  kind := h.kind
  phase hc := absurd hc hj
  past k hk := (h.past k hk).cons (fun t => hnr t k) (hnc k)

theorem CallOk.start (hj : ¬ j.calling) (hp : w.pendingWakeup = false) (hop : j'.op = j.op + 1)
    (hcall : j'.calling) (hkind : j'.req.any IpcMessage.isOneWay = false)
    (hptr : j'.ipcReqMsg = none)
    (hpc : ∀ x, j'.pc ≠ .block x ∧ j'.pc ≠ .asleep x) :
    CallOk (.called u (j.op + 1) :: log) u j' w := by
  have hnew : ∀ x, x.about = some (u, j.op + 1) → x ∉ log := fun x hx hm => by
    have := h.fresh x hm _ hx
    omega
  refine ⟨fun x hx k hk => ?_, .of_none hptr, fun _ => hkind,
    fun _ => ⟨fun _ => ⟨hp, ?_, ?_⟩, ?_, ?_⟩, fun k hk => (h.past k fun _ => hj).cons nofun ?_⟩
  · rcases mem_cons.mp hx with rfl | hx
    · cases hk
      exact hop.ge
    · have := h.fresh x hx k hk
      omega
  · exact fun x hx => absurd hx (hpc x).1
  · rw [hop]
    rintro (hm | ⟨t, m, got, hm⟩) <;> rcases mem_cons.mp hm with heq | hm
    · cases heq
    · exact hnew _ rfl hm
    · cases heq
    · exact hnew _ rfl hm
  · exact fun x hx => absurd hx (hpc x).2
  · exact fun x hx => absurd hx (hpc x).2
  · intro heq
    cases heq
    exact hk hop.symm hcall

theorem CallOk.advance (hj : j.calling) (hn : ∀ x, j.pc ≠ .asleep x) (hj' : j'.calling)
    (hn' : ∀ x, j'.pc ≠ .asleep x) (hop : j'.op = j.op) (hptr : j'.Points)
    (hkind : j'.req.any IpcMessage.isOneWay = false)
    (hpub : ∀ x, j'.pc = .block x → j'.ipcReplyMsg = j'.buf.map fun _ => j'.op) :
    CallOk log u j' w := by
  obtain ⟨hp, -, hopen⟩ := (h.phase hj).awake hn
  refine ⟨?_, hptr, fun _ => hkind, fun _ => ⟨fun _ => ⟨hp, hpub, ?_⟩, ?_, ?_⟩, fun k hk => ?_⟩
  · rw [hop]
    exact h.fresh
  · rw [hop]
    exact hopen
  · exact fun x hx => absurd hx (hn' x)
  · exact fun x hx => absurd hx (hn' x)
  · exact h.past k fun heq => absurd hj' (hk (heq.trans hop.symm))

theorem CallOk.sleep (hpc : j.pc = .block x) (hx : x.isCall = true) :
    CallOk log u { j with pc := .asleep x } ⟨.blocked, false, false⟩ := by
  have hcall : j.calling := by
    rw [calling, hpc]
    exact hx
  obtain ⟨-, hpub, hopen⟩ := (h.phase hcall).awake (by simp [hpc])
  refine ⟨h.fresh, fun k hk => ?_, fun _ => h.kind hcall,
    fun _ => ⟨fun hn => absurd rfl (hn x), fun _ _ _ =>
    ⟨rfl, hpub x hpc, hopen⟩, fun _ _ hr => absurd rfl hr⟩, fun k hk => h.past k fun heq =>
    absurd hx (hk heq)⟩
  obtain ⟨hop, y, hne, hy⟩ := h.points k hk
  rcases hy with hy | hy <;> rw [hpc] at hy <;> cases hy
  exact ⟨hop, x, hne, .inr rfl⟩

theorem CallOk.wake (hpc : j.pc = .asleep x) (hx : x.isCall = true) (hr : w.run = .blocked)
    (hpc' : j'.pc = .asleep x) (hop : j'.op = j.op) (hreq : j'.req = j.req)
    (hptr : ∀ k, j'.ipcReqMsg = some k → j.ipcReqMsg = some k) (hr' : w'.run = .woken)
    (he : e.about = some (u, j.op)) (hnc : ∀ k, e ≠ .called u k) (hans : Answered (e :: log) u j.op)
    (hrep : ∀ t k m got, e = .replied t u k m got → w'.expired = false ∧ IsReply m got j'.buf) :
    CallOk (e :: log) u j' w' := by
  have hcall := calling_of_asleep hpc hx
  have hcall' := calling_of_asleep hpc' hx
  obtain ⟨-, -, hopen⟩ := (h.phase hcall).blocked x hpc hr
  refine ⟨fun y hy k hk => ?_, fun k hk => ?_, fun _ => hreq ▸ h.kind hcall, fun _ =>
    ⟨fun hn => absurd hpc' (hn x), fun _ _ hb => ?_, fun _ _ _ => ?_⟩, fun k hk => ?_⟩
  · rw [hop]
    rcases mem_cons.mp hy with rfl | hy
    · obtain ⟨-, rfl⟩ := Prod.mk.inj (Option.some.inj (he.symm.trans hk))
      exact Nat.le_refl _
    · exact h.fresh y hy k hk
  · rw [hop, hpc', ← hpc]
    exact h.points k (hptr k hk)
  · rw [hr'] at hb
    cases hb
  · rw [hop]
    refine ⟨hans, fun t m got hm => ⟨hr', ?_⟩⟩
    rcases mem_cons.mp hm with heq | hm
    · exact hrep t _ m got heq.symm
    · exact absurd (.inr ⟨t, m, got, hm⟩) hopen
  · have hne : k ≠ j.op := fun heq => hk (heq.trans hop.symm) hcall'
    refine (h.past k fun heq => absurd heq hne).cons ?_ (hnc k)
    rintro t m got rfl
    exact hne (Prod.mk.inj (Option.some.inj he)).2

theorem CallOk.ret (hpc : j.pc = .asleep x) (hx : x.isCall = true) (hr : w.run = .woken)
    (hzero : w.expired = false → r = 0) (hj' : ¬ j'.calling) (hop : j'.op = j.op)
    (hptr : j'.ipcReqMsg = none) : CallOk (.ret u j.op r j.buf :: log) u j' w' := by
  obtain ⟨hans, hrep⟩ := (h.phase (calling_of_asleep hpc hx)).woken x hpc (by rw [hr]; nofun)
  refine ⟨fun y hy k hk => ?_, .of_none hptr, fun hc => absurd hc hj', fun hc => absurd hc hj',
    fun k _ => ?_⟩
  · rw [hop]
    rcases mem_cons.mp hy with rfl | hy
    · cases hk
      exact Nat.le_refl _
    · exact h.fresh y hy k hk
  · by_cases hk : k = j.op
    · subst hk
      refine ⟨fun t m got hm => ?_, fun _ => hans.cons⟩
      rcases mem_cons.mp hm with heq | hm
      · cases heq
      · obtain ⟨-, hexp, hbuf⟩ := hrep t m got hm
        exact ⟨j.buf, by rw [hzero hexp]; exact mem_cons_self .., hbuf⟩
    · exact (h.past k fun heq => absurd heq hk).cons nofun nofun

end Threads

section System
structure CallInv (s : CallSys Pid Oid Tid) : Prop where
  ok : ∀ u, CallOk s.log u (s.job u) (s.sched u)
  target : ∀ t u k m own, (s.job t).pc = .answer u k m own →
    k = (s.job u).op ∧ (∃ x, (s.job u).pc = .asleep x ∧ x.isCall = true) ∧
      (s.sched u).run = .blocked
  sole : ∀ t t' u, Answering s t u → Answering s t' u → t = t'
  heard : RepliesHeard s.log

variable {s s' : CallSys Pid Oid Tid} {t : Tid}

theorem CallInv.keep (h : CallInv s) (hok : ∀ u, CallOk s'.log u (s'.job u) (s'.sched u))
    (hans : ∀ t u k m own, (s'.job t).pc = .answer u k m own → (s.job t).pc = .answer u k m own)
    (hkeep : ∀ t u, Answering s' t u → s'.job u = s.job u ∧ s'.sched u = s.sched u)
    (hheard : RepliesHeard s'.log) : CallInv s' := by
  refine ⟨hok, fun t u k m own hpc => ?_, fun t t' u ht ht' => ?_, hheard⟩
  · obtain ⟨hjob, hsched⟩ := hkeep t u ⟨k, m, own, hpc⟩
    rw [hjob, hsched]
    exact h.target t u k m own (hans t u k m own hpc)
  · obtain ⟨k, m, own, hpc⟩ := ht
    obtain ⟨k', m', own', hpc'⟩ := ht'
    exact h.sole t t' u ⟨k, m, own, hans _ _ _ _ _ hpc⟩ ⟨k', m', own', hans _ _ _ _ _ hpc'⟩

theorem CallInv.free_of_not (h : CallInv s)
    (hnot : ∀ x, (s.job t).pc = .asleep x → x.isCall = true → (s.sched t).run ≠ .blocked) :
    ∀ t', ¬ Answering s t' t := by
  rintro t' ⟨k, m, own, hpc⟩
  obtain ⟨-, ⟨x, hx, hc⟩, hr⟩ := h.target t' t k m own hpc
  exact hnot x hx hc hr

theorem CallInv.free_of_idle (h : CallInv s) (hnot : ¬ (s.job t).calling) :
  ∀ t', ¬ Answering s t' t := h.free_of_not fun _ hx hc => absurd (calling_of_asleep hx hc) hnot

theorem CallInv.record (h : CallInv s) (hcalm : ∀ u k, e.about = some (u, k) →
    ¬ (s.job u).calling ∧ k ≤ (s.job u).op) (hnr : ∀ t u k m got, e ≠ .replied t u k m got)
    (hnc : ∀ u k, e ≠ .called u k) (hnf : ∀ t u k, e ≠ .refused t u k) : CallInv (s.record e) := by
  refine ⟨fun u => ?_, h.target, h.sole, h.heard.cons hnf⟩
  by_cases hu : ∃ k, e.about = some (u, k)
  · obtain ⟨k, hk⟩ := hu
    exact (h.ok u).cons_idle (hcalm u k hk).1 (fun k' hk' => (hcalm u k' hk').2)
      (fun t => hnr t u) (hnc u)
  · exact (h.ok u).cons fun k hk => hu ⟨k, hk⟩

theorem CallInv.congr (h : CallInv s) (hjob : s'.job = s.job) (hsched : s'.sched = s.sched)
    (hlog : s'.log = s.log) : CallInv s' := by
  refine ⟨fun u => ?_, fun t u k m own hpc => ?_, fun t t' u ht ht' => ?_, ?_⟩
  · rw [hjob, hsched, hlog]
    exact h.ok u
  · rw [hjob] at hpc ⊢
    rw [hsched]
    exact h.target t u k m own hpc
  · unfold Answering at ht ht'
    rw [hjob] at ht ht'
    exact h.sole t t' u ht ht'
  · rw [hlog]
    exact h.heard

variable [DecidableEq Tid] {f : CallJob Pid Oid Tid → CallJob Pid Oid Tid}

theorem CallInv.own (h : CallInv s) (hjob : s'.job = update s.job t j')
    (hsched : s'.sched = update s.sched t w')
    (hrest : ∀ u, u ≠ t → CallOk s'.log u (s.job u) (s.sched u)) (hok : CallOk s'.log t j' w')
    (hfree : ∀ t', ¬ Answering s t' t)
    (hans : ∀ u k m own, j'.pc = .answer u k m own → (s.job t).pc = .answer u k m own)
    (hheard : RepliesHeard s'.log) : CallInv s' := by
  obtain ⟨hself, hother⟩ := update_apart hjob
  have hback : ∀ t' u k m own, (s'.job t').pc = .answer u k m own →
    (s.job t').pc = .answer u k m own := by
    intro t' u k m own hpc
    by_cases ht : t' = t
    · subst ht
      rw [hself] at hpc
      exact hans u k m own hpc
    · rwa [hother t' ht] at hpc
  refine h.keep (fun u => ?_) hback (fun t' u hpc => ?_) hheard
  · by_cases hu : u = t
    · subst hu
      rw [hself, hsched, update_self]
      exact hok
    · rw [hother u hu, hsched, update_of_ne hu]
      exact hrest u hu
  · obtain ⟨k, m, own, hpc⟩ := hpc
    have hu : u ≠ t := by
      rintro rfl
      exact hfree t' ⟨k, m, own, hback _ _ _ _ _ hpc⟩
    exact ⟨hother u hu, by rw [hsched, update_of_ne hu]⟩

theorem CallInv.idle (h : CallInv s) (hjob : s'.job = update s.job t j')
    (hsched : s'.sched = update s.sched t w') (hlog : s'.log = s.log)
    (hnot : ¬ (s.job t).calling) (hnot' : ¬ j'.calling) (hop : (s.job t).op ≤ j'.op)
    (hptr : j'.Points)
    (hans : ∀ u k m own, j'.pc = .answer u k m own → (s.job t).pc = .answer u k m own) :
    CallInv s' := by
  refine h.own hjob hsched (fun u _ => ?_) ?_ (h.free_of_idle hnot) hans ?_
  · rw [hlog]
    exact h.ok u
  · rw [hlog]
    exact (h.ok t).idle hnot hnot' hop hptr
  · rw [hlog]
    exact h.heard

theorem modify_self (s : CallSys Pid Oid Tid) (t : Tid)
    (f : CallJob Pid Oid Tid → CallJob Pid Oid Tid) : (s.modify t f).job t = f (s.job t) :=
  update_self ..

theorem modify_of_ne (s : CallSys Pid Oid Tid) (hu : u ≠ t)
    (f : CallJob Pid Oid Tid → CallJob Pid Oid Tid) : (s.modify t f).job u = s.job u :=
  update_of_ne hu ..

variable (h : CallInv s)
include h

theorem CallInv.modify (hnot : ¬ (s.job t).calling) (hnot' : ¬ (f (s.job t)).calling)
    (hop : (s.job t).op ≤ (f (s.job t)).op) (hptr : (f (s.job t)).Points)
    (hans : ∀ u k m own, (f (s.job t)).pc = .answer u k m own → (s.job t).pc = .answer u k m own) :
    CallInv (s.modify t f) :=
  h.idle rfl (update_eq_self t s.sched).symm rfl hnot hnot' hop hptr hans

theorem CallInv.touch (hnot : ¬ (s.job t).calling) (hpc : (f (s.job t)).pc = (s.job t).pc)
    (hreq : (f (s.job t)).req = (s.job t).req) (hop : (f (s.job t)).op = (s.job t).op)
    (hptr : (f (s.job t)).ipcReqMsg = (s.job t).ipcReqMsg) : CallInv (s.modify t f) := by
  refine h.modify hnot ?_ hop.ge ((h.ok t).points.congr hpc hop hptr) fun u k m own ha => ?_
  · rwa [calling_congr hpc hreq]
  · rwa [hpc] at ha

theorem CallInv.setSched (hnot : ¬ (s.job t).calling) : CallInv (s.setSched t w') :=
  h.idle (update_eq_self t s.job).symm rfl rfl hnot hnot (Nat.le_refl _) (h.ok t).points
    fun _ _ _ _ => id

theorem CallInv.advance (hcall : (s.job t).calling) (hn : ∀ x, (s.job t).pc ≠ .asleep x)
    (hcall' : (f (s.job t)).calling) (hn' : ∀ x, (f (s.job t)).pc ≠ .asleep x)
    (hop : (f (s.job t)).op = (s.job t).op) (hptr : (f (s.job t)).Points)
    (hkind : (f (s.job t)).req.any IpcMessage.isOneWay = false)
    (hpub : ∀ x, (f (s.job t)).pc = .block x →
      (f (s.job t)).ipcReplyMsg = (f (s.job t)).buf.map fun _ => (f (s.job t)).op) :
    CallInv (s.modify t f) := by
  refine h.own rfl (update_eq_self t s.sched).symm (fun u _ => h.ok u)
    ((h.ok t).advance hcall hn hcall' hn' hop hptr hkind hpub)
    (h.free_of_not fun x hx => absurd hx (hn x)) (fun u k m own ha => ?_) h.heard
  rw [calling, ha] at hcall'
  exact hcall'.elim

variable (hnot : ¬ (s.job t).calling)
include hnot

theorem CallInv.recvReturn (hnone : (s.job t).ipcReqMsg = none) : CallInv (s.recvReturn t r) := by
  have hback : CallInv (s.modify t returned) :=
    h.modify hnot (fun hc => hc) (Nat.le_refl _) (.of_none hnone) nofun
  unfold CallSys.recvReturn
  split
  · split
    · exact hback.record nofun nofun nofun nofun
    · exact hback
  · exact hback

theorem CallInv.sendReturn : CallInv (s.sendReturn t r) := by
  have hback : CallInv (s.modify t fun j => j.unpublished.returned) :=
    h.modify hnot (fun hc => hc) (Nat.le_refl _) (.of_none rfl) nofun
  refine hback.record (fun u k hk => ?_) nofun nofun nofun
  obtain ⟨rfl, rfl⟩ := Prod.mk.inj (Option.some.inj hk)
  rw [modify_self]
  exact ⟨fun hc => hc, Nat.le_refl _⟩

theorem CallInv.finish {w : Wait Oid} (hwait : (s.job t).pc = .block w ∨ (s.job t).pc = .asleep w) :
    CallInv (s.finish t w r) := by
  unfold CallSys.finish
  split
  · rename_i ep
    refine h.recvReturn hnot ((h.ok t).points.eq_none fun x hne => ?_)
    rcases hwait with hpc | hpc
    · refine ⟨fun hx => hne ep ?_, by simp [hpc]⟩
      rw [hpc] at hx
      cases hx
      rfl
    · refine ⟨by simp [hpc], fun hx => hne ep ?_⟩
      rw [hpc] at hx
      cases hx
      rfl
  · exact h.sendReturn hnot

end System

end Xnix
