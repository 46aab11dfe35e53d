import Xnix.Proofs.Counted
import Xnix.Proofs.Receive

/-!
# References to endpoints

An endpoint is referenced by handle entries, by the threads that acquired an entry and wait, and by
the threads in its queues; `Refs` counts them. Each primitive moves a reference from one to another,
so it neither faults nor loses one, as long as a thread whose timeout fires is still in its queue.
-/

namespace Xnix

open Function List Option Sys Thread

variable {Pid Oid Tid : Type} {b : Blocking Oid} {x : Hold Oid} {t u : Tid} {s s' : Sys Pid Oid Tid}
  {Q : Queue Oid → List Tid} {extra : List (Hold Oid)} {ep : Oid} {q : Queue Oid}

def Thread.hold (th : Thread Pid Oid Tid) : Option (Hold Oid) := th.pc.bind fun b => b.on.hold

section Refs
variable [DecidableEq Oid]

def holdWeight (x : Hold Oid) (y : Option (Hold Oid)) : ℕ := if y = some x then 1 else 0

def queueRefs (Q : Queue Oid → List Tid) (x : Hold Oid) : ℕ :=
  if x.1 = .endpoint then (Q (.send, x.2)).length + (Q (.recv, x.2)).length else 0

theorem queueRefs_update (hq : q = (.send, ep) ∨ q = (.recv, ep)) (Q : Queue Oid → List Tid)
    (l : List Tid) (x : Hold Oid) :
    queueRefs (update Q q l) x + (if x = (.endpoint, ep) then (Q q).length else 0)
      = queueRefs Q x + if x = (.endpoint, ep) then l.length else 0 := by
  obtain ⟨type, o⟩ := x
  unfold queueRefs
  by_cases htype : type = .endpoint
  · subst htype
    by_cases ho : o = ep
    · subst ho
      rcases hq with rfl | rfl <;> simp <;> omega
    · rcases hq with rfl | rfl <;> simp [ho, update]
  · simp [htype]

variable [Fintype Tid]

def Sys.held (s : Sys Pid Oid Tid) (x : Hold Oid) : ℕ := ∑ t, holdWeight x (s.thr t).hold

variable [Fintype Pid] [Fintype Oid]

/-- The references counted are those of the entries, the operation in the kernel, the blocked
threads and the queues; nobody has exited, no signal is pending, and only IPC blocks. -/
structure Refs (s : Sys Pid Oid Tid) (Q : Queue Oid → List Tid) (extra : List (Hold Oid)) :
    Prop where
  linked : Lib.Linked s.links Q
  sig : ∀ p, s.sig p = 0#32
  alive : ∀ t, (s.thr t).state ≠ .exited
  inOp : ∀ t b, (s.thr t).pc = some b → b.on.kind ≠ none
  quiet : ∀ t, (s.thr t).pc = none → (s.thr t).pendingWakeup = false
  ends : ∀ q, Q q ≠ [] → q.1 = .send ∨ q.1 = .recv
  refs : ∃ l, WorldBalanced ⟨s.kernel, l⟩ [] ∧
    ∀ x, l.count x = extra.count x + s.held x + queueRefs Q x

variable {L : Lib.Links (Queue Oid) Tid} {extra' : List (Hold Oid)}

theorem Refs.congr (h : Refs s Q extra) (hk : s'.kernel = s.kernel) (hl : s'.links = s.links)
    (hsig : s'.sig = s.sig) (hpc : ∀ t, (s'.thr t).pc = (s.thr t).pc)
    (hst : ∀ t, (s'.thr t).state ≠ .exited)
    (hpend : ∀ t, (s.thr t).pc = none → (s'.thr t).pendingWakeup = (s.thr t).pendingWakeup) :
    Refs s' Q extra := by
  have hheld : s'.held = s.held := by
    funext x
    simp only [held, hold, hpc]
  refine ⟨hl ▸ h.linked, hsig ▸ h.sig, hst, fun t b => ?_, fun t ht => ?_, h.ends, ?_⟩
  · rw [hpc]
    exact h.inOp t b
  · rw [hpc] at ht
    rw [hpend t ht]
    exact h.quiet t ht
  · rw [hk, hheld]
    exact h.refs

theorem Refs.typed (h : Refs s Q extra) (hx : 0 < extra.count x + s.held x + queueRefs Q x) :
    (s.kernel.typed x.1 x.2).isSome := by
  obtain ⟨l, hw, hl⟩ := h.refs
  refine hw.typed x (count_pos_iff.mp ?_)
  rw [hl]
  exact hx

theorem Refs.call (h : Refs s Q extra) {α : Type} {f : Option (Kernel Pid Oid × α)}
    (hf : ∀ ext, Balanced s.kernel ext [] → ∃ k' r, f = some (k', r) ∧ LiveKept s.kernel k' ∧
    Balanced k' ext []) :
    ∃ k' r, f = some (k', r) ∧ Refs { s with kernel := k' } Q extra := by
  obtain ⟨l, hw, hl⟩ := h.refs
  obtain ⟨k', r, hf, hkept, hb⟩ := hf _ hw.balanced
  exact ⟨k', r, hf, h.linked, h.sig, h.alive, h.inOp, h.quiet, h.ends, l, hw.after hkept hb, hl⟩

theorem Refs.put (h : Refs s Q (x :: extra)) :
    ∃ k, handleObjectPut s.kernel x.1 x.2 = some k ∧ Refs { s with kernel := k } Q extra := by
  obtain ⟨l, hw, hl⟩ := h.refs
  have hx : x ∈ l := count_pos_iff.mp (by rw [hl, count_cons_self]; omega)
  obtain ⟨k, hk, hw'⟩ := (hw.perm (perm_cons_erase hx)).put
  refine ⟨k, hk, h.linked, h.sig, h.alive, h.inOp, h.quiet, h.ends, l.erase x, hw', fun y => ?_⟩
  have hy := hl y
  by_cases hyx : y = x
  · subst hyx
    rw [count_cons_self] at hy
    rw [count_erase_self, hy]
    show _ = extra.count y + s.held y + queueRefs Q y
    omega
  · rw [count_cons_of_ne (Ne.symm hyx)] at hy
    rw [count_erase_of_ne hyx]
    exact hy

theorem Refs.get (h : Refs s Q (x :: extra)) : ∃ k, handleObjectGet s.kernel x.1 x.2 = some k ∧
      Refs { s with kernel := k } Q (x :: x :: extra) := by
  obtain ⟨l, hw, hl⟩ := h.refs
  have hx : x ∈ l := count_pos_iff.mp (by rw [hl, count_cons_self]; omega)
  obtain ⟨k, hk, hw'⟩ := hw.get hx
  refine ⟨k, hk, h.linked, h.sig, h.alive, h.inOp, h.quiet, h.ends, x :: l, hw', fun y => ?_⟩
  have hy := hl y
  show (x :: l).count y = (x :: x :: extra).count y + s.held y + queueRefs Q y
  simp only [count_cons] at hy ⊢
  omega

theorem Refs.move (h : Refs s Q extra) {Q' : Queue Oid → List Tid}
    (hlinked : Lib.Linked s'.links Q') (hk : s'.kernel = s.kernel) (hsig : s'.sig = s.sig)
    (hst : ∀ t, (s'.thr t).state ≠ .exited)
    (hinOp : ∀ t b, (s'.thr t).pc = some b → b.on.kind ≠ none)
    (hquiet : ∀ t, (s'.thr t).pc = none → (s'.thr t).pendingWakeup = false)
    (hends : ∀ q, Q' q ≠ [] → q.1 = .send ∨ q.1 = .recv)
    (hcount : ∀ x, extra'.count x + s'.held x + queueRefs Q' x
      = extra.count x + s.held x + queueRefs Q x) : Refs s' Q' extra' := by
  obtain ⟨l, hw, hl⟩ := h.refs
  refine ⟨hlinked, hsig ▸ h.sig, hst, hinOp, hquiet, hends, l, hk ▸ hw, fun x => ?_⟩
  rw [hl, hcount]

theorem Refs.requeue (h : Refs s Q extra) (hq : q = (.send, ep) ∨ q = (.recv, ep)) {l : List Tid}
    (hL : Lib.Linked L (update Q q l))
    (hcount : ∀ x, extra'.count x + (if x = (.endpoint, ep) then l.length else 0)
      = extra.count x + if x = (.endpoint, ep) then (Q q).length else 0) :
    Refs (s.setLinks L) (update Q q l) extra' := by
  refine h.move hL rfl rfl h.alive h.inOp h.quiet (fun q' hq' => ?_) fun x => ?_
  · by_cases hqq : q' = q
    · rcases hq with rfl | rfl
      · exact .inl (by rw [hqq])
      · exact .inr (by rw [hqq])
    · rw [update_of_ne hqq] at hq'
      exact h.ends q' hq'
  · have h1 := queueRefs_update hq Q l x
    have h2 := hcount x
    show extra'.count x + s.held x + _ = _
    omega

theorem Refs.dequeue (h : Refs s Q extra) (hq : q = (.send, ep) ∨ q = (.recv, ep)) {l : List Tid}
    (hL : Lib.Linked L (update Q q l)) (hl : (Q q).length = l.length + 1) :
    Refs (s.setLinks L) (update Q q l) ((.endpoint, ep) :: extra) := by
  refine h.requeue hq hL fun x => ?_
  by_cases hx : x = (.endpoint, ep)
  · subst hx
    simp
    omega
  · simp [hx, Ne.symm hx]

theorem Refs.endpointRef (h : Refs s Q ((.endpoint, ep) :: extra)) :
    ∃ k, s.endpointRef ep = some { s with kernel := k } ∧
      Refs { s with kernel := k } Q ((.endpoint, ep) :: (.endpoint, ep) :: extra) := by
  obtain ⟨k, hk, h'⟩ := h.get
  exact ⟨k, by rw [Sys.endpointRef, hk]; rfl, h'⟩

theorem Refs.endpointUnref (h : Refs s Q ((.endpoint, ep) :: extra)) :
    ∃ k, s.endpointUnref ep = some { s with kernel := k } ∧
    Refs { s with kernel := k } Q extra := by
  obtain ⟨k, hk, h'⟩ := h.put
  exact ⟨k, by rw [Sys.endpointUnref, hk]; rfl, h'⟩

theorem Refs.record (h : Refs s Q extra) (e : Event Pid Tid) : Refs (s.record e) Q extra :=
  h.congr rfl rfl rfl (fun _ => rfl) h.alive fun _ _ => rfl

variable [DecidableEq Tid]

/-- One thread starts or stops to hold a reference. -/
theorem Refs.change (h : Refs s Q extra) {th : Thread Pid Oid Tid}
    (hthr : s'.thr = update s.thr t th)
    (hlinks : s'.links = s.links) (hk : s'.kernel = s.kernel) (hsig : s'.sig = s.sig)
    (halive : th.state ≠ .exited)
    (hinOp : ∀ b, th.pc = some b → b.on.kind ≠ none)
    (hquiet : th.pc = none → th.pendingWakeup = false)
    (hcount : ∀ x, extra'.count x + holdWeight x th.hold =
    extra.count x + holdWeight x (s.thr t).hold) :
    Refs s' Q extra' := by
  refine h.move (hlinks ▸ h.linked) hk hsig ?_ ?_ ?_ h.ends fun x => ?_
  · rw [hthr, forall_update_iff s.thr fun _ th => th.state ≠ .exited]
    exact ⟨halive, fun u _ => h.alive u⟩
  · rw [hthr, forall_update_iff s.thr fun _ th => ∀ b, th.pc = some b → b.on.kind ≠ none]
    exact ⟨hinOp, fun u _ => h.inOp u⟩
  · rw [hthr, forall_update_iff s.thr fun _ th => th.pc = none → th.pendingWakeup = false]
    exact ⟨hquiet, fun u _ => h.quiet u⟩
  · have hheld := Lib.sum_weight_update s.thr (fun th => holdWeight x th.hold) t th
    have hx := hcount x
    simp only [held, hthr]
    omega

theorem Refs.modify (h : Refs s Q extra) (t : Tid) {f : Thread Pid Oid Tid → Thread Pid Oid Tid}
    (hf : ∀ th, (f th).pc = th.pc ∧ (f th).state = th.state ∧
      (f th).pendingWakeup = th.pendingWakeup) : Refs (s.modify t f) Q extra := by
  refine h.congr rfl rfl rfl (fun u => modify_field pc s t u fun th => (hf th).1)
    (fun u => ?_) fun u _ => modify_field pendingWakeup s t u fun th => (hf th).2.2
  rw [modify_field state s t u fun th => (hf th).2.1]
  exact h.alive u

theorem Refs.stampSender (h : Refs s Q extra) (src dst : Tid) :
    Refs (s.stampSender src dst) Q extra := h.modify dst fun _ => ⟨rfl, rfl, rfl⟩

theorem Refs.publish (h : Refs s Q extra) (t : Tid) : Refs (s.publish t) Q extra :=
  h.modify t fun _ => ⟨rfl, rfl, rfl⟩

theorem Refs.sleepAt (h : Refs s Q (x :: extra)) (hpc : (s.thr t).pc = none)
    (hk : b.on.kind ≠ none) (hx : b.on.hold = some x) : Refs (s.sleepAt t b) Q extra := by
  refine h.change rfl rfl rfl rfl nofun ?_ nofun fun y => ?_
  · rintro c ⟨⟩
    exact hk
  · simp [holdWeight, hold, hpc, hx, count_cons]

theorem Refs.resumed (h : Refs s Q extra) (hpc : (s.thr t).pc = some b)
    (hx : b.on.hold = some x) : Refs (s.modify t b.on.resumed) Q (x :: extra) := by
  have hkind := h.inOp t b hpc
  have hfields : (b.on.resumed (s.thr t)).pc = none ∧ (b.on.resumed (s.thr t)).state =
      (s.thr t).state ∧ (b.on.resumed (s.thr t)).pendingWakeup = false := by
    rcases hon : b.on with _ | _ | _ | _ | _ | _ | _ | _ | _ <;> simp_all [Wait.resumed, Wait.kind]
  obtain ⟨hnone, hst, hpend⟩ := hfields
  refine h.change rfl rfl rfl rfl (hst ▸ h.alive t) (fun c hc => ?_) (fun _ => hpend) fun y => ?_
  · rw [hnone] at hc
    cases hc
  · simp [holdWeight, Thread.hold, hnone, hpc, hx, count_cons]

theorem Refs.wakeup (h : Refs s Q extra) (hu : (s.thr u).pc ≠ none) :
    Refs (schedWakeupThread s u) Q extra := by
  refine h.congr rfl rfl rfl (fun t => ?_) (fun t => ?_) fun t ht => ?_
  · by_cases htu : t = u
    · subst htu
      rw [schedWakeupThread_thr_self]
    · rw [schedWakeupThread_thr_of_ne s htu]
  · by_cases htu : t = u
    · subst htu
      rw [schedWakeupThread_thr_ready s (h.alive t)]
      nofun
    · rw [schedWakeupThread_thr_of_ne s htu]
      exact h.alive t
  · by_cases htu : t = u
    · subst htu
      exact absurd ht hu
    · rw [schedWakeupThread_thr_of_ne s htu]

theorem Refs.enqueue (h : Refs s Q ((.endpoint, ep) :: extra))
    (hq : q = (.send, ep) ∨ q = (.recv, ep)) (ht : ∀ q, t ∉ Q q) :
    Refs (s.enqueue q t) (update Q q (t :: Q q)) extra := by
  refine h.requeue hq (h.linked.push ht) fun x => ?_
  by_cases hx : x = (.endpoint, ep)
  · subst hx
    simp
    omega
  · simp [hx, Ne.symm hx]

theorem Refs.withdraw (h : Refs s Q extra) (hq : q = (.send, ep) ∨ q = (.recv, ep))
    (ht : t ∈ Q q) : ∃ s' Q', s.withdraw q t = some s' ∧ Refs s' Q' ((.endpoint, ep) :: extra) := by
  obtain ⟨L, hL, hlinked⟩ := h.linked.unlink q t
  refine ⟨s.setLinks (L.clear t), _, by rw [Sys.withdraw, hL, map_some],
    h.dequeue hq (hlinked.clear (h.linked.mem_erase_iff ht).2) ?_⟩
  have hpos := length_pos_of_mem ht
  rw [length_erase_of_mem ht]
  omega

end Refs

section Returns
variable [DecidableEq Tid] [DecidableEq Pid] [DecidableEq Oid] [Fintype Tid] [Fintype Pid]
  [Fintype Oid]

theorem Refs.leave (h : Refs s Q extra) (t : Tid) (op : Option (OpKind × ℕ)) (r : ℤ) :
    Refs (s.leave t op r) Q extra := by
  have hret : Refs (s.returned t op r) Q extra := by
    refine Refs.modify ?_ t fun th => ⟨rfl, rfl, rfl⟩
    exact h.congr rfl rfl rfl (fun _ => rfl) h.alive fun _ _ => rfl
  have hleave : s.leave t op r = { s.returned t op r with
      sig := update (s.returned t op r).sig ((s.returned t op r).thr t).owner 0#32 } := by
    have hsig : ∀ p, (s.returned t op r).sig p = 0#32 := hret.sig
    unfold Sys.leave processCheckSignals
    simp only [hsig]
    rfl
  rw [hleave]
  refine hret.congr rfl rfl (funext fun p => ?_) (fun _ => rfl) hret.alive fun _ _ => rfl
  show update _ _ _ p = _
  rw [hret.sig]
  by_cases hp : p = ((s.returned t op r).thr t).owner
  · subst hp
    simp
  · rw [update_of_ne hp]
    exact hret.sig p

theorem Refs.putReturn (h : Refs s Q (x :: extra)) (t : Tid) (op : Option (OpKind × ℕ)) (r : ℤ) :
    ∃ s', s.putReturn t x op r = some s' ∧ Refs s' Q extra := by
  obtain ⟨k, hk, h'⟩ := h.put
  refine ⟨_, ?_, h'.leave t op r⟩
  rw [Sys.putReturn, hk]
  rfl

theorem Refs.sendReturn (h : Refs s Q ((.endpoint, ep) :: extra)) (t : Tid)
    (kind : OpKind) (r : ℤ) : ∃ s', s.sendReturn t ep kind r = some s' ∧ Refs s' Q extra :=
  (h.modify t (f := unpublished) fun _ => ⟨rfl, rfl, rfl⟩).putReturn t _ r

theorem Refs.recvReturn (h : Refs s Q ((.endpoint, ep) :: extra)) (t : Tid) (r : ℤ) :
    ∃ s', s.recvReturn t ep r = some s' ∧ Refs s' Q extra :=
  h.putReturn t _ r

theorem Refs.copyMsg (h : Refs s Q extra) (src dst : Tid) (m room : IpcMessage Pid Tid) :
    ∃ s', s.copyMsg src dst m room = some s' ∧ (∀ v, (s'.thr v).pc = (s.thr v).pc) ∧
    Refs s' Q extra := by
  obtain ⟨k, got, hk, h'⟩ := h.call fun ext hb => by
    obtain ⟨k', got, hk, hkept, hb'⟩ :=
      hb.ipcCopyHandles (s.thr src).owner (s.thr dst).owner m.handles
    exact ⟨k', got, hk, hkept.live, hb'⟩
  refine ⟨_, ?_, fun v => ?_, h'.modify dst
    (f := fun th => { th with buf := some (room.copyFrom m got) }) fun _ => ⟨rfl, rfl, rfl⟩⟩
  · rw [Sys.copyMsg, hk, map_some]
  · exact modify_field pc _ dst v fun _ => rfl

end Returns

section Operations
variable [DecidableEq Tid] [DecidableEq Oid] [Fintype Tid] [Fintype Pid] [Fintype Oid]

theorem Refs.wakeQueued (h : Refs s Q extra) (hu : (s.thr u).pc ≠ none) :
    s.wakeQueued u = some (schedWakeupThread s u) ∧ Refs (schedWakeupThread s u) Q extra :=
  ⟨if_neg (h.alive u), h.wakeup hu⟩

theorem Refs.block (h : Refs s Q (x :: extra)) (hpc : (s.thr t).pc = none)
    (hk : b.on.kind ≠ none) (hx : b.on.hold = some x)
    (goOn : Sys Pid Oid Tid → Option (Sys Pid Oid Tid)) :
    ∃ s', s.block t b goOn = some s' ∧ Refs s' Q extra := by
  refine ⟨s.sleepAt t b, ?_, h.sleepAt hpc hk hx⟩
  rw [Sys.block, if_neg (by rw [h.quiet t hpc]; exact Bool.false_ne_true)]

theorem Refs.release (h : Refs s Q extra) (hu : (s.thr u).pc ≠ none) :
    Refs (s.release u) Q extra := by
  unfold Sys.release
  split_ifs
  · refine (h.modify u (f := unpublished) fun _ => ⟨rfl, rfl, rfl⟩).wakeup ?_
    rw [modify_thr_self]
    exact hu
  · exact h

variable [DecidableEq Pid] {m room : IpcMessage Pid Tid}

theorem Refs.handOver (h : Refs s Q extra) {r : Tid} (hh : s.links.head (.recv, ep) = some r)
    (hpc : (s.thr r).pc ≠ none) (hroom : (s.thr r).replyTarget = some room) :
    ∃ s' Q', s.handOver t r ep m = some s' ∧ Refs s' Q' extra := by
  obtain ⟨l, hl, -, -⟩ := h.linked.of_head_some hh
  have h1 := h.dequeue (.inr rfl) (h.linked.drop hl) (by rw [hl, length_cons])
  obtain ⟨k, hk, h2⟩ := h1.endpointUnref
  obtain ⟨s1, hcopy, hpc1, h3⟩ := h2.copyMsg t r m room
  have hpc2 : ((s1.stampSender t r).thr r).pc ≠ none := by
    rw [Sys.stampSender, modify_thr_self]
    exact (hpc1 r).trans_ne hpc
  obtain ⟨hwake, h4⟩ := ((h3.stampSender t r).record _).wakeQueued hpc2
  refine ⟨_, _, ?_, h4⟩
  simp only [Sys.handOver, bind_eq_bind]
  rw [hk, bind_some]
  show (s.thr r).replyTarget.bind _ = _
  rw [hroom, bind_some, hcopy, bind_some]
  exact hwake

theorem Refs.ipcSendToEp (h : Refs s Q ((.endpoint, ep) :: extra)) {kind : OpKind}
    {timeout : ℕ} (hpc : (s.thr t).pc = none) (ht : ∀ q, t ∉ Q q)
    (hroom : ∀ r ∈ Q (.recv, ep), (s.thr r).pc ≠ none ∧ ∃ room, (s.thr r).replyTarget = some room) :
    ∃ s' Q', Xnix.ipcSendToEp s t ep kind m timeout = some s' ∧ Refs s' Q' extra := by
  unfold Xnix.ipcSendToEp
  split
  · rename_i r hh
    obtain ⟨l, hl, -, -⟩ := h.linked.of_head_some hh
    have hr : r ∈ Q (.recv, ep) := by rw [hl]; exact mem_cons_self
    obtain ⟨hrpc, room, hroom⟩ := hroom r hr
    obtain ⟨s1, Q1, hs1, h1⟩ := h.handOver hh hrpc hroom
    have hpc1 : (s1.thr t).pc = none := by
      rw [pc_of_ident (handOver_ident hs1 t)]
      exact hpc
    rw [hs1, bind_some]
    split_ifs
    · obtain ⟨s2, hs2, h2⟩ := h1.putReturn t (some (kind, (s1.thr t).op)) 0
      exact ⟨s2, Q1, hs2, h2⟩
    · have hpc2 : ((s1.publish t).thr t).pc = none := by
        rw [Sys.publish, modify_thr_self]
        exact hpc1
      obtain ⟨s2, hs2, h2⟩ :=
        (h1.publish t).block hpc2 (b := ⟨.callSent ep, timeout⟩) (some_ne_none _) rfl _
      exact ⟨s2, Q1, hs2, h2⟩
  · obtain ⟨k, hk, h1⟩ := h.endpointRef
    rw [hk, bind_some]
    have h2 := (h1.enqueue (.inl rfl) ht).publish t
    have hpc2 : ((({ s with kernel := k }.enqueue (.send, ep) t).publish t).thr t).pc = none := by
      rw [Sys.publish, modify_thr_self]
      exact hpc
    by_cases hone : m.isOneWay
    · rw [if_pos hone]
      obtain ⟨s2, hs2, h2⟩ := h2.block hpc2 (b := ⟨.sendQueued ep, timeout⟩) (some_ne_none _) rfl _
      exact ⟨s2, _, hs2, h2⟩
    · rw [if_neg hone]
      obtain ⟨s2, hs2, h2⟩ := h2.block hpc2 (b := ⟨.callQueued ep, timeout⟩) (some_ne_none _) rfl _
      exact ⟨s2, _, hs2, h2⟩

theorem Refs.takeMsg (h : Refs s Q extra) (hreq : (s.thr u).ipcReqMsg = some (s.thr u).op)
    (hm : (s.thr u).reqTarget = some m) (hroom : (s.thr t).buf = some room) :
    ∃ s', s.takeMsg t u = some s' ∧ Refs s' Q extra := by
  obtain ⟨s1, hcopy, -, h1⟩ := h.copyMsg u t m room
  unfold Sys.takeMsg
  rw [hreq]
  simp only [hm, hroom, bind_eq_bind, bind_some, hcopy]
  exact ⟨_, rfl, h1.record _⟩

theorem Refs.takeFrom (h : Refs s Q extra) (hh : s.links.head (.send, ep) = some u)
    (hpc : (s.thr u).pc ≠ none) (hreq : (s.thr u).ipcReqMsg = some (s.thr u).op)
    (hm : (s.thr u).reqTarget = some m) (hroom : (s.thr t).buf = some room) :
    ∃ s' Q', s.takeFrom t u ep = some s' ∧ Refs s' Q' extra := by
  obtain ⟨l, hl, -, -⟩ := h.linked.of_head_some hh
  have h1 := h.dequeue (.inl rfl) (h.linked.drop hl) (by rw [hl, length_cons])
  obtain ⟨k, hk, h2⟩ := h1.endpointUnref
  obtain ⟨s1, hs1, h3⟩ := h2.takeMsg hreq hm hroom
  have hpc1 : ((s1.stampSender u t).thr u).pc ≠ none := by
    have hst : ((s1.stampSender u t).thr u).pc = (s1.thr u).pc :=
      modify_field pc s1 t u fun _ => rfl
    rw [hst, pc_of_ident (takeMsg_ident hs1 u)]
    exact hpc
  refine ⟨_, _, ?_, (h3.stampSender u t).release hpc1⟩
  rw [Sys.takeFrom, if_neg (h.alive u), hk, bind_some, hs1, map_some]

theorem Refs.ipcReceive (h : Refs s Q ((.endpoint, ep) :: extra))
    {timeout : ℕ} (hpc : (s.thr t).pc = none) (ht : ∀ q, t ∉ Q q)
    (hroom : (s.thr t).buf = some room)
    (hmsg : ∀ u ∈ Q (.send, ep), (s.thr u).pc ≠ none ∧
      (s.thr u).ipcReqMsg = some (s.thr u).op ∧ ∃ m, (s.thr u).reqTarget = some m) :
    ∃ s' Q', Xnix.ipcReceive s t ep timeout = some s' ∧ Refs s' Q' extra := by
  unfold Xnix.ipcReceive
  split
  · rename_i u hh
    obtain ⟨l, hl, -, -⟩ := h.linked.of_head_some hh
    have hu : u ∈ Q (.send, ep) := by rw [hl]; exact mem_cons_self
    obtain ⟨hupc, hreq, m, hm⟩ := hmsg u hu
    obtain ⟨s1, Q1, hs1, h1⟩ := h.takeFrom hh hupc hreq hm hroom
    obtain ⟨s2, hs2, h2⟩ := h1.recvReturn t 0
    exact ⟨s2, Q1, by rw [hs1, bind_some, hs2], h2⟩
  · obtain ⟨k, hk, h1⟩ := h.endpointRef
    rw [hk, bind_some]
    have h2 := (h1.enqueue (.inr rfl) ht).modify t
      (f := fun th => { th with ipcReplyMsg := some th.op }) fun _ => ⟨rfl, rfl, rfl⟩
    obtain ⟨s2, hs2, h2⟩ := h2.block (by rw [modify_thr_self]; exact hpc)
      (b := ⟨.recv ep, timeout⟩) nofun rfl _
    exact ⟨s2, _, hs2, h2⟩

theorem Refs.answer (h : Refs s Q extra) {request : ℕ} (hpc : (s.thr u).pc ≠ none)
    (hreply : (s.thr u).ipcReplyMsg = some (s.thr u).op) (hroom : (s.thr u).replyTarget = some room)
    :
    ∃ s', s.answer t u m request = some s' ∧ Refs s' Q extra := by
  obtain ⟨s1, hcopy, hpc1, h1⟩ := h.copyMsg t u m room
  have hs : s.copyReply t u m request = some (s1.record (.replied (s1.thr u).op request)) := by
    unfold copyReply
    rw [hreply]
    simp only [hroom, bind_eq_bind, bind_some, hcopy]
  refine ⟨_, by rw [Sys.answer, hs]; rfl, Refs.wakeup ?_ ?_⟩
  · exact (h1.record _).modify u fun _ => ⟨rfl, rfl, rfl⟩
  · rw [modify_thr_self]
    exact (hpc1 u).trans_ne hpc

theorem Refs.withHandle (h : Refs s Q extra) {n : ℕ} {type : HandleType}
    {op : Option (OpKind × ℕ)} {err : ℤ}
    {go : Sys Pid Oid Tid → HandleEntry Oid → Option (Sys Pid Oid Tid)}
    (hgo : ∀ k e, Refs { s with kernel := k } Q ((type, e.object) :: extra) →
      ∃ s' Q', go { s with kernel := k } e = some s' ∧ Refs s' Q' extra) :
    ∃ s' Q', s.withHandle t n type op err go = some s' ∧ Refs s' Q' extra := by
  obtain ⟨l, hw, hl⟩ := h.refs
  obtain ⟨k, r, hk, hr⟩ := hw.acquire (s.thr t).owner n type
  rw [Sys.withHandle, hk, bind_some]
  rcases hr with ⟨rfl, rfl⟩ | ⟨e, rfl, rfl, hw'⟩
  · exact ⟨_, Q, rfl, h.leave t op err⟩
  · refine hgo k e ⟨h.linked, h.sig, h.alive, h.inOp, h.quiet, h.ends, e.hold :: l, hw',
      fun x => ?_⟩
    have hx := hl x
    show (e.hold :: l).count x = (e.hold :: extra).count x + s.held x + queueRefs Q x
    rw [count_cons, count_cons]
    omega

end Operations

end Xnix
