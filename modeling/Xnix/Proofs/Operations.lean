import Xnix.Proofs.StepMoves

/-!
# Operations in progress

A thread is in an operation from the start of a send, call or receive to its return. Most moves do
not touch the operations: a thread that waits in one keeps its messages, and starts to run only when
its timeout fires. Operations have different numbers, and the log of an operation that is in
progress has no return.
-/

namespace Xnix

open List Thread Sys

variable {Pid Oid Tid : Type} {b : Blocking Oid} {q : Queue Oid}
  {f : Thread Pid Oid Tid → Thread Pid Oid Tid} {t u : Tid} {e : Event Pid Tid}
  {th th' : Thread Pid Oid Tid} {s s' : Sys Pid Oid Tid} {Q : Queue Oid → List Tid}
  {ok : Sys Pid Oid Tid → Action Pid Oid Tid → Prop} {ph ph' : Phase Tid}

def Thread.InOp (th : Thread Pid Oid Tid) : Prop := ∃ b, th.pc = some b ∧ b.on.kind ≠ none

def Thread.view (th : Thread Pid Oid Tid) :
    ℕ × Option (Blocking Oid) × Option (IpcMessage Pid Tid) × Option (IpcMessage Pid Tid) ×
      Option ℕ × Option ℕ :=
  (th.op, th.pc, th.req, th.buf, th.ipcReqMsg, th.ipcReplyMsg)

/-- Nothing happens to the operation of a thread, except that its timeout may fire. -/
structure Still (th th' : Thread Pid Oid Tid) : Prop where
  op : th'.op = th.op
  keeps : th.InOp → th'.InOp
  view : th'.InOp → th'.view = th.view
  blocked : th'.InOp → th'.state = .blocked → th.state = .blocked
  ready : ∀ b, th'.pc = some b → b.on.kind ≠ none → th'.state = .ready →
    th.state = .ready ∧ th'.wakeupTick = th.wakeupTick ∨ b.expired th'


theorem Still.of_eq (h : th' = th) : Still th th' := by
  subst h
  exact ⟨rfl, id, fun _ => rfl, fun _ hb => hb, fun _ _ _ hr => .inl ⟨hr, rfl⟩⟩

theorem Still.of_not_inOp (hop : th'.op = th.op) (h0 : ¬ th.InOp) (h : ¬ th'.InOp) : Still th th' :=
  ⟨hop, fun hi => absurd hi h0, fun hi => absurd hi h, fun hi => absurd hi h,
    fun b hb hk => absurd ⟨b, hb, hk⟩ h⟩

theorem Thread.InOp.of_view (h : th'.InOp) (hv : th'.view = th.view) : th.InOp := by
  simp only [view, Prod.mk.injEq] at hv
  obtain ⟨b, hb, hk⟩ := h
  exact ⟨b, hv.2.1 ▸ hb, hk⟩

theorem Still.of_state (hview : th'.view = th.view)
    (hstate : th'.state = th.state ∨ th'.state = .exited)
    (htick : th'.wakeupTick = th.wakeupTick) : Still th th' := by
  refine ⟨congrArg Prod.fst hview, fun hi => hi.of_view hview.symm, fun _ => hview,
    fun _ hb => ?_, fun _ _ _ hr => .inl ?_⟩
  · rcases hstate with h | h
    · exact h ▸ hb
    · rw [h] at hb
      cases hb
  · rcases hstate with h | h
    · exact ⟨h ▸ hr, htick⟩
    · rw [h] at hr
      cases hr

theorem not_inOp_of_pc (h : th.pc = none) : ¬ th.InOp := by
  rintro ⟨b, hb, -⟩
  rw [h] at hb
  cases hb

theorem not_inOp_of_kind (h : th.pc = some b) (hk : b.on.kind = none) : ¬ th.InOp := by
  rintro ⟨b', hb', hk'⟩
  rw [h] at hb'
  cases hb'
  exact hk' hk

theorem Still.pc (h : Still th th') (hb : th'.pc = some b) (hk : b.on.kind ≠ none) :
    th.pc = some b := by
  have hv := h.view ⟨b, hb, hk⟩
  simp only [Thread.view, Prod.mk.injEq] at hv
  exact hv.2.1 ▸ hb

theorem Still.buf (h : Still th th') (hi : th'.InOp) : th'.buf = th.buf := by
  have hv := h.view hi
  simp only [Thread.view, Prod.mk.injEq] at hv
  exact hv.2.2.2.1

theorem Still.wakes (h : Still th th') (hb : th'.pc = some b) (hk : b.on.kind ≠ none)
    (hr : th'.state = .ready) :
    b.expired th' ∨ th.state = .ready ∧ b.expired th' = b.expired th := by
  rcases h.ready b hb hk hr with ⟨hr', ht⟩ | hx
  · refine .inr ⟨hr', ?_⟩
    unfold Blocking.expired
    rw [ht]
  · exact .inl hx

theorem Still.trans {th'' : Thread Pid Oid Tid} (h : Still th th') (h' : Still th' th'') :
    Still th th'' := by
  have hin : th''.InOp → th'.InOp := fun hi => hi.of_view (h'.view hi)
  refine ⟨h'.op.trans h.op, fun hi => h'.keeps (h.keeps hi),
    fun hi => (h'.view hi).trans (h.view (hin hi)),
    fun hi hb => h.blocked (hin hi) (h'.blocked hi hb), fun b hb hk hr => ?_⟩
  rcases h'.ready b hb hk hr with ⟨hr', ht'⟩ | hx
  · rcases h.ready b (h'.pc hb hk) hk hr' with ⟨hr, ht⟩ | hx
    · exact .inl ⟨hr, ht'.trans ht⟩
    · refine .inr ?_
      unfold Blocking.expired at hx ⊢
      rw [ht']
      exact hx
  · exact .inr hx

theorem Wait.kind_eq_none_of_queue {w : Wait Oid} (h : w.queue = some q)
    (hq : q.1 = .wait ∨ q.1 = .read ∨ q.1 = .write) : w.kind = none := by
  cases w <;> simp_all [Wait.queue, Wait.kind]
  all_goals
    subst h
    simp at hq

theorem Wait.kind_of_queue {w : Wait Oid} (h : w.queue = some q) (hq : q.1 = .send ∨ q.1 = .recv) :
    w.kind ≠ none := by
  cases w <;> simp_all [Wait.queue, Wait.kind]
  all_goals
    subst h
    simp at hq

def Event.Concerns (n : ℕ) : Event Pid Tid → Prop
  | .took k _ r _ => k = n ∨ r = n
  | .replied c _ => c = n
  | .ret _ (some (_, k)) _ _ => k = n
  | .ret _ none _ _ | .copied _ _ => False

def Event.Idle (e : Event Pid Tid) : Prop := ∀ n, ¬ e.Concerns n

structure Quiet (s s' : Sys Pid Oid Tid) : Prop where
  still : ∀ u, Still (s.thr u) (s'.thr u)
  nextOp : s'.nextOp = s.nextOp
  log : ∃ l, s'.log = l ++ s.log ∧ ∀ e ∈ l, e.Idle

section Moves

theorem Quiet.of_still (h : ∀ u, Still (s.thr u) (s'.thr u)) (hn : s'.nextOp = s.nextOp)
    (hl : s'.log = s.log) : Quiet s s' :=
  ⟨h, hn, [], by simpa using hl, nofun⟩

theorem QueueInv.not_inOp (hq : QueueInv s Q) (hk : q.1 = .wait ∨ q.1 = .read ∨ q.1 = .write)
    (hu : u ∈ Q q) : ¬ (s.thr u).InOp := by
  obtain ⟨b, hb, hbq, -⟩ := hq.waits q u hu
  exact not_inOp_of_kind hb (Wait.kind_eq_none_of_queue hbq hk)

variable [DecidableEq Tid]

theorem tick_still (hq : QueueInv s Q) (u : Tid) : Still (s.thr u) (s.tick.thr u) := by
  have hthr : s.tick.thr u = if u ∈ s.blocked ∧ (s.thr u).due (s.now + 1) then
      { s.thr u with wakeupTick := 0, state := .ready } else s.thr u := rfl
  rw [hthr]
  split_ifs with h
  · refine ⟨rfl, id, fun _ => rfl, nofun, fun b hb hk _ => .inr ?_⟩
    have hdue := h.2
    simp only [due, Bool.and_eq_true, bne_iff_ne] at hdue
    obtain ⟨b', hb', hd⟩ := (hq.sound u).deadline hdue.1
    rw [show (s.thr u).pc = some b from hb] at hb'
    cases hb'
    rcases hd with hd | hd
    · rw [hd] at hk
      exact absurd rfl hk
    · simp [Blocking.expired, hd.1, hd.2]
  · exact .of_eq rfl

theorem modify_still (s : Sys Pid Oid Tid) (t u : Tid)
    (hf : Still (s.thr t) (f (s.thr t))) :
    Still (s.thr u) ((s.modify t f).thr u) := by
  by_cases h : u = t
  · subst h
    rw [modify_thr_self]
    exact hf
  · exact .of_eq (modify_thr_of_ne s f h)

theorem sleepAt_still (s : Sys Pid Oid Tid) (t u : Tid) (hpc : (s.thr t).pc = none)
    (hb : b.on.kind = none) : Still (s.thr u) ((s.sleepAt t b).thr u) := by
  by_cases h : u = t
  · subst h
    rw [sleepAt_thr_self]
    exact .of_not_inOp rfl (not_inOp_of_pc hpc) (not_inOp_of_kind rfl hb)
  · exact .of_eq (sleepAt_thr_of_ne s b h)

theorem schedWakeupThread_still (s : Sys Pid Oid Tid) (t u : Tid) (ht : ¬ (s.thr t).InOp) :
    Still (s.thr u) ((schedWakeupThread s t).thr u) := by
  by_cases h : u = t
  · subst h
    rw [schedWakeupThread_thr_self]
    exact .of_not_inOp rfl ht ht
  · exact .of_eq (schedWakeupThread_thr_of_ne s h)

theorem wakeAll_still :
    ∀ {us : List Tid} {s : Sys Pid Oid Tid}, s.wakeAll f us = some s' → (∀ th, Still th (f th)) →
      (∀ u ∈ us, ¬ (s.thr u).InOp) → Quiet s s'
  | [], _, h, _, _ => by
    cases h
    exact .of_still (fun _ => .of_eq rfl) rfl rfl
  | v :: us, s, h, hf, hus => by
    obtain ⟨_, h1, h⟩ := Option.bind_eq_some_iff.mp h
    obtain ⟨-, rfl⟩ := wakeQueued_eq_some h1
    have hnote : ∀ u, Still (s.thr u) ((s.modify v f).thr u) := fun u => modify_still s v u (hf _)
    have hv : ¬ ((s.modify v f).thr v).InOp :=
      fun hi => hus v (by simp) (hi.of_view ((hnote v).view hi))
    have hstill := fun u => (hnote u).trans (schedWakeupThread_still (s.modify v f) v u hv)
    have hquiet := wakeAll_still h hf fun u hu hi =>
      hus u (by simp [hu]) (hi.of_view ((hstill u).view hi))
    exact ⟨fun u => (hstill u).trans (hquiet.still u), hquiet.nextOp, hquiet.log⟩

theorem leave_still [DecidableEq Pid] (hr : Running s Q t) (op : Option (OpKind × ℕ)) (r : ℤ) :
    (∀ u, Still (s.thr u) ((s.leave t op r).thr u)) ∧ (s.leave t op r).nextOp = s.nextOp ∧
      (s.leave t op r).log = .ret t op r (s.thr t).buf :: s.log := by
  obtain ⟨s1, sig, stopped, hs1, h⟩ := leave_cases s t op r
  have hself : (s1.thr t) = { s.thr t with req := none, buf := none } := by
    rw [hs1]
    simp [Sys.returned, Sys.record, Sys.modify]
  have hne : ∀ u, u ≠ t → s1.thr u = s.thr u := fun u hu => by
    rw [hs1]
    simp [Sys.returned, Sys.record, Sys.modify, hu]
  have hpc : (s1.thr t).pc = none := by
    rw [hself]
    exact hr.pc
  have hstill : ∀ u, Still (s.thr u) (s1.thr u) := fun u => by
    by_cases hu : u = t
    · subst hu
      exact .of_not_inOp (by rw [hself]) (not_inOp_of_pc hr.pc) (not_inOp_of_pc hpc)
    · exact .of_eq (hne u hu)
  have hrest : s1.nextOp = s.nextOp ∧ s1.log = .ret t op r (s.thr t).buf :: s.log := by
    rw [hs1]
    exact ⟨rfl, rfl⟩
  rcases h with h | h | h | h <;> rw [h]
  · exact ⟨hstill, hrest⟩
  · refine ⟨fun u => (hstill u).trans (modify_still s1 t u ?_), hrest⟩
    exact .of_state rfl (.inl rfl) rfl
  · exact ⟨fun u => (hstill u).trans (sleepAt_still s1 t u hpc rfl), hrest⟩
  · refine ⟨fun u => (hstill u).trans ?_, hrest⟩
    show Still _ (if (s1.thr u).owner = (s.thr t).owner then _ else _)
    split_ifs
    · exact .of_state rfl (.inr rfl) rfl
    · exact .of_eq rfl

theorem kill_quiet [DecidableEq Pid] (hq : QueueInv s Q) {p : Pid} {sig : ℕ}
    (hsig : ¬ (sig < 1 ∨ nSig ≤ sig)) (hproc : (s.kernel.proc p).isSome) :
    Quiet s (processKillOne s p sig) ∨
    ∃ u, (Cmd.kill p sig : Cmd Pid Oid Tid).kills s = some u ∧ (s.thr u).state = .blocked ∧
      (s.thr u).InOp ∧ (∀ v, v ≠ u → (processKillOne s p sig).thr v = s.thr v) ∧
      (processKillOne s p sig).thr u = { s.thr u with pendingWakeup := true, state := .ready } ∧
      (processKillOne s p sig).nextOp = s.nextOp ∧ (processKillOne s p sig).log = s.log := by
  obtain ⟨pr, hpr⟩ := Option.isSome_iff_exists.mp hproc
  obtain ⟨s1, hkill, hthr, hthreads, hblocked, hnext, hlog⟩ : ∃ s1 : Sys Pid Oid Tid,
      processKillOne s p sig = s1.wakeFirst p ∧ s1.thr = s.thr ∧ s1.threads = s.threads ∧
      s1.blocked = s.blocked ∧ s1.nextOp = s.nextOp ∧ s1.log = s.log := by
    unfold processKillOne
    split_ifs
    · exact ⟨_, rfl, rfl, rfl, rfl, rfl, rfl⟩
    · exact ⟨_, rfl, rfl, rfl, rfl, rfl, rfl⟩
  rw [hkill]
  unfold wakeFirst
  rw [hthreads]
  split
  · rename_i u hhead
    have hself := schedWakeupThread_thr_self s1 u
    have hne : ∀ v, v ≠ u → (schedWakeupThread s1 u).thr v = s.thr v := fun v hv => by
      rw [schedWakeupThread_thr_of_ne s1 hv, hthr]
    rw [hthr, hblocked] at hself
    by_cases hin : (s.thr u).InOp
    · by_cases hb : (s.thr u).state = .blocked
      · rw [if_pos (.inr hb)] at hself
        refine .inr ⟨u, ?_, hb, hin, hne, hself, hnext, hlog⟩
        rw [Cmd.kills, if_neg hsig, hpr]
        exact hhead
      · rw [if_neg (fun h => h.elim (fun h => hb ((hq.onList u).mp h)) hb)] at hself
        refine .inl (.of_still (fun v => ?_) hnext hlog)
        by_cases hv : v = u
        · subst hv
          rw [hself]
          exact .of_state rfl (.inl rfl) rfl
        · exact .of_eq (hne v hv)
    · refine .inl (.of_still (fun v => ?_) hnext hlog)
      rw [← hthr]
      exact schedWakeupThread_still s1 u v (by rw [hthr]; exact hin)
  · exact .inl (.of_still (fun v => by rw [hthr]; exact .of_eq rfl) hnext hlog)

end Moves

section Quiet
variable [DecidableEq Tid] [DecidableEq Pid] [DecidableEq Oid] [Fintype Tid]

def Phase.Idle : Phase Tid → Prop
  | .ipc _ _ _ => False
  | _ => True

/-- Outside the operations only replies and signals touch a thread in an operation. -/
theorem Move.quiet (hm : Move ok ph s ph' s') (hq : QueueInv s Q)
    (hr : ∀ t, ph.thread = some t → Running s Q t) (hi : ph.Idle) (hi' : ph'.Idle) :
    Quiet s s' ∨
    (∃ t c u request m, ok s (.run t c) ∧ c.answers s t = some (u, request) ∧
      u ∈ s.blocked ∧ s.answer t u m request = some s') ∨
    (∃ t c u, ok s (.run t c) ∧ c.kills s = some u ∧ (s.thr u).state = .blocked ∧
      (s.thr u).InOp ∧ (∀ v, v ≠ u → s'.thr v = s.thr v) ∧
      s'.thr u = { s.thr u with pendingWakeup := true, state := .ready } ∧
      s'.nextOp = s.nextOp ∧ s'.log = s.log) := by
  have same : (∀ u, s'.thr u = s.thr u) → s'.nextOp = s.nextOp → s'.log = s.log → Quiet s s' :=
    fun h hn hl => .of_still (fun u => .of_eq (h u)) hn hl
  cases hm with
  | tick => exact .inl (.of_still (tick_still hq) rfl rfl)
  | enter | handles | contents | newObject | back => exact .inl (same (fun _ => rfl) rfl rfl)
  | begin | expired | withdrawn => exact absurd hi' id
  | @answer _ _ t c u request m hc _ _ hans hu h =>
    exact .inr (.inl ⟨t, c, u, request, m, hc, hans, hu, h⟩)
  | @kill _ t p sig hc _ _ hsig hproc =>
    rcases kill_quiet hq hsig hproc with h | ⟨u, hu⟩
    · exact .inl h
    · exact .inr (.inr ⟨t, _, u, hc, hu⟩)
  | @woken _ t b hready hpc hexp =>
    have hkind : b.on.kind = none := by
      by_contra hk
      obtain ⟨kind, hkind⟩ := Option.ne_none_iff_exists'.mp hk
      rw [Wait.phase, hkind] at hi'
      exact hi'
    refine .inl (.of_still (fun u => modify_still s t u (.of_not_inOp ?_
      (not_inOp_of_kind hpc hkind) (not_inOp_of_pc ?_))) rfl rfl)
    all_goals cases b.on <;> rfl
  | @copied _ t bytes =>
    refine .inl ⟨fun _ => .of_eq rfl, rfl, [.copied t bytes], rfl, fun e he => ?_⟩
    rw [mem_singleton.mp he]
    exact fun _ => id
  | notified | answered =>
    refine .inl (.of_still (fun u => modify_still s _ u ?_) rfl rfl)
    exact .of_state rfl (.inl rfl) rfl
  | @drain _ _ t q hkind h =>
    have hquiet := wakeAll_still h (fun _ => .of_eq rfl) fun u hu => by
      rw [(hq.linked.takeAll q).1] at hu
      exact hq.not_inOp (.inr hkind) hu
    exact .inl ⟨hquiet.still, hquiet.nextOp, hquiet.log⟩
  | @signal _ _ t o bits h =>
    unfold eventSignalByPtr at h
    split at h
    · cases h
      exact .inl (same (fun _ => rfl) rfl rfl)
    · have hquiet := wakeAll_still h (fun _ => .of_state rfl (.inl rfl) rfl) fun u hu => by
        rw [(hq.linked.takeAll (.wait, o)).1] at hu
        exact hq.not_inOp (.inl rfl) hu
      exact .inl ⟨hquiet.still, hquiet.nextOp, hquiet.log⟩
  | @waitObject _ t w q hw hwq =>
    exact .inl (.of_still (fun u => sleepAt_still (s.enqueue q t) t u (hr t rfl).pc hw) rfl rfl)
  | @sleep _ t ticks =>
    exact .inl (.of_still (fun u => sleepAt_still s t u (hr t rfl).pc rfl) rfl rfl)
  | @finish _ t r =>
    obtain ⟨hstill, hnext, hlog⟩ := leave_still (hr t rfl) none r
    refine .inl ⟨hstill, hnext, [_], hlog, fun e he => ?_⟩
    rw [mem_singleton.mp he]
    exact fun _ => id
  | _ => exact absurd hi id

end Quiet

section Numbers

def Busy (ph : Phase Tid) (s : Sys Pid Oid Tid) (t : Tid) : Prop :=
  (∃ kind stage, ph = .ipc t kind stage) ∨ (s.thr t).InOp

def Event.Returns (n : ℕ) : Event Pid Tid → Prop
  | .ret _ (some (_, k)) _ _ => k = n
  | _ => False

theorem Event.Returns.concerns {n : ℕ} (h : e.Returns n) : e.Concerns n := by
  cases e with
  | ret t op r buf =>
    cases op with
    | none => exact h.elim
    | some op => exact h
  | _ => exact h.elim

/-- Operations have different numbers, and one that is in progress has not returned. -/
structure OpInv (ph : Phase Tid) (s : Sys Pid Oid Tid) : Prop where
  bound : ∀ t, (s.thr t).op < s.nextOp
  inj : ∀ t u, (s.thr t).op = (s.thr u).op → (s.thr t).op ≠ 0 → t = u
  pos : ∀ t, Busy ph s t → (s.thr t).op ≠ 0
  below : ∀ e ∈ s.log, ∀ n, e.Concerns n → n < s.nextOp
  unreturned : ∀ t, Busy ph s t → ∀ e ∈ s.log, ¬ e.Returns (s.thr t).op

variable {l : List (Event Pid Tid)}

theorem OpInv.op_ne (h : OpInv ph s) (ht : Busy ph s t) (hne : u ≠ t) :
    (s.thr u).op ≠ (s.thr t).op := fun heq =>
  hne (h.inj t u heq.symm (h.pos t ht)).symm

section
variable (h : OpInv ph s) (hop : ∀ u, (s'.thr u).op = (s.thr u).op) (hnext : s'.nextOp = s.nextOp)
  (hbusy : ∀ u, Busy ph' s' u → Busy ph s u)
include h hop hnext hbusy

theorem OpInv.extend (hlog : s'.log = l ++ s.log)
    (hl : ∀ e ∈ l, (∀ n, e.Concerns n → n < s.nextOp) ∧ ∀ t, Busy ph' s' t →
    ¬ e.Returns (s.thr t).op) :
    OpInv ph' s' := by
  refine ⟨fun t => ?_, fun t u => ?_, fun t ht => ?_, fun e he => ?_, fun t ht e he => ?_⟩
  · rw [hop, hnext]
    exact h.bound t
  · rw [hop, hop]
    exact h.inj t u
  · rw [hop]
    exact h.pos t (hbusy t ht)
  · rw [hlog, mem_append] at he
    rw [hnext]
    exact he.elim (fun he => (hl e he).1) (h.below e)
  · rw [hlog, mem_append] at he
    rw [hop]
    exact he.elim (fun he => (hl e he).2 t ht) (h.unreturned t (hbusy t ht) e)

theorem OpInv.same (hlog : s'.log = s.log) : OpInv ph' s' :=
    h.extend hop hnext hbusy (l := []) hlog nofun

end

theorem OpInv.quiet (h : OpInv ph s) (hs : Quiet s s')
    (hph : ∀ t kind stage, ph' = .ipc t kind stage → ph = .ipc t kind stage) : OpInv ph' s' := by
  obtain ⟨l, hlog, hl⟩ := hs.log
  refine h.extend (fun u => (hs.still u).op) hs.nextOp (fun u hu => ?_) hlog fun e he => ?_
  · rcases hu with ⟨kind, stage, hk⟩ | hu
    · exact .inl ⟨kind, stage, hph u kind stage hk⟩
    · exact .inr (hu.of_view ((hs.still u).view hu))
  · exact ⟨fun n hn => absurd hn (hl e he n), fun _ _ hret => hl e he _ hret.concerns⟩


/-- What never changes of a thread inside a move that passes messages. -/
def Thread.ident (th : Thread Pid Oid Tid) : Pid × ℕ × Option (Blocking Oid) :=
  (th.owner, th.op, th.pc)

theorem inOp_of_ident (h : th'.ident = th.ident) (hi : th'.InOp) : th.InOp := by
  simp only [ident, Prod.mk.injEq] at h
  obtain ⟨b, hb, hk⟩ := hi
  exact ⟨b, h.2.2 ▸ hb, hk⟩

theorem op_of_ident (h : th'.ident = th.ident) : th'.op = th.op := congrArg (·.2.1) h

theorem pc_of_ident (h : th'.ident = th.ident) : th'.pc = th.pc := congrArg (·.2.2) h

theorem Wait.resumed_op (w : Wait Oid) (th : Thread Pid Oid Tid) :
    (w.resumed th).op = th.op ∧ (w.resumed th).pc = none := by
  cases w <;> exact ⟨rfl, rfl⟩

theorem OpInv.passes (h : OpInv ph s) (hthr : ∀ u, (s'.thr u).ident = (s.thr u).ident)
    (hnext : s'.nextOp = s.nextOp)
    (hph : ∀ t kind stage, ph' = .ipc t kind stage → ∃ stage', ph = .ipc t kind stage')
    (hlog : s'.log = l ++ s.log)
    (hl : ∀ e ∈ l, (∀ n, e.Concerns n → n < s.nextOp) ∧ ∀ n, ¬ e.Returns n) :
    OpInv ph' s' := by
  refine h.extend (fun u => op_of_ident (hthr u)) hnext (fun u hu => ?_) hlog
    fun e he => ⟨(hl e he).1, fun _ _ => (hl e he).2 _⟩
  rcases hu with ⟨kind, stage, hk⟩ | hu
  · obtain ⟨stage', hstage⟩ := hph u kind stage hk
    exact .inl ⟨kind, stage', hstage⟩
  · exact .inr (inOp_of_ident (hthr u) hu)

theorem OpInv.took (h : OpInv ph s) (t u : Tid) (he : e = .took (s.thr t).op t (s.thr u).op u) :
    (∀ n, e.Concerns n → n < s.nextOp) ∧ ∀ n, ¬ e.Returns n := by
  subst he
  refine ⟨?_, fun _ => id⟩
  rintro n (rfl | rfl)
  · exact h.bound t
  · exact h.bound u

theorem Phase.restage {stage stage' stage₂ : Stage} {kind kind' : OpKind}
    (h : ipc t kind stage = .ipc u kind' stage') :
    ∃ stage₃, ipc t kind stage₂ = .ipc u kind' stage₃ := by
  cases h
  exact ⟨_, rfl⟩

theorem OpInv.boot (h : s.Booted) : OpInv .user s := by
  have hthr : ∀ t, (s.thr t).op = 0 ∧ (s.thr t).pc = none := fun t => by
    obtain ⟨p, hp⟩ := h.thr t
    rw [hp]
    exact ⟨rfl, rfl⟩
  have hbusy : ∀ t, ¬ Busy .user s t := by
    rintro t (⟨_, _, hph⟩ | hu)
    · cases hph
    · exact not_inOp_of_pc (hthr t).2 hu
  refine ⟨fun t => ?_, fun t u _ hpos => absurd (hthr t).1 hpos, fun t ht => absurd ht (hbusy t),
    fun e he => ?_, fun t ht => absurd ht (hbusy t)⟩
  · rw [(hthr t).1]
    exact h.nextOp
  · rw [h.log] at he
    cases he

variable [DecidableEq Tid] {kind : OpKind}

theorem schedWakeupThread_ident (s : Sys Pid Oid Tid) (t u : Tid) :
    ((schedWakeupThread s t).thr u).ident = (s.thr u).ident := by
  by_cases h : u = t
  · subst h
    rw [schedWakeupThread_thr_self]
    rfl
  · rw [schedWakeupThread_thr_of_ne s h]

theorem release_ident (s : Sys Pid Oid Tid) (u v : Tid) :
    ((s.release u).thr v).ident = (s.thr v).ident := by
  unfold release
  split_ifs
  · rw [schedWakeupThread_ident]
    exact modify_field ident s u v fun _ => rfl
  · rfl

theorem release_log (s : Sys Pid Oid Tid) (u : Tid) :
    (s.release u).nextOp = s.nextOp ∧ (s.release u).log = s.log := by
  unfold release
  split_ifs <;> exact ⟨rfl, rfl⟩

theorem OpInv.resumed (h : OpInv .user s) {stage : Stage} (hpc : (s.thr t).pc = some b)
    (hk : b.on.kind = some kind) (L : Lib.Links (Queue Oid) Tid) :
    OpInv (.ipc t kind stage) ((s.modify t b.on.resumed).setLinks L) := by
  have hthr : ∀ u, u ≠ t → ((s.modify t b.on.resumed).setLinks L).thr u = s.thr u := fun u hu =>
    modify_thr_of_ne s _ hu
  have hself : ((s.modify t b.on.resumed).setLinks L).thr t = b.on.resumed (s.thr t) :=
    modify_thr_self s t _
  refine h.same (fun u => ?_) rfl (fun u hu => ?_) rfl
  · by_cases hu : u = t
    · subst hu
      rw [hself, (b.on.resumed_op _).1]
    · rw [hthr u hu]
  · by_cases hut : u = t
    · subst hut
      exact .inr ⟨b, hpc, by rw [hk]; nofun⟩
    · rcases hu with ⟨kind', stage', hph⟩ | hu
      · cases hph
        exact absurd rfl hut
      · rw [hthr u hut] at hu
        exact .inr hu

theorem OpInv.waits {stage : Stage} {s1 : Sys Pid Oid Tid} (h : OpInv (.ipc t kind stage) s)
    (hthr : ∀ u, (s1.thr u).ident = (s.thr u).ident) (hnext : s1.nextOp = s.nextOp)
    (hlog : s1.log = s.log) : OpInv .user (s1.sleepAt t b) := by
  refine h.same (fun u => ?_) hnext (fun u hu => ?_) hlog
  · by_cases hu : u = t
    · subst hu
      have hop := op_of_ident (hthr u)
      rw [sleepAt_thr_self]
      exact hop
    · rw [sleepAt_thr_of_ne _ _ hu]
      exact op_of_ident (hthr u)
  · by_cases hut : u = t
    · exact .inl ⟨kind, stage, by rw [hut]⟩
    · rcases hu with ⟨_, _, hph⟩ | hu
      · cases hph
      · rw [sleepAt_thr_of_ne _ _ hut] at hu
        exact .inr (inOp_of_ident (hthr u) hu)

theorem OpInv.begin (h : OpInv .user s) {req buf : Option (IpcMessage Pid Tid)}
    (hpc : (s.thr t).pc = none) : OpInv (.ipc t kind .fresh) (s.begin t req buf) := by
  have hself := begin_thr_self s t req buf
  have hne : ∀ u, u ≠ t → (s.begin t req buf).thr u = s.thr u := fun u hu => begin_thr_of_ne s hu ..
  have hbusy : ∀ u, u ≠ t → Busy (.ipc t kind .fresh) (s.begin t req buf) u → Busy .user s u := by
    rintro u hu (⟨kind', stage, hph⟩ | hin)
    · cases hph
      exact absurd rfl hu
    · rw [hne u hu] at hin
      exact .inr hin
  refine ⟨fun u => ?_, fun u v heq hpos => ?_, fun u hu => ?_, fun e he => ?_, fun u hu e he => ?_⟩
  · show _ < s.nextOp + 1
    by_cases hut : u = t
    · subst hut
      rw [hself]
      exact Nat.lt_succ_self _
    · rw [hne u hut]
      exact Nat.lt_succ_of_lt (h.bound u)
  · by_cases hut : u = t
    · subst hut
      by_contra hvt
      rw [hself, hne v (Ne.symm hvt)] at heq
      exact absurd (h.bound v) (by rw [← heq]; exact lt_irrefl _)
    · by_cases hvt : v = t
      · subst hvt
        rw [hself, hne u hut] at heq
        exact absurd (h.bound u) (by rw [heq]; exact lt_irrefl _)
      · rw [hne u hut, hne v hvt] at heq
        rw [hne u hut] at hpos
        exact h.inj u v heq hpos
  · by_cases hut : u = t
    · subst hut
      rw [hself]
      exact (lt_of_le_of_lt (Nat.zero_le _) (h.bound u)).ne'
    · rw [hne u hut]
      exact h.pos u (hbusy u hut hu)
  · exact fun n hn => Nat.lt_succ_of_lt (h.below e he n hn)
  · by_cases hut : u = t
    · subst hut
      rw [hself]
      exact fun hret => lt_irrefl _ (h.below e he _ hret.concerns)
    · rw [hne u hut]
      exact h.unreturned u (hbusy u hut hu) e he

variable [DecidableEq Oid]

theorem withdraw_eq_some [Fintype Tid] (h : s.withdraw q t = some s') : ∃ L, s' = s.setLinks L := by
  obtain ⟨L, -, rfl⟩ := Option.map_eq_some_iff.mp h
  exact ⟨_, rfl⟩

variable [DecidableEq Pid] {m : IpcMessage Pid Tid} {ep : Oid}

theorem handOver_ident {r : Tid} (h : s.handOver t r ep m = some s') (u : Tid) :
    (s'.thr u).ident = (s.thr u).ident := by
  obtain ⟨k, room, got, -, -, rfl⟩ := handOver_eq_some h
  rw [schedWakeupThread_ident]
  refine modify_field ident _ r u ?_
  exact fun _ => rfl

theorem takeMsg_ident (h : s.takeMsg t u = some s') (v : Tid) :
    (s'.thr v).ident = (s.thr v).ident := by
  rcases takeMsg_eq_some h with ⟨-, rfl⟩ | ⟨k, m, room, got, -, -, rfl⟩
  · rfl
  · refine modify_field ident _ t v ?_
    exact fun _ => rfl

theorem takeFrom_ident (h : s.takeFrom t u ep = some s') (v : Tid) :
    (s'.thr v).ident = (s.thr v).ident := by
  obtain ⟨-, k, s1, h1, rfl⟩ := takeFrom_eq_some h
  rw [release_ident]
  refine (modify_field ident s1 t v ?_).trans (takeMsg_ident h1 v)
  exact fun _ => rfl

theorem answer_ident {request : ℕ} (h : s.answer t u m request = some s') (v : Tid) :
    (s'.thr v).ident = (s.thr v).ident := by
  obtain ⟨s1, h1, rfl⟩ := Option.map_eq_some_iff.mp h
  rw [schedWakeupThread_ident]
  refine (modify_field ident s1 u v ?_).trans ?_
  · exact fun _ => rfl
  · rcases copyReply_eq_some h1 with ⟨-, rfl⟩ | ⟨k, room, got, -, rfl⟩
    · rfl
    · refine modify_field ident _ u v ?_
      exact fun _ => rfl

theorem handOver_log {r : Tid} (h : s.handOver t r ep m = some s') :
    s'.nextOp = s.nextOp ∧ s'.log = .took (s.thr t).op t (s.thr r).op r :: s.log := by
  obtain ⟨k, room, got, -, -, rfl⟩ := handOver_eq_some h
  exact ⟨rfl, rfl⟩

theorem takeFrom_log (h : s.takeFrom t u ep = some s') :
    s'.nextOp = s.nextOp ∧ ((s.thr u).ipcReqMsg = none ∧ s'.log = s.log ∨
      s'.log = .took (s.thr u).op u (s.thr t).op t :: s.log) := by
  obtain ⟨-, k, s1, h1, rfl⟩ := takeFrom_eq_some h
  obtain ⟨hnext, hlog⟩ := release_log (s1.stampSender u t) u
  rw [hnext, hlog]
  rcases takeMsg_eq_some h1 with ⟨hnone, rfl⟩ | ⟨k, m, room, got, -, -, rfl⟩
  · exact ⟨rfl, .inl ⟨hnone, rfl⟩⟩
  · exact ⟨rfl, .inr rfl⟩

theorem answer_log {request : ℕ} (h : s.answer t u m request = some s') :
    s'.nextOp = s.nextOp ∧ ((s.thr u).ipcReplyMsg = none ∧ s'.log = s.log ∨
      s'.log = .replied (s.thr u).op request :: s.log) := by
  obtain ⟨s1, h1, rfl⟩ := Option.map_eq_some_iff.mp h
  rcases copyReply_eq_some h1 with ⟨hnone, rfl⟩ | ⟨k, room, got, -, rfl⟩
  · exact ⟨rfl, .inl ⟨hnone, rfl⟩⟩
  · exact ⟨rfl, .inr rfl⟩

variable [Fintype Tid]

theorem OpInv.move (hq : QueueInv s Q) (hr : ∀ t, ph.thread = some t → Running s Q t)
    (h : OpInv ph s) (hm : Move ok ph s ph' s') : OpInv ph' s' := by
  by_cases hi : ph.Idle ∧ ph'.Idle
  · have hph : ∀ t kind stage, ph' = .ipc t kind stage → ∃ stage', ph = .ipc t kind stage' := by
      rintro t kind stage rfl
      exact absurd hi.2 id
    rcases hm.quiet hq hr hi.1 hi.2 with hquiet | ⟨t, c, u, request, m, -, -, -, h'⟩ |
      ⟨t, c, u, -, -, -, -, hne, hself, hnext, hlog⟩
    · refine h.quiet hquiet ?_
      rintro t kind stage rfl
      exact absurd hi.2 id
    · obtain ⟨hnext, hlog | hlog⟩ := answer_log h'
      · exact h.passes (answer_ident h') hnext hph (l := []) hlog.2 nofun
      · refine h.passes (answer_ident h') hnext hph (l := [_]) hlog fun e he => ?_
        rw [mem_singleton.mp he]
        exact ⟨fun n hn => hn ▸ h.bound u, fun _ => id⟩
    · refine h.passes (fun v => ?_) hnext hph (l := []) hlog nofun
      by_cases hv : v = u
      · subst hv
        rw [hself]
        rfl
      · rw [hne v hv]
  · cases hm with
    | begin _ hpc _ => exact h.begin hpc
    | @woken _ t b hready hpc hexp =>
      rcases hk : b.on.kind with _ | kind
      · rw [Wait.phase, hk] at hi
        exact absurd ⟨trivial, trivial⟩ hi
      · rw [Wait.phase, hk]
        exact h.resumed hpc hk s.links
    | @expired _ t b kind _ _ hpc _ hk _ => exact h.resumed hpc hk s.links
    | @withdrawn _ _ t b kind q _ _ hpc _ hk _ h' =>
      obtain ⟨L, rfl⟩ := withdraw_eq_some h'
      exact h.resumed hpc hk L
    | handles k hph => exact h.quiet (.of_still (fun _ => .of_eq rfl) rfl rfl) fun _ _ _ hph => hph
    | @handOver _ _ t kind r ep m _ _ _ h' =>
      obtain ⟨hnext, hlog⟩ := handOver_log h'
      exact h.passes (handOver_ident h') hnext (fun _ _ _ => Phase.restage) (l := [_]) hlog
        fun e he => h.took t r (mem_singleton.mp he)
    | @takeFrom _ _ t u ep _ h' =>
      obtain ⟨hnext, hlog | hlog⟩ := takeFrom_log h'
      · exact h.passes (takeFrom_ident h') hnext (fun _ _ _ => Phase.restage) (l := []) hlog.2 nofun
      · exact h.passes (takeFrom_ident h') hnext (fun _ _ _ => Phase.restage) (l := [_]) hlog
          fun e he => h.took u t (mem_singleton.mp he)
    | @unpublish _ t kind stage =>
      exact h.passes (fun u => modify_field ident s t u fun _ => rfl) rfl
        (fun _ _ _ hph => ⟨_, hph⟩) (l := []) rfl nofun
    | @waitSent _ t ep timeout =>
      refine h.waits (fun u => modify_field ident s t u ?_) rfl rfl
      exact fun _ => rfl
    | @waitSend _ t kind w ep timeout _ _ _ =>
      refine h.waits (fun u => modify_field ident (s.enqueue (.send, ep) t) t u ?_) rfl rfl
      exact fun _ => rfl
    | @waitRecv _ t ep timeout =>
      refine h.waits (fun u => modify_field ident (s.enqueue (.recv, ep) t) t u ?_) rfl rfl
      exact fun _ => rfl
    | @finishOp _ t kind stage r _ =>
      obtain ⟨hstill, hnext, hlog⟩ := leave_still (hr t rfl) (some (kind, (s.thr t).op)) r
      have hbusy : ∀ u, Busy .user (s.leave t (some (kind, (s.thr t).op)) r) u →
          Busy (.ipc t kind stage) s u ∧ u ≠ t := by
        rintro u (⟨_, _, hph⟩ | hu)
        · cases hph
        · have hin := hu.of_view ((hstill u).view hu)
          refine ⟨.inr hin, ?_⟩
          rintro rfl
          exact not_inOp_of_pc (hr u rfl).pc hin
      refine h.extend (fun u => (hstill u).op) hnext (fun u hu => (hbusy u hu).1) (l := [_]) hlog
        fun e he => ?_
      rw [mem_singleton.mp he]
      refine ⟨fun n hn => hn ▸ h.bound t, fun u hu heq => ?_⟩
      exact h.op_ne (.inl ⟨kind, stage, rfl⟩) (hbusy u hu).2 heq.symm
    | _ => exact absurd ⟨trivial, trivial⟩ hi

end Numbers

end Xnix
