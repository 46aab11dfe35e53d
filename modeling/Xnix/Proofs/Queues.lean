import Xnix.Lib.Splice
import Xnix.Proofs.Moves

/-!
# Wait queues stay well formed

One `wait_next` field links five kinds of queue. As long as no thread is woken behind the back of
the queue it is in, and none goes to sleep with a wakeup pending, the links spell out disjoint lists
of threads that are all inside a blocking operation on the queue's object.
-/

namespace Xnix

open Function List

variable {Pid Oid Tid : Type} {q : Queue Oid} {b : Blocking Oid} {Q' : Queue Oid → List Tid}
  {s s' : Sys Pid Oid Tid} {t u : Tid} {Q : Queue Oid → List Tid}

section Inv

/-- A thread that is blocked is at a blocking point, and a thread with a deadline sleeps or has a
timeout. -/
structure Thread.Sound (th : Thread Pid Oid Tid) : Prop where
  blocked : th.state = .blocked → th.pc ≠ none
  deadline : th.wakeupTick ≠ 0 →
    ∃ b, th.pc = some b ∧ (b.on = .sleep ∨ b.on.timed ∧ 0 < b.timeout)

/-- A thread that belongs in the queue `q`: it waits there, and if it can run its timeout has
fired. -/
def Thread.WaitsIn (th : Thread Pid Oid Tid) (q : Queue Oid) : Prop :=
  ∃ b, th.pc = some b ∧ b.on.queue = some q ∧ (th.state = .ready → b.expired th)

/-- The links spell out the lists `Q` of waiting threads. -/
structure QueueInv (s : Sys Pid Oid Tid) (Q : Queue Oid → List Tid) : Prop where
  linked : Lib.Linked s.links Q
  waits : ∀ q t, t ∈ Q q → (s.thr t).WaitsIn q
  onList : ∀ t, t ∈ s.blocked ↔ (s.thr t).state = .blocked
  nodup : s.blocked.Nodup
  sound : ∀ t, (s.thr t).Sound

/-- A thread that runs: it is in no queue and has no deadline. -/
structure Running (s : Sys Pid Oid Tid) (Q : Queue Oid → List Tid) (t : Tid) : Prop where
  ready : (s.thr t).state = .ready
  pc : (s.thr t).pc = none
  tick : (s.thr t).wakeupTick = 0
  free : ∀ q, t ∉ Q q

variable {th th' : Thread Pid Oid Tid}

theorem QueueInv.running (hq : QueueInv s Q) (hr : (s.thr t).state = .ready)
    (hpc : (s.thr t).pc = none) : Running s Q t := by
  refine ⟨hr, hpc, ?_, fun q ht => ?_⟩
  · by_contra htick
    obtain ⟨b, hb, -⟩ := (hq.sound t).deadline htick
    rw [hpc] at hb
    cases hb
  · obtain ⟨b, hb, -⟩ := hq.waits q t ht
    rw [hpc] at hb
    cases hb

def Thread.sched (th : Thread Pid Oid Tid) : ThreadState × Option (Blocking Oid) × ℕ :=
  (th.state, th.pc, th.wakeupTick)

theorem Thread.Sound.congr (h : th.Sound) (heq : th'.sched = th.sched) : th'.Sound := by
  simp only [Thread.sched, Prod.mk.injEq] at heq
  obtain ⟨h1, h2, h3⟩ := heq
  exact ⟨by rw [h1, h2]; exact h.blocked, by rw [h2, h3]; exact h.deadline⟩

theorem Thread.WaitsIn.congr (h : th.WaitsIn q) (heq : th'.sched = th.sched) : th'.WaitsIn q := by
  simp only [Thread.sched, Prod.mk.injEq] at heq
  obtain ⟨h1, h2, h3⟩ := heq
  unfold Thread.WaitsIn Blocking.expired
  rw [h1, h2, h3]
  exact h

theorem QueueInv.congr (hq : QueueInv s Q) (hl : s'.links = s.links) (hb : s'.blocked = s.blocked)
    (ht : ∀ t, (s'.thr t).sched = (s.thr t).sched) : QueueInv s' Q := by
  have hstate : ∀ t, (s'.thr t).state = (s.thr t).state := fun t => congrArg Prod.fst (ht t)
  refine ⟨hl ▸ hq.linked, fun q t h => (hq.waits q t h).congr (ht t), fun t => ?_, hb ▸ hq.nodup,
    fun t => (hq.sound t).congr (ht t)⟩
  rw [hb, hstate]
  exact hq.onList t

theorem Running.congr (hr : Running s Q t) (ht : (s'.thr t).sched = (s.thr t).sched) :
    Running s' Q t := by
  simp only [Thread.sched, Prod.mk.injEq] at ht
  obtain ⟨h1, h2, h3⟩ := ht
  exact ⟨h1.trans hr.ready, h2.trans hr.pc, h3.trans hr.tick, hr.free⟩

theorem Running.mono (hr : Running s Q t) (ht : s'.thr t = s.thr t)
    (hsub : ∀ q u, u ∈ Q' q → u ∈ Q q) : Running s' Q' t :=
  ⟨ht ▸ hr.ready, ht ▸ hr.pc, ht ▸ hr.tick, fun q h => hr.free q (hsub q t h)⟩

theorem QueueInv.relink (hq : QueueInv s Q) {L : Lib.Links (Queue Oid) Tid} (hl : Lib.Linked L Q')
    (hsub : ∀ q t, t ∈ Q' q → t ∈ Q q) : QueueInv (s.setLinks L) Q' :=
  ⟨hl, fun q t h => hq.waits q t (hsub q t h), hq.onList, hq.nodup, hq.sound⟩

end Inv

section Primitives

theorem deadline_zero (now : ℕ) (h : b.deadline now 0 ≠ 0) :
    b.on = .sleep ∨ b.on.timed ∧ 0 < b.timeout := by
  obtain ⟨w, n⟩ := b
  cases w <;> simp_all [Blocking.deadline, Wait.timed]

variable [DecidableEq Tid] {f : Thread Pid Oid Tid → Thread Pid Oid Tid}

theorem begin_sched (s : Sys Pid Oid Tid) (t : Tid) (req buf : Option (IpcMessage Pid Tid))
    (u : Tid) : ((s.begin t req buf).thr u).sched = (s.thr u).sched :=
  modify_field Thread.sched s t u
    (f := fun th => { th with op := s.nextOp, req := req, buf := buf }) fun _ => rfl

theorem QueueInv.modify (hq : QueueInv s Q) (t : Tid) (hf : ∀ th, (f th).sched = th.sched) :
    QueueInv (s.modify t f) Q :=
  hq.congr rfl rfl fun u => modify_field Thread.sched s t u hf

theorem Running.modify (hr : Running s Q t) (u : Tid) (hf : ∀ th, (f th).sched = th.sched) :
    Running (s.modify u f) Q t :=
  hr.congr (modify_field Thread.sched s u t hf)

theorem QueueInv.update (hq : QueueInv s Q) (t : Tid) (hs : (f (s.thr t)).Sound)
    (hb : (f (s.thr t)).state = .blocked ↔ (s.thr t).state = .blocked)
    (hw : ∀ q, t ∈ Q q → (f (s.thr t)).WaitsIn q) : QueueInv (s.modify t f) Q := by
  refine ⟨hq.linked, fun q u hu => ?_, fun u => ?_, hq.nodup, fun u => ?_⟩
  all_goals
    by_cases h : u = t
    · subst h
      rw [modify_thr_self]
      first
        | exact hw q hu
        | exact hs
        | exact (hq.onList u).trans hb.symm
    · rw [modify_thr_of_ne s f h]
      first
        | exact hq.waits q u hu
        | exact hq.sound u
        | exact hq.onList u

theorem QueueInv.settle (hq : QueueInv s Q) (hready : (s.thr t).state = .ready)
    (hf : (f (s.thr t)).sched = (.ready, none, 0)) (hfree : ∀ q, t ∉ Q q) :
    QueueInv (s.modify t f) Q ∧ Running (s.modify t f) Q t := by
  simp only [Thread.sched, Prod.mk.injEq] at hf
  obtain ⟨h1, h2, h3⟩ := hf
  refine ⟨hq.update t ⟨?_, fun hd => absurd h3 hd⟩ ?_ fun q hu => absurd hu (hfree q), ?_⟩
  · rw [h1]
    nofun
  · rw [h1, hready]
  · refine ⟨?_, ?_, ?_, hfree⟩ <;> rw [modify_thr_self] <;> assumption

theorem QueueInv.wakeup (hq : QueueInv s Q) (hu : (s.thr u).state = .blocked → ∀ q, u ∉ Q q) :
    QueueInv (schedWakeupThread s u) Q := by
  have hself := schedWakeupThread_thr_self s u
  by_cases hb : (s.thr u).state = .blocked
  · rw [if_pos (.inr hb)] at hself
    refine ⟨hq.linked, fun q t ht => ?_, fun t => ?_, hq.nodup.erase u, fun t => ?_⟩
    · have hne : t ≠ u := fun h => hu hb q (h ▸ ht)
      rw [schedWakeupThread_thr_of_ne s hne]
      exact hq.waits q t ht
    · show t ∈ s.blocked.erase u ↔ _
      rw [hq.nodup.mem_erase_iff]
      by_cases hne : t = u
      · subst hne
        rw [hself]
        simp
      · rw [schedWakeupThread_thr_of_ne s hne]
        simp only [ne_eq, hne, not_false_eq_true, true_and]
        exact hq.onList t
    · by_cases hne : t = u
      · subst hne
        rw [hself]
        exact ⟨nofun, (hq.sound t).deadline⟩
      · rw [schedWakeupThread_thr_of_ne s hne]
        exact hq.sound t
  · have hnot : u ∉ s.blocked := fun h => hb ((hq.onList u).mp h)
    refine hq.congr rfl ?_ fun t => ?_
    · exact erase_of_not_mem hnot
    · by_cases hne : t = u
      · subst hne
        rw [hself, if_neg (by tauto)]
        rfl
      · rw [schedWakeupThread_thr_of_ne s hne]

section
variable (hq : QueueInv s Q)
include hq

theorem QueueInv.sleep (hr : Running s Q t) (hl : Lib.Linked s'.links Q')
    (hb : s'.blocked = s.blocked) (hth : ∀ u, (s'.thr u).sched = (s.thr u).sched)
    (hmem : ∀ q u, u ∈ Q' q → u ∈ Q q ∨ u = t ∧ b.on.queue = some q) :
    QueueInv (s'.sleepAt t b) Q' := by
  have hself := sleepAt_thr_self s' t b
  have hne : ∀ u, u ≠ t → (s'.sleepAt t b).thr u = s'.thr u := fun u h => sleepAt_thr_of_ne s' b h
  have htick : (s'.thr t).wakeupTick = 0 := (hr.congr (hth t)).tick
  have hnot : t ∉ s.blocked := fun h => by
    have := (hq.onList t).mp h
    rw [hr.ready] at this
    cases this
  refine ⟨hl, fun q u hu => ?_, fun u => ?_, ?_, fun u => ?_⟩
  · by_cases h : u = t
    · subst h
      rw [hself]
      rcases hmem q u hu with hu | ⟨-, hq⟩
      · exact absurd hu (hr.free q)
      · exact ⟨b, rfl, hq, nofun⟩
    · rw [hne u h]
      rcases hmem q u hu with hu | ⟨h', -⟩
      · exact (hq.waits q u hu).congr (hth u)
      · exact absurd h' h
  · show u ∈ t :: s'.blocked ↔ _
    rw [hb, mem_cons]
    by_cases h : u = t
    · subst h
      rw [hself]
      simp
    · have hstate : (s'.thr u).state = (s.thr u).state := congrArg Prod.fst (hth u)
      rw [hne u h, hstate]
      simp only [h, false_or]
      exact hq.onList u
  · show (t :: s'.blocked).Nodup
    rw [hb]
    exact nodup_cons.mpr ⟨hnot, hq.nodup⟩
  · by_cases h : u = t
    · subst h
      rw [hself]
      refine ⟨nofun, fun hd => ⟨b, rfl, deadline_zero s'.now ?_⟩⟩
      rw [htick] at hd
      exact hd
    · rw [hne u h]
      exact (hq.sound u).congr (hth u)

theorem QueueInv.sleepAt (hr : Running s Q t) (b : Blocking Oid) : QueueInv (s.sleepAt t b) Q :=
  hq.sleep hr hq.linked rfl (fun _ => rfl) fun _ _ h => .inl h

theorem QueueInv.enqueueSleep [DecidableEq Oid] (hr : Running s Q t) (hbq : b.on.queue = some q)
    (hl : s'.links = s.links.push q t) (hb : s'.blocked = s.blocked)
    (hth : ∀ u, (s'.thr u).sched = (s.thr u).sched) :
    QueueInv (s'.sleepAt t b) (Function.update Q q (t :: Q q)) := by
  refine hq.sleep hr (hl ▸ hq.linked.push hr.free) hb hth fun q' u hu => ?_
  by_cases h : q' = q
  · subst h
    rw [update_self, mem_cons] at hu
    rcases hu with rfl | hu
    · exact .inr ⟨rfl, hbq⟩
    · exact .inl hu
  · rw [update_of_ne h] at hu
    exact .inl hu

theorem QueueInv.drop [DecidableEq Oid] (hh : s.links.head q = some u) :
    ∃ Q', QueueInv (s.setLinks (s.links.drop q u)) Q' ∧ (∀ q', u ∉ Q' q') ∧
      (∀ q' t, t ∈ Q' q' → t ∈ Q q') ∧ u ∈ Q q := by
  obtain ⟨l, hl, -, hul⟩ := hq.linked.of_head_some hh
  have hmem : u ∈ Q q := by rw [hl]; exact mem_cons_self
  have hsub : ∀ q' t, t ∈ Function.update Q q l q' → t ∈ Q q' := fun q' t ht => by
    by_cases h : q' = q
    · subst h
      rw [update_self] at ht
      rw [hl]
      exact mem_cons_of_mem u ht
    · rwa [update_of_ne h] at ht
  refine ⟨Function.update Q q l, hq.relink (hq.linked.drop hl) hsub, fun q' hu => ?_, hsub, hmem⟩
  have hqq : q' = q := hq.linked.apart q' q u (hsub q' u hu) hmem
  subst hqq
  rw [update_self] at hu
  exact hul hu

theorem QueueInv.wakeQueued (hu : ∀ q, u ∉ Q q) (h : s.wakeQueued u = some s') : QueueInv s' Q := by
  obtain ⟨-, rfl⟩ := wakeQueued_eq_some h
  exact hq.wakeup fun _ => hu

end

theorem wakeQueued_thr_of_ne (h : s.wakeQueued u = some s') (hne : t ≠ u) : s'.thr t = s.thr t := by
  obtain ⟨-, rfl⟩ := wakeQueued_eq_some h
  exact schedWakeupThread_thr_of_ne s hne

theorem QueueInv.wakeAll (hf : ∀ th, (f th).sched = th.sched) :
    ∀ {us : List Tid} {s : Sys Pid Oid Tid},
    QueueInv s Q → (∀ u ∈ us, ∀ q, u ∉ Q q) → s.wakeAll f us = some s' → QueueInv s' Q
  | [], _, hq, _, h => by
    cases h
    exact hq
  | u :: us, _, hq, hus, h => by
    obtain ⟨s₁, h1, h⟩ := Option.bind_eq_some_iff.mp h
    exact ((hq.modify u hf).wakeQueued (hus u (by simp)) h1).wakeAll hf
      (fun v hv => hus v (by simp [hv])) h

theorem wakeAll_thr_of_not_mem :
    ∀ {us : List Tid} {s : Sys Pid Oid Tid}, t ∉ us → s.wakeAll f us = some s' → s'.thr t = s.thr t
  | [], _, _, h => by
    cases h
    rfl
  | u :: us, s, ht, h => by
    obtain ⟨s₁, h1, h⟩ := Option.bind_eq_some_iff.mp h
    simp only [mem_cons, not_or] at ht
    rw [wakeAll_thr_of_not_mem ht.2 h, wakeQueued_thr_of_ne h1 ht.1, modify_thr_of_ne _ _ ht.1]

theorem QueueInv.tick (hq : QueueInv s Q) : QueueInv s.tick Q := by
  have hthr : ∀ t, s.tick.thr t = if t ∈ s.blocked ∧ (s.thr t).due (s.now + 1) then
      { s.thr t with wakeupTick := 0, state := .ready } else s.thr t := fun _ => rfl
  refine ⟨hq.linked, fun q t ht => ?_, fun t => ?_, hq.nodup.filter _, fun t => ?_⟩
  · obtain ⟨b, hb, hbq, hready⟩ := hq.waits q t ht
    rw [hthr]
    split_ifs with h
    · refine ⟨b, hb, hbq, fun _ => ?_⟩
      have hdue := h.2
      simp only [Thread.due, Bool.and_eq_true, bne_iff_ne] at hdue
      obtain ⟨b', hb', hd⟩ := (hq.sound t).deadline hdue.1
      rw [hb] at hb'
      cases hb'
      rcases hd with hd | hd
      · rw [hd] at hbq
        cases hbq
      · simp [Blocking.expired, hd.1, hd.2]
    · exact ⟨b, hb, hbq, hready⟩
  · show t ∈ s.blocked.filter _ ↔ _
    rw [mem_filter, hthr]
    by_cases hdue : (s.thr t).due (s.now + 1)
    · by_cases hm : t ∈ s.blocked
      · simp [hdue, hm]
      · simp only [hdue, hm, false_and, if_false, false_iff]
        exact fun h => hm ((hq.onList t).mpr h)
    · simp only [hdue, Bool.not_false, and_true, and_false, Bool.false_eq_true, if_false]
      exact hq.onList t
  · rw [hthr]
    split_ifs
    · exact ⟨nofun, fun h => absurd rfl h⟩
    · exact hq.sound t

section Queue
variable [DecidableEq Oid]

theorem not_mem_takeAll [Fintype Tid] (hq : QueueInv s Q) :
    ∀ u ∈ (s.links.takeAll q).1, ∀ q', u ∉ update Q q [] q' := by
  intro u hu q' hmem
  rw [(hq.linked.takeAll q).1] at hu
  have hsub := Lib.mem_of_mem_update nofun hmem
  have hqq : q' = q := hq.linked.apart q' q u hsub hu
  subst hqq
  rw [update_self] at hmem
  cases hmem

theorem QueueInv.drain [Fintype Tid] (hq : QueueInv s Q) (h : s.drain q = some s') :
    QueueInv s' (Function.update Q q []) ∧ (∀ q' u, u ∈ Function.update Q q [] q' → u ∈ Q q') ∧
      ∀ t, Running s Q t → s'.thr t = s.thr t := by
  obtain ⟨hlist, hl⟩ := hq.linked.takeAll q
  have hsub : ∀ q' u, u ∈ Function.update Q q [] q' → u ∈ Q q' :=
    fun q' u => Lib.mem_of_mem_update nofun
  refine ⟨(hq.relink hl hsub).wakeAll (fun _ => rfl) (not_mem_takeAll hq) h, hsub, fun t hr => ?_⟩
  have hnot : t ∉ (s.links.takeAll q).1 := by
    rw [hlist]
    exact hr.free q
  have ht := wakeAll_thr_of_not_mem hnot h
  exact ht

theorem QueueInv.withdraw [Fintype Tid] (hq : QueueInv s Q) (hready : (s.thr t).state = .ready)
    (hf : (f (s.thr t)).sched = (.ready, none, 0)) (hmem : ∀ q', t ∈ Q q' → q' = q)
    (h : (s.modify t f).withdraw q t = some s') :
    ∃ Q', QueueInv s' Q' ∧ Running s' Q' t ∧ ∀ q' u, u ∈ Q' q' → u ∈ Q q' := by
  obtain ⟨L, hL, hlinked⟩ := hq.linked.unlink q t
  unfold Sys.withdraw at h
  rw [show (s.modify t f).links = s.links from rfl, hL] at h
  cases h
  set Q' := Function.update Q q ((Q q).erase t) with hQ'
  have hsub : ∀ q' u, u ∈ Q' q' → u ∈ Q q' :=
    fun q' u => Lib.mem_of_mem_update fun _ => mem_of_mem_erase
  have hfree : ∀ q', t ∉ Q' q' := fun q' hu => by
    have hqq : q' = q := hmem q' (hsub q' t hu)
    subst hqq
    rw [hQ', update_self] at hu
    exact ((hq.linked.chain q').nodup.not_mem_erase) hu
  obtain ⟨hq', hr⟩ := (hq.relink (hlinked.clear hfree) hsub).settle hready hf hfree
  exact ⟨Q', hq', hr, hsub⟩

end Queue

end Primitives

section Composites
variable [DecidableEq Tid] {bits : BitVec 32}

theorem QueueInv.release (hq : QueueInv s Q) (hu : ∀ q, u ∉ Q q) : QueueInv (s.release u) Q := by
  unfold Sys.release
  split_ifs
  · exact QueueInv.wakeup (QueueInv.modify hq u fun _ => rfl) fun _ => hu
  · exact hq

theorem release_thr_of_ne (s : Sys Pid Oid Tid) (hne : t ≠ u) : (s.release u).thr t = s.thr t := by
  unfold Sys.release
  split_ifs
  · rw [schedWakeupThread_thr_of_ne _ hne, modify_thr_of_ne _ _ hne]
  · rfl

variable [DecidableEq Pid]

omit [DecidableEq Tid] in
theorem QueueInv.terminate (hq : QueueInv s Q) (p : Pid) :
    QueueInv (processTerminateCurrent s p) Q := by
  have hthr : ∀ t, (processTerminateCurrent s p).thr t =
      if (s.thr t).owner = p then { s.thr t with state := .exited } else s.thr t := fun _ => rfl
  refine ⟨hq.linked, fun q t ht => ?_, fun t => ?_, hq.nodup.filter _, fun t => ?_⟩
  · rw [hthr]
    split_ifs
    · obtain ⟨b, hb, hbq, -⟩ := hq.waits q t ht
      exact ⟨b, hb, hbq, nofun⟩
    · exact hq.waits q t ht
  · show t ∈ s.blocked.filter _ ↔ _
    rw [mem_filter, hthr]
    split_ifs with h
    · simp [h]
    · simp only [h, decide_not, decide_false, Bool.not_false, and_true]
      exact hq.onList t
  · rw [hthr]
    split_ifs
    · exact ⟨nofun, (hq.sound t).deadline⟩
    · exact hq.sound t

theorem QueueInv.leave (hq : QueueInv s Q) (hr : Running s Q t) (op : Option (OpKind × ℕ)) (r : ℤ) :
    QueueInv (s.leave t op r) Q := by
  obtain ⟨s₁, sig, stopped, hs1, h⟩ := leave_cases s t op r
  have hsched : ∀ u, (s₁.thr u).sched = (s.thr u).sched := fun u => by
    rw [hs1]
    exact modify_field Thread.sched (s.record (.ret t op r (s.thr t).buf)) t u
      (f := fun th => { th with req := none, buf := none }) fun _ => rfl
  have hq1 : QueueInv s₁ Q := hq.congr (by rw [hs1]; rfl) (by rw [hs1]; rfl) hsched
  rcases h with h | h | h | h <;> rw [h]
  · exact hq1
  · exact QueueInv.modify hq1 t fun _ => rfl
  · exact hq1.sleepAt (hr.congr (hsched t)) _
  · exact hq1.terminate _

theorem QueueInv.kill (hq : QueueInv s Q) {p : Pid} {sig : ℕ}
    (hu : ∀ u, (s.threads p).head? = some u → (s.thr u).state = .blocked → ∀ q, u ∉ Q q) :
    QueueInv (processKillOne s p sig) Q := by
  have hfirst : ∀ s₁ : Sys Pid Oid Tid, s₁.threads = s.threads → s₁.thr = s.thr →
      QueueInv s₁ Q → QueueInv (s₁.wakeFirst p) Q := by
    intro s₁ hthreads hthr hq1
    unfold Sys.wakeFirst
    rw [hthreads]
    split
    · rename_i u hhead
      exact hq1.wakeup fun hb => hu u hhead (hthr ▸ hb)
    · exact hq1
  unfold processKillOne
  split_ifs
  · exact hfirst _ rfl rfl (hq.congr rfl rfl fun _ => rfl)
  · exact hfirst _ rfl rfl (hq.congr rfl rfl fun _ => rfl)

variable [DecidableEq Oid] {m : IpcMessage Pid Tid} {ep : Oid}

theorem QueueInv.handOver (hq : QueueInv s Q) {r : Tid} (hh : s.links.head (.recv, ep) = some r)
    (h : s.handOver t r ep m = some s') :
    ∃ Q', QueueInv s' Q' ∧ (∀ q, r ∉ Q' q) ∧ (∀ q v, v ∈ Q' q → v ∈ Q q) ∧ r ∈ Q (.recv, ep) := by
  obtain ⟨k, room, got, -, -, rfl⟩ := handOver_eq_some h
  obtain ⟨Q', hQ', hr, hsub, hmem⟩ := hq.drop hh
  refine ⟨Q', QueueInv.wakeup ?_ fun _ => hr, hr, hsub, hmem⟩
  refine QueueInv.modify (QueueInv.congr hQ' ?_ ?_ ?_) r fun _ => rfl
  exacts [rfl, rfl, fun _ => rfl]

theorem handOver_thr_of_ne {r : Tid} (h : s.handOver t r ep m = some s') (hne : u ≠ r) :
    s'.thr u = s.thr u := by
  obtain ⟨k, room, got, -, -, rfl⟩ := handOver_eq_some h
  rw [schedWakeupThread_thr_of_ne _ hne, modify_thr_of_ne _ _ hne]

theorem takeMsg_sched (h : s.takeMsg t u = some s') (v : Tid) :
    (s'.thr v).sched = (s.thr v).sched ∧ s'.links = s.links ∧ s'.blocked = s.blocked := by
  rcases takeMsg_eq_some h with ⟨-, rfl⟩ | ⟨k, m, room, got, -, -, rfl⟩
  · exact ⟨rfl, rfl, rfl⟩
  · exact ⟨modify_field Thread.sched { s with kernel := k, log := _ } t v fun _ => rfl, rfl, rfl⟩

theorem QueueInv.takeFrom (hq : QueueInv s Q) (hh : s.links.head (.send, ep) = some u)
    (h : s.takeFrom t u ep = some s') :
    ∃ Q', QueueInv s' Q' ∧ (∀ q, u ∉ Q' q) ∧ (∀ q v, v ∈ Q' q → v ∈ Q q) ∧ u ∈ Q (.send, ep) := by
  obtain ⟨-, k, s₁, h1, rfl⟩ := takeFrom_eq_some h
  obtain ⟨Q', hQ', hu, hsub, hmem⟩ := hq.drop hh
  have hs1 : QueueInv s₁ Q' :=
    hQ'.congr (takeMsg_sched h1 u).2.1 (takeMsg_sched h1 u).2.2 fun v => (takeMsg_sched h1 v).1
  exact ⟨Q', QueueInv.release (QueueInv.modify hs1 t fun _ => rfl) hu, hu, hsub, hmem⟩

theorem takeFrom_sched_of_ne (h : s.takeFrom t u ep = some s') {v : Tid} (hne : v ≠ u) :
    (s'.thr v).sched = (s.thr v).sched := by
  obtain ⟨-, k, s₁, h1, rfl⟩ := takeFrom_eq_some h
  rw [release_thr_of_ne _ hne]
  refine (modify_field Thread.sched s₁ t v ?_).trans (takeMsg_sched h1 v).1
  exact fun _ => rfl

theorem QueueInv.answer (hq : QueueInv s Q) {request : ℕ}
    (hu : (s.thr u).state = .blocked → ∀ q, u ∉ Q q) (h : s.answer t u m request = some s') :
    QueueInv s' Q := by
  obtain ⟨s₁, h1, rfl⟩ := Option.map_eq_some_iff.mp h
  rcases copyReply_eq_some h1 with ⟨-, rfl⟩ | ⟨k, room, got, -, rfl⟩
  · refine QueueInv.wakeup (QueueInv.modify hq u fun _ => rfl) fun hb => hu ?_
    rw [modify_thr_self] at hb
    exact hb
  · have hk : QueueInv { s with kernel := k, log := .replied (s.thr u).op request :: s.log } Q :=
      hq.congr rfl rfl fun _ => rfl
    refine QueueInv.wakeup (QueueInv.modify (QueueInv.modify hk u ?_) u ?_) fun hb => hu ?_
    · exact fun _ => rfl
    · exact fun _ => rfl
    · rw [modify_thr_self, modify_thr_self] at hb
      exact hb

theorem answer_thr_of_ne {request : ℕ} (h : s.answer t u m request = some s') {v : Tid}
    (hne : v ≠ u) : s'.thr v = s.thr v := by
  obtain ⟨s₁, h1, rfl⟩ := Option.map_eq_some_iff.mp h
  rw [schedWakeupThread_thr_of_ne _ hne, modify_thr_of_ne _ _ hne]
  rcases copyReply_eq_some h1 with ⟨-, rfl⟩ | ⟨k, room, got, -, rfl⟩
  · rfl
  · rw [modify_thr_of_ne _ _ hne]

omit [DecidableEq Pid] in
theorem QueueInv.signal [Fintype Tid] (hq : QueueInv s Q) {o : Oid}
    (h : eventSignalByPtr s o bits = some s') :
    ∃ Q', QueueInv s' Q' ∧ (∀ q u, u ∈ Q' q → u ∈ Q q) ∧ ∀ t, Running s Q t →
    s'.thr t = s.thr t := by
  unfold eventSignalByPtr at h
  split at h
  · cases h
    exact ⟨Q, hq.congr rfl rfl fun _ => rfl, fun _ _ hu => hu, fun _ _ => rfl⟩
  · obtain ⟨hlist, hl⟩ := hq.linked.takeAll (.wait, o)
    have hsub : ∀ q' u, u ∈ Function.update Q (.wait, o) [] q' → u ∈ Q q' :=
      fun q' u => Lib.mem_of_mem_update nofun
    have hq1 : QueueInv ({ s with bits := Function.update s.bits o 0#32 }.setLinks
        (s.links.takeAll (.wait, o)).2) (Function.update Q (.wait, o) []) :=
      (hq.relink hl hsub).congr rfl rfl fun _ => rfl
    refine ⟨_, hq1.wakeAll ?_ (not_mem_takeAll hq) h, hsub, fun t hr => ?_⟩
    · exact fun _ => rfl
    have hnot : t ∉ (s.links.takeAll (.wait, o)).1 := by
      rw [hlist]
      exact hr.free _
    have ht := wakeAll_thr_of_not_mem hnot h
    exact ht

omit [DecidableEq Tid] [DecidableEq Pid] in
theorem QueueInv.newObject (hq : QueueInv s Q) (o : Oid) :
    QueueInv (s.newObject o) fun q => if q.2 = o then [] else Q q := by
  have hsub : ∀ q u, u ∈ (if q.2 = o then [] else Q q) → u ∈ Q q := by
    intro q u hu
    split_ifs at hu
    · cases hu
    · exact hu
  refine QueueInv.congr (hq.relink ⟨fun q => ?_, ?_⟩ hsub) rfl rfl
    fun _ => rfl
  · show Lib.Chain s.links.next (if q.2 = o then none else s.links.head q) _
    split_ifs
    · exact .nil
    · exact hq.linked.chain q
  · exact fun q q' t h h' => hq.linked.apart q q' t (hsub q t h) (hsub q' t h')

end Composites

def Sys.InQueue (s : Sys Pid Oid Tid) (q : Queue Oid) (u : Tid) : Prop :=
  Lib.Meets s.links.next u (s.links.head q)

def Sys.Queued (s : Sys Pid Oid Tid) (u : Tid) : Prop := ∃ q, s.InQueue q u

/-- `thread_force_exit` has freed no thread that is still in a wait queue. -/
def Sys.Unfreed (s : Sys Pid Oid Tid) : Prop := ∀ u, s.Queued u → (s.thr u).state ≠ .exited


theorem QueueInv.inQueue_iff (hq : QueueInv s Q) : s.InQueue q u ↔ u ∈ Q q :=
  (hq.linked.chain q).meets_iff

theorem QueueInv.queued_iff (hq : QueueInv s Q) : s.Queued u ↔ ∃ q, u ∈ Q q :=
  exists_congr fun _ => hq.inQueue_iff

def Cmd.blocks : Cmd Pid Oid Tid → Bool
  | .send .. | .call .. | .recv .. | .eventWait .. | .pipeRead .. | .pipeWrite .. => true
  | _ => false

/-- No reply or signal wakes a thread in a queue, and no thread starts to block while a wakeup is
pending for it. -/
def QueueCalm [DecidableEq Tid] (s : Sys Pid Oid Tid) : Action Pid Oid Tid → Prop
  | .run t c =>
    (∀ u, c.rouses s t = some u → (s.thr u).state = .blocked → ¬ s.Queued u) ∧
      (c.blocks → (s.thr t).pendingWakeup = false)
  | _ => True

section Move
variable {ok : Sys Pid Oid Tid → Action Pid Oid Tid → Prop} {ph ph' : Phase Tid}

theorem Wait.resumed_sched (w : Wait Oid) {th : Thread Pid Oid Tid} (hs : th.Sound)
    (hready : th.state = .ready) (hpc : th.pc = some b) (hw : b.on = w) :
    (w.resumed th).sched = (.ready, none, 0) := by
  have htick : w.timed = false → w ≠ .sleep → th.wakeupTick = 0 := by
    intro htimed hsleep
    by_contra hne
    obtain ⟨b', hb', h⟩ := hs.deadline hne
    rw [hpc] at hb'
    cases hb'
    subst hw
    rcases h with h | h
    · exact hsleep h
    · rw [htimed] at h
      cases h.1
  cases w <;> simp_all [Wait.resumed, Thread.sched, Wait.timed]

theorem Wait.phase_thread (w : Wait Oid) (t : Tid) (stage : Stage) :
    (w.phase t stage).thread = some t := by
  unfold Wait.phase
  split <;> rfl

variable [DecidableEq Tid] [DecidableEq Pid]

theorem processKillOne_sched_of_ready (hq : QueueInv s Q) {p : Pid} {sig : ℕ}
    (hready : (s.thr t).state = .ready) :
    ((processKillOne s p sig).thr t).sched = (s.thr t).sched := by
  have hnot : t ∉ s.blocked := fun h => by
    rw [(hq.onList t).mp h] at hready
    cases hready
  have hfirst : ∀ s₁ : Sys Pid Oid Tid, s₁.thr = s.thr → s₁.blocked = s.blocked →
      ((s₁.wakeFirst p).thr t).sched = (s.thr t).sched := by
    intro s₁ hthr hblocked
    unfold Sys.wakeFirst
    split
    · rename_i u _
      by_cases hne : t = u
      · subst hne
        rw [schedWakeupThread_thr_self, hthr, hblocked, if_neg (by simp [hnot, hready])]
        rfl
      · rw [schedWakeupThread_thr_of_ne _ hne, hthr]
    · rw [hthr]
  unfold processKillOne
  split_ifs
  · exact hfirst _ rfl rfl
  · exact hfirst _ rfl rfl

variable [DecidableEq Oid]

omit [DecidableEq Pid] in
theorem QueueInv.joined (hq : QueueInv s Q) (hr : Running s Q t)
    (hbq : b.on.queue = some q) (hl : s'.links = s.links.push q t) (hb : s'.blocked = s.blocked)
    (hth : ∀ u, (s'.thr u).sched = (s.thr u).sched) :
    ∃ Q', QueueInv (s'.sleepAt t b) Q' ∧
      (∀ u, (Phase.user : Phase Tid).thread = some u → Running (s'.sleepAt t b) Q' u) ∧
      ∀ q u, u ∈ Q' q → u ∈ Q q ∨ some t = some u ∧ (Phase.user : Phase Tid) = .user := by
  refine ⟨_, hq.enqueueSleep hr hbq hl hb hth, nofun, fun q' u hu => ?_⟩
  by_cases h : q' = q
  · subst h
    rw [update_self, mem_cons] at hu
    exact hu.elim (fun h => .inr ⟨h ▸ rfl, rfl⟩) .inl
  · rw [update_of_ne h] at hu
    exact .inl hu

variable [Fintype Tid]

theorem QueueInv.move (hok : ∀ s a, ok s a → QueueCalm s a) (hm : Move ok ph s ph' s')
    (hq : QueueInv s Q) (hr : ∀ t, ph.thread = some t → Running s Q t) :
    ∃ Q', QueueInv s' Q' ∧ (∀ t, ph'.thread = some t → Running s' Q' t) ∧
      ∀ q u, u ∈ Q' q → u ∈ Q q ∨ ph.thread = some u ∧ ph' = .user := by
  have kept : QueueInv s' Q → (∀ t, ph'.thread = some t → Running s' Q t) →
      ∃ Q', QueueInv s' Q' ∧ (∀ t, ph'.thread = some t → Running s' Q' t) ∧
        ∀ q u, u ∈ Q' q → u ∈ Q q ∨ ph.thread = some u ∧ ph' = .user :=
    fun hq' hr' => ⟨Q, hq', hr', fun _ _ h => .inl h⟩
  cases hm with
  | tick => exact kept hq.tick nofun
  | @enter _ t hready hpc =>
    exact kept hq fun u hu => by
      cases hu
      exact hq.running hready hpc
  | @begin _ t kind req buf hready hpc _ =>
    have hsched := begin_sched s t req buf
    refine kept (hq.congr rfl rfl hsched) fun u hu => ?_
    cases hu
    exact (hq.running hready hpc).congr (hsched t)
  | @answer _ _ t c u request m hc hready hpc hc' hb h =>
    have hrun := hq.running hready hpc
    have hblocked : (s.thr u).state = .blocked := (hq.onList u).mp hb
    have hfree : ∀ q, u ∉ Q q := fun q hu =>
      (hok _ _ hc).1 u (by simp [Cmd.rouses, hc']) hblocked (hq.queued_iff.mpr ⟨q, hu⟩)
    have hne : t ≠ u := by
      rintro rfl
      rw [hready] at hblocked
      cases hblocked
    refine kept (hq.answer (fun _ => hfree) h) fun v hv => ?_
    cases hv
    exact hrun.mono (answer_thr_of_ne h hne) fun _ _ h => h
  | @kill _ t p sig hc hready hpc hsig hproc =>
    have hrun := hq.running hready hpc
    obtain ⟨pr, hpr⟩ := Option.isSome_iff_exists.mp hproc
    refine kept (hq.kill fun u hhead hb q hu => ?_) fun v hv => ?_
    · have hkills : (Cmd.kill p sig).kills s = some u := by
        rw [Cmd.kills, if_neg hsig, hpr]
        exact hhead
      exact (hok _ _ hc).1 u (by simp [Cmd.rouses, Cmd.answers, hkills]) hb
        (hq.queued_iff.mpr ⟨q, hu⟩)
    · cases hv
      exact hrun.congr (processKillOne_sched_of_ready hq hready)
  | @woken _ t b hready hpc hexp =>
    have hfree : ∀ q, t ∉ Q q := fun q ht => by
      obtain ⟨b', hb', -, hx⟩ := hq.waits q t ht
      rw [hpc] at hb'
      cases hb'
      rw [hx hready] at hexp
      cases hexp
    obtain ⟨hq', hrun⟩ := hq.settle hready (b.on.resumed_sched (hq.sound t) hready hpc rfl) hfree
    refine kept hq' fun v hv => ?_
    rw [Wait.phase_thread] at hv
    cases hv
    exact hrun
  | @expired _ t b kind hc hready hpc hexp hkind hqueue =>
    have hfree : ∀ q, t ∉ Q q := fun q ht => by
      obtain ⟨b', hb', hbq, -⟩ := hq.waits q t ht
      rw [hpc] at hb'
      cases hb'
      rw [hqueue] at hbq
      cases hbq
    obtain ⟨hq', hrun⟩ := hq.settle hready (b.on.resumed_sched (hq.sound t) hready hpc rfl) hfree
    refine kept hq' fun v hv => ?_
    cases hv
    exact hrun
  | @withdrawn _ _ t b kind q hc hready hpc hexp hkind hqueue h =>
    have hmem : ∀ q', t ∈ Q q' → q' = q := fun q' ht => by
      obtain ⟨b', hb', hbq, -⟩ := hq.waits q' t ht
      rw [hpc] at hb'
      cases hb'
      rw [hqueue] at hbq
      cases hbq
      rfl
    obtain ⟨Q', hq', hrun, hsub⟩ :=
      hq.withdraw hready (b.on.resumed_sched (hq.sound t) hready hpc rfl) hmem h
    refine ⟨Q', hq', fun v hv => ?_, fun q u hu => .inl (hsub q u hu)⟩
    cases hv
    exact hrun
  | handles | contents | copied =>
    exact kept (hq.congr rfl rfl fun _ => rfl) fun t ht => (hr t ht).congr rfl
  | notified | answered =>
    refine kept (QueueInv.modify hq _ ?_) fun v hv => Running.modify (hr v hv) _ ?_ <;>
      exact fun _ => rfl
  | newObject o =>
    have hsub : ∀ q u, u ∈ (if q.2 = o then [] else Q q) → u ∈ Q q := by
      intro q u hu
      split_ifs at hu
      · cases hu
      · exact hu
    exact ⟨_, hq.newObject o, fun t ht => (hr t ht).mono rfl hsub, fun q u hu => .inl (hsub q u hu)⟩
  | drain _ h =>
    obtain ⟨hq', hsub, hthr⟩ := hq.drain h
    exact ⟨_, hq', fun t ht => (hr t ht).mono (hthr t (hr t ht)) hsub,
      fun q u hu => .inl (hsub q u hu)⟩
  | signal h =>
    obtain ⟨Q', hq', hsub, hthr⟩ := hq.signal h
    exact ⟨Q', hq', fun t ht => (hr t ht).mono (hthr t (hr t ht)) hsub,
      fun q u hu => .inl (hsub q u hu)⟩
  | @handOver _ _ t kind r ep m hkind hreq hh h =>
    obtain ⟨Q', hq', -, hsub, hmem⟩ := hq.handOver hh h
    refine ⟨Q', hq', fun v hv => ?_, fun q u hu => .inl (hsub q u hu)⟩
    cases hv
    have hne : t ≠ r := fun heq => (hr t rfl).free _ (heq ▸ hmem)
    exact (hr t rfl).mono (handOver_thr_of_ne h hne) hsub
  | @takeFrom _ _ t u ep hh h =>
    obtain ⟨Q', hq', -, hsub, hmem⟩ := hq.takeFrom hh h
    refine ⟨Q', hq', fun v hv => ?_, fun q u hu => .inl (hsub q u hu)⟩
    cases hv
    have hne : t ≠ u := fun heq => (hr t rfl).free _ (heq ▸ hmem)
    have hrun := (hr t rfl).congr (takeFrom_sched_of_ne h hne)
    exact ⟨hrun.ready, hrun.pc, hrun.tick, fun q ht => hrun.free q (hsub q t ht)⟩
  | @unpublish _ t kind stage =>
    exact kept (hq.modify t fun _ => rfl) fun v hv => (hr v hv).modify t fun _ => rfl
  | @waitSent _ t ep timeout =>
    refine kept (QueueInv.sleepAt (QueueInv.modify hq t ?_)
      (Running.modify (hr t rfl) t ?_) _) nofun <;> exact fun _ => rfl
  | @waitSend _ t kind w ep timeout hkind hw hwq =>
    exact hq.joined (hr t rfl) hwq rfl rfl
      fun u => modify_field Thread.sched (s.enqueue (.send, ep) t) t u fun _ => rfl
  | @waitRecv _ t ep timeout =>
    refine hq.joined (hr t rfl) rfl rfl rfl fun u => ?_
    refine modify_field Thread.sched (s.enqueue (.recv, ep) t) t u ?_
    exact fun _ => rfl
  | @waitObject _ t w q hw hwq => exact hq.joined (hr t rfl) hwq rfl rfl fun _ => rfl
  | @sleep _ t ticks => exact kept (hq.sleepAt (hr t rfl) _) nofun
  | back => exact kept hq nofun
  | @finish _ t r => exact kept (hq.leave (hr t rfl) none r) nofun
  | @finishOp _ t kind stage r hret => exact kept (hq.leave (hr t rfl) _ r) nofun

end Move

end Xnix
