import Xnix.Lib.Splice
import Xnix.EventMachine

/-!
# Bits of events

`event_wait` takes any wakeup for one with bits: a waiter woken by `process_kill` returns 0 and
stays in the wait queue (`event_bits_lost`). Where no blocked waiter is woken from elsewhere, none
calls `sched_block` with a wakeup pending and no bits, and no thread is ended while it is in a list
or has one, every waiter is in one list until it gets its bits (`EventQueues`), and the bits of an
event are on it, with a signaller, or with a waiter of this event (`EventBits`).
-/

namespace Xnix

open Function

variable {κ Tid : Type} {t : Tid} {o : κ} {q : EventList κ Tid} {s s' : EventSys κ Tid}
  {Q : EventList κ Tid → List Tid}

section Statements
def EventPc.inWait (o : κ) (pc : EventPc κ) : Prop :=
    pc = .queued o ∨ pc = .asleep o ∨ pc = .woken o

def EventPc.outside (pc : EventPc κ) : Prop := ∀ o, ¬ pc.inWait o

def Within (a b : BitVec 32) : Prop := ∀ i, a.getLsbD i = true → b.getLsbD i = true

variable [DecidableEq κ]

def signalled (o : κ) : List (EventLog κ Tid) → BitVec 32
  | [] => 0
  | .signal o' bits :: l => if o' = o then signalled o l ||| bits else signalled o l
  | .ret _ _ _ :: l => signalled o l

/-- The bits that were signalled on the event and that no wait on it has returned since. -/
def unreturned (o : κ) : List (EventLog κ Tid) → BitVec 32
  | [] => 0
  | .signal o' bits :: l => if o' = o then unreturned o l ||| bits else unreturned o l
  | .ret o' _ bits :: l => if o' = o then unreturned o l &&& ~~~bits else unreturned o l

/-- Every wait returned bits, all of which had been signalled on its event. -/
def LogTruthful : List (EventLog κ Tid) → Prop
  | [] => True
  | .signal _ _ :: l => LogTruthful l
  | .ret o _ bits :: l => bits ≠ 0 ∧ Within bits (signalled o l) ∧ LogTruthful l

/-- A bit is on its way to a waiter of the event: the waiter has it, or a signaller who has it comes
to this waiter. -/
def OnItsWay (s : EventSys κ Tid) (o : κ) (i : ℕ) : Prop :=
  ∃ t, (s.job t).pc.inWait o ∧ ((s.job t).notifiedBits.getLsbD i = true ∨
    ∃ u bits, (s.job u).pc = .delivering o bits ∧ bits.getLsbD i = true ∧
      Lib.Meets s.links.next t (s.links.head (.waiters u)))

/-- Bits are neither lost nor invented, and who has returned is in no wait queue. -/
structure EventSound (s : EventSys κ Tid) : Prop where
  kept : ∀ o i, (unreturned o s.log).getLsbD i = true →
    (s.pendingBits o).getLsbD i = true ∨ OnItsWay s o i
  truthful : LogTruthful s.log
  left : ∀ t, (s.job t).pc.outside → ∀ o, ¬ Lib.Meets s.links.next t (s.links.head (.queue o))

/-- No blocked waiter is woken from elsewhere, no waiter calls `sched_block` with a wakeup pending
and without its bits, and no thread is ended in `event_wait` or while it goes through waiters. -/
structure EventCalm (s : EventSys κ Tid) (a : EventAction κ Tid) : Prop where
  own : ∀ u, a = .poke u → (s.sched u).run ≠ .blocked
  stale : ∀ t, a = .block t → (s.sched t).pendingWakeup = true → (s.job t).notifiedBits ≠ 0
  ended : ∀ u, a = .forceExit u → (s.job u).pc.outside ∧ ∀ o b, (s.job u).pc ≠ .delivering o b

end Statements

variable {bits : BitVec 32}

section Log
variable [DecidableEq κ] {l : List (EventLog κ Tid)}

theorem Within.trans {a b c : BitVec 32} (hab : Within a b) (hbc : Within b c) : Within a c :=
  fun i hi => hbc i (hab i hi)

theorem signalled_cons (e : EventLog κ Tid) (l : List (EventLog κ Tid)) (o : κ) :
    Within (signalled o l) (signalled o (e :: l)) := by
  intro i hi
  cases e with
  | signal o' bits =>
    simp only [signalled]
    split
    · simp [hi]
    · exact hi
  | ret o' t bits => exact hi

theorem signalled_signal_self (o : κ) (bits : BitVec 32) (l : List (EventLog κ Tid)) :
    signalled o (.signal o bits :: l) = signalled o l ||| bits := if_pos rfl

theorem unreturned_signal {o' : κ} {i : ℕ}
    (h : (unreturned o (.signal o' bits :: l)).getLsbD i = true) :
    (unreturned o l).getLsbD i = true ∨ (o' = o ∧ bits.getLsbD i = true) := by
  simp only [unreturned] at h
  split at h
  · rename_i ho
    simp only [BitVec.getLsbD_or, Bool.or_eq_true] at h
    exact h.imp_right fun hb => ⟨ho, hb⟩
  · exact .inl h

theorem unreturned_ret {o' : κ} {i : ℕ}
    (h : (unreturned o (.ret o' t bits :: l)).getLsbD i = true) :
    (unreturned o l).getLsbD i = true ∧ (o' = o → bits.getLsbD i = false) := by
  simp only [unreturned] at h
  split at h
  · simp only [BitVec.getLsbD_and, BitVec.getLsbD_not, Bool.and_eq_true, Bool.not_eq_true'] at h
    exact ⟨h.1, fun _ => h.2.2⟩
  · rename_i ho
    exact ⟨h, fun heq => absurd heq ho⟩

end Log

section Invariant

def Waits (s : EventSys κ Tid) (o : κ) (t : Tid) : Prop :=
  (s.job t).pc = .queued o ∨ ((s.job t).pc = .asleep o ∧ (s.sched t).run = .blocked)

def Held (s : EventSys κ Tid) (t : Tid) : EventList κ Tid → Prop
  | .queue o => Waits s o t ∧ (s.job t).notifiedBits = 0
  | .waiters u =>
    ∃ o bits, (s.job u).pc = .delivering o bits ∧ Waits s o t ∧ (s.job t).notifiedBits = 0

structure InWait (s : EventSys κ Tid) (Q : EventList κ Tid → List Tid) (t : Tid) : Prop where
  queued : ∀ o, (s.job t).pc = .queued o →
    (∃ q, t ∈ Q q) ∨ ((s.sched t).pendingWakeup = true ∧ (s.job t).notifiedBits ≠ 0)
  asleep : ∀ o, (s.job t).pc = .asleep o → ((s.sched t).run = .blocked → ∃ q, t ∈ Q q) ∧
    ((s.sched t).run ≠ .blocked → (s.job t).notifiedBits ≠ 0)
  woken : ∀ o, (s.job t).pc = .woken o → (s.job t).notifiedBits ≠ 0

/-- The lists hold waiters without bits, and a waiter in no list has got them. -/
structure EventQueues (s : EventSys κ Tid) (Q : EventList κ Tid → List Tid) : Prop where
  linked : Lib.Linked s.links Q
  held : ∀ {q t}, t ∈ Q q → Held s t q
  thread : ∀ t, InWait s Q t

theorem Waits.inWait (h : Waits s o t) : (s.job t).pc.inWait o := h.imp id fun h => .inl h.1

section
variable (h : EventQueues s Q)
include h

theorem EventQueues.waits (ht : t ∈ Q q) :
    (∃ o, Waits s o t) ∧ (s.job t).notifiedBits = 0 := by
  have hheld := h.held ht
  cases q with
  | queue o => exact ⟨⟨o, hheld.1⟩, hheld.2⟩
  | waiters u =>
    obtain ⟨o, -, -, hw, hn⟩ := hheld
    exact ⟨⟨o, hw⟩, hn⟩

theorem EventQueues.not_mem (ht : ∀ o, ¬ Waits s o t) (q : EventList κ Tid) : t ∉ Q q :=
    fun hmem => by
  obtain ⟨⟨o, ho⟩, -⟩ := h.waits hmem
  exact ht o ho

theorem EventQueues.not_mem_of_outside (ht : (s.job t).pc.outside) (q : EventList κ Tid) :
    t ∉ Q q := h.not_mem (fun o ho => ht o ho.inWait) q

theorem EventQueues.hand_nil {u : Tid} (hu : ∀ o bits, (s.job u).pc ≠ .delivering o bits) :
    Q (.waiters u) = [] := by
  rw [List.eq_nil_iff_forall_not_mem]
  intro t ht
  obtain ⟨o, bits, hpc, -⟩ := h.held ht
  exact hu o bits hpc

end

variable [DecidableEq κ]

/-- The bits of every event are accounted for. -/
structure EventBits (s : EventSys κ Tid) (Q : EventList κ Tid → List Tid) : Prop where
  parked : ∀ t, (s.job t).notifiedBits ≠ 0 →
    ∃ o, (s.job t).pc.inWait o ∧ Within (s.job t).notifiedBits (signalled o s.log)
  hand : ∀ u o bits, (s.job u).pc = .delivering o bits → bits ≠ 0 ∧ Within bits (signalled o s.log)
  pending : ∀ o, Within (s.pendingBits o) (signalled o s.log)
  head : ∀ u o bits, (s.job u).pc = .signalHead o bits → bits ≠ 0
  kept : ∀ o i, (unreturned o s.log).getLsbD i = true → (s.pendingBits o).getLsbD i = true ∨
    (∃ t, (s.job t).pc.inWait o ∧ (s.job t).notifiedBits.getLsbD i = true) ∨
    ∃ u bits, (s.job u).pc = .delivering o bits ∧ bits.getLsbD i = true ∧ Q (.waiters u) ≠ []
  truthful : LogTruthful s.log

theorem EventQueues.sound (h : EventQueues s Q) (hb : EventBits s Q) : EventSound s := by
  refine ⟨fun o i hi => ?_, hb.truthful, fun t ht o hmeets => ?_⟩
  · rcases hb.kept o i hi with hp | ⟨t, ht, hn⟩ | ⟨u, bits, hu, hbit, hne⟩
    · exact .inl hp
    · exact .inr ⟨t, ht, .inl hn⟩
    · obtain ⟨t, ht⟩ := List.exists_mem_of_ne_nil _ hne
      obtain ⟨o', bits', hu', hw, -⟩ := h.held ht
      obtain ⟨rfl, rfl⟩ := EventPc.delivering.inj (hu.symm.trans hu')
      exact .inr ⟨t, hw.inWait, .inr ⟨u, bits, hu, hbit, (h.linked.chain _).meets_iff.mpr ht⟩⟩
  · exact h.not_mem_of_outside ht _ ((h.linked.chain _).meets_iff.mp hmeets)

end Invariant

section Queues
variable {Q' : EventList κ Tid → List Tid}

theorem Held.congr (h : Held s t q) (hjob : s'.job t = s.job t)
    (hrun : (s.sched t).run = .blocked → (s'.sched t).run = .blocked)
    (hhand : ∀ u, q = .waiters u → (s'.job u).pc = (s.job u).pc) : Held s' t q := by
  have hwaits : ∀ o, Waits s o t → Waits s' o t := by
    intro o ho
    rw [Waits, hjob]
    exact ho.imp id (And.imp id hrun)
  cases q with
  | queue o => exact ⟨hwaits o h.1, hjob ▸ h.2⟩
  | waiters u =>
    obtain ⟨o, bits, hu, hw, hn⟩ := h
    exact ⟨o, bits, (hhand u rfl).trans hu, hwaits o hw, hjob ▸ hn⟩

theorem InWait.congr (h : InWait s Q t) (hjob : s'.job t = s.job t)
    (hsched : s'.sched t = s.sched t) (hin : (∃ q, t ∈ Q q) → ∃ q, t ∈ Q' q) : InWait s' Q' t := by
  constructor <;> rw [hjob]
  · rw [hsched]
    exact fun o ho => (h.queued o ho).imp_left hin
  · rw [hsched]
    exact fun o ho => (h.asleep o ho).imp_left fun hb hrun => hin (hb hrun)
  · exact h.woken

variable [DecidableEq Tid]

theorem EventQueues.move {j : EventJob κ} {w : Waiter} (h : EventQueues s Q) (hout : ∀ q, t ∉ Q q)
    (hhand : Q (.waiters t) = []) (hlinks : s'.links = s.links)
    (hjob : s'.job = update s.job t j) (hsched : s'.sched = update s.sched t w)
    (hqueued : ∀ o, j.pc ≠ .queued o) (hasleep : ∀ o, j.pc ≠ .asleep o)
    (hwoken : ∀ o, j.pc = .woken o → j.notifiedBits ≠ 0) : EventQueues s' Q := by
  have hself : s'.job t = j := by rw [hjob, update_self]
  have hother : ∀ u, u ≠ t → s'.job u = s.job u ∧ s'.sched u = s.sched u := fun u hu => by
    rw [hjob, hsched, update_of_ne hu, update_of_ne hu]
    exact ⟨rfl, rfl⟩
  refine ⟨hlinks ▸ h.linked, fun {q u} hu => ?_, fun u => ?_⟩
  · have hut : u ≠ t := fun heq => hout q (heq ▸ hu)
    refine (h.held hu).congr (hother u hut).1 (by rw [(hother u hut).2]; exact id) fun v hv => ?_
    rw [(hother v ?_).1]
    rintro rfl
    rw [hv, hhand] at hu
    cases hu
  · by_cases hut : u = t
    · subst hut
      refine ⟨?_, ?_, ?_⟩ <;> rw [hself]
      · exact fun o ho => absurd ho (hqueued o)
      · exact fun o ho => absurd ho (hasleep o)
      · exact hwoken
    · exact (h.thread u).congr (hother u hut).1 (hother u hut).2 id

theorem EventQueues.poke (h : EventQueues s Q) (hrun : (s.sched t).run ≠ .blocked) :
    EventQueues { s with sched := update s.sched t (s.sched t).wakeup } Q := by
  refine ⟨h.linked, fun {q u} hu => (h.held hu).congr rfl ?_ fun _ _ => rfl, fun u => ?_⟩ <;>
    by_cases hut : u = t
  · exact fun hb => absurd (hut ▸ hb) hrun
  · simp [hut]
  · subst hut
    refine ⟨fun o ho => ((h.thread u).queued o ho).imp_right fun hb => ⟨by simp, hb.2⟩,
      fun o ho => ⟨?_, ?_⟩, (h.thread u).woken⟩
    · simp
    · exact fun _ => ((h.thread u).asleep o ho).2 hrun
  · exact (h.thread u).congr rfl (update_of_ne hut ..) id

theorem EventQueues.sleep (h : EventQueues s Q) (hpc : (s.job t).pc = .queued o)
    (hp : (s.sched t).pendingWakeup = false) : EventQueues (s.block t o) Q := by
  have hin : ∃ q, t ∈ Q q := ((h.thread t).queued o hpc).resolve_right (by simp [hp])
  have hself : (s.block t o).job t = { s.job t with pc := .asleep o } ∧
      (s.block t o).sched t = ⟨.blocked, false, false⟩ := by
    simp [EventSys.block, EventSys.setPc, hp, block_of_not_pending]
  have hother : ∀ u, u ≠ t → (s.block t o).job u = s.job u ∧ (s.block t o).sched u = s.sched u :=
    fun u hu => ⟨update_of_ne hu .., update_of_ne hu ..⟩
  have hhand : ∀ q u, u ∈ Q q → ∀ v, q = .waiters v → ((s.block t o).job v).pc = (s.job v).pc := by
    rintro q u hu v rfl
    obtain ⟨o', bits, hv, -⟩ := h.held hu
    rw [(hother v ?_).1]
    rintro rfl
    rw [hpc] at hv
    cases hv
  have hwaits : ∀ o', Waits s o' t → Waits (s.block t o) o' t := by
    intro o' hw
    refine .inr ⟨?_, by rw [hself.2]⟩
    rcases hw with hw | ⟨hw, -⟩ <;> rw [hpc] at hw <;> cases hw
    rw [hself.1]
  refine ⟨h.linked, fun {q u} hu => ?_, fun u => ?_⟩ <;> by_cases hut : u = t
  · subst hut
    have hheld := h.held hu
    cases q with
    | queue o' => exact ⟨hwaits o' hheld.1, by rw [hself.1]; exact hheld.2⟩
    | waiters v =>
      obtain ⟨o', bits, hv, hw, hn⟩ := hheld
      exact ⟨o', bits, (hhand _ u hu v rfl).trans hv, hwaits o' hw, by rw [hself.1]; exact hn⟩
  · exact (h.held hu).congr (hother u hut).1 (by rw [(hother u hut).2]; exact id) (hhand q u hu)
  · subst hut
    refine ⟨?_, fun _ _ => ⟨fun _ => hin, fun hb => absurd (by rw [hself.2]) hb⟩,
      ?_⟩ <;> rw [hself.1] <;> nofun
  · exact (h.thread u).congr (hother u hut).1 (hother u hut).2 id

end Queues

section Lists
variable [DecidableEq κ] [DecidableEq Tid]

theorem EventQueues.enqueue (h : EventQueues s Q) (hpc : (s.job t).pc = .waitHead o)
    (hn : (s.job t).notifiedBits = 0) :
    EventQueues ({ s with links := s.links.push (.queue o) t }.setPc t (.queued o))
      (update Q (.queue o) (t :: Q (.queue o))) := by
  have hout : ∀ q, t ∉ Q q := h.not_mem fun o' ho' => by
    rcases ho' with ho' | ⟨ho', -⟩ <;> rw [hpc] at ho' <;> cases ho'
  set s' := ({ s with links := s.links.push (.queue o) t }.setPc t (.queued o)) with hs'
  have hself : s'.job t = ⟨.queued o, 0⟩ := by simp [hs', EventSys.setPc, ← hn]
  have hother : ∀ u, u ≠ t → s'.job u = s.job u := fun u hu => update_of_ne hu ..
  have hmem : ∀ q u, u ∈ update Q (.queue o) (t :: Q (.queue o)) q ↔
    u ∈ Q q ∨ (u = t ∧ q = .queue o) := by
    intro q u
    by_cases hq : q = .queue o
    · subst hq
      simp [or_comm]
    · simp [hq]
  refine ⟨h.linked.push hout, fun {q u} hu => ?_, fun u => ?_⟩
  · rcases (hmem q u).mp hu with hu | ⟨rfl, rfl⟩
    · refine (h.held hu).congr (hother u fun heq => hout q (heq ▸ hu)) id fun v hv => ?_
      obtain ⟨o', bits, hv, -⟩ := h.held (hv ▸ hu)
      rw [hother v]
      rintro rfl
      rw [hpc] at hv
      cases hv
    · exact ⟨.inl (by rw [hself]), by rw [hself]⟩
  · have hin : u = t ∨ (∃ q, u ∈ Q q) → ∃ q, u ∈ update Q (.queue o) (t :: Q (.queue o)) q := by
      rintro (hu | ⟨q, hq⟩)
      · exact ⟨_, (hmem _ u).mpr (.inr ⟨hu, rfl⟩)⟩
      · exact ⟨q, (hmem q u).mpr (.inl hq)⟩
    by_cases hut : u = t
    · subst hut
      refine ⟨fun _ _ => .inl (hin (.inl rfl)), ?_, ?_⟩ <;> rw [hself] <;> nofun
    · exact (h.thread u).congr (hother u hut) rfl fun hq => hin (.inr hq)

theorem EventQueues.shift (h : EventQueues s Q) (hout : (s.job t).pc.outside)
    (hhand : Q (.waiters t) = [])
    (hjob : s'.job = update s.job t { s.job t with pc := .delivering o bits })
    (hsched : s'.sched = s.sched) (hlinks : s'.links = s.links.shift (.queue o) (.waiters t)) :
    EventQueues s'
      (update (update Q (.waiters t) (Q (.queue o))) (.queue o) []) := by
  obtain ⟨hself, hother⟩ := update_apart hjob
  have hne : ∀ q u, u ∈ Q q → u ≠ t := by
    rintro q u hu rfl
    exact h.not_mem_of_outside hout q hu
  have hmem : ∀ q u, u ∈ update (update Q (.waiters t) (Q (.queue o))) (.queue o) [] q ↔
      q = .waiters t ∧ u ∈ Q (.queue o) ∨ q ≠ .waiters t ∧ q ≠ .queue o ∧ u ∈ Q q := by
    intro q u
    by_cases hq : q = .queue o
    · simp [hq]
    · by_cases hqt : q = .waiters t
      · simp [hqt]
      · simp [hq, hqt]
  refine ⟨hlinks ▸ h.linked.shift (by simp), fun {q u} hu => ?_, fun u => ?_⟩
  · rcases (hmem q u).mp hu with ⟨rfl, hin⟩ | ⟨hqt, -, hin⟩
    · exact ⟨o, bits, by rw [hself],
        (h.held hin : Held s u (.queue o)).congr (hother u (hne _ u hin))
        (by rw [hsched]; exact id) nofun⟩
    · refine (h.held hin).congr (hother u (hne _ u hin)) (by rw [hsched]; exact id) fun v hv => ?_
      rw [hother v]
      rintro rfl
      exact hqt hv
  · by_cases hut : u = t
    · subst hut
      refine ⟨?_, ?_, ?_⟩ <;> rw [hself] <;> nofun
    · refine (h.thread u).congr (hother u hut) (by rw [hsched]) ?_
      rintro ⟨q, hq⟩
      by_cases hqo : q = .queue o
      · exact ⟨.waiters t, (hmem _ u).mpr (.inl ⟨rfl, hqo ▸ hq⟩)⟩
      · refine ⟨q, (hmem q u).mpr (.inr ⟨?_, hqo, hq⟩)⟩
        rintro rfl
        rw [hhand] at hq
        cases hq

theorem EventQueues.deliver {w : Tid} {l : List Tid} (h : EventQueues s Q)
    (hw : Q (.waiters t) = w :: l) (hbits : bits ≠ 0)
    (hjob : s'.job = update s.job w { s.job w with notifiedBits := bits })
    (hsched : s'.sched = update s.sched w (s.sched w).wakeup)
    (hlinks : s'.links = s.links.drop (.waiters t) w) :
    EventQueues s' (update Q (.waiters t) l) := by
  have hwin : w ∈ Q (.waiters t) := by simp [hw]
  have hwl : w ∉ l := (List.nodup_cons.mp (hw ▸ (h.linked.chain (.waiters t)).nodup)).1
  have hself : s'.job w = { s.job w with notifiedBits := bits } ∧
    s'.sched w = (s.sched w).wakeup := by
    rw [hjob, hsched, update_self, update_self]
    exact ⟨rfl, rfl⟩
  have hother : ∀ u, u ≠ w → s'.job u = s.job u ∧ s'.sched u = s.sched u := fun u hu => by
    rw [hjob, hsched, update_of_ne hu, update_of_ne hu]
    exact ⟨rfl, rfl⟩
  have hpc : ∀ u, (s'.job u).pc = (s.job u).pc := by
    intro u
    by_cases hu : u = w
    · rw [hu, hself.1]
    · rw [(hother u hu).1]
  have hmem : ∀ q u, u ∈ update Q (.waiters t) l q ↔ u ∈ Q q ∧ u ≠ w := by
    intro q u
    by_cases hq : q = .waiters t
    · subst hq
      rw [update_self, hw, List.mem_cons]
      exact ⟨fun hu => ⟨.inr hu, fun heq => hwl (heq ▸ hu)⟩, fun hu => hu.1.resolve_left hu.2⟩
    · rw [update_of_ne hq]
      exact ⟨fun hu => ⟨hu, fun heq => hq (h.linked.apart q _ w (heq ▸ hu) hwin)⟩, fun hu => hu.1⟩
  refine ⟨hlinks ▸ h.linked.drop hw, fun {q u} hu => ?_, fun u => ?_⟩
  · obtain ⟨hu, hne⟩ := (hmem q u).mp hu
    exact (h.held hu).congr (hother u hne).1 (by rw [(hother u hne).2]; exact id) fun v _ => hpc v
  · by_cases hne : u = w
    · subst hne
      refine ⟨fun _ _ => .inr ?_, fun _ _ => ?_, fun _ _ => ?_⟩ <;> rw [hself.1]
      · exact ⟨by rw [hself.2]; rfl, hbits⟩
      · exact ⟨fun hb => absurd (hself.2 ▸ hb) (wakeup_run_ne_blocked _), fun _ => hbits⟩
      · exact hbits
    · exact (h.thread u).congr (hother u hne).1 (hother u hne).2 fun ⟨q, hq⟩ =>
        ⟨q, (hmem q u).mpr ⟨hq, hne⟩⟩

end Lists

end Xnix
