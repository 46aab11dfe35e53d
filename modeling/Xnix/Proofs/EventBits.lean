import Xnix.Proofs.Events

/-!
# Calm runs of events

Each section of `event_wait` and `event_signal_by_ptr` keeps the account of the bits, so every calm
run does.
-/

namespace Xnix

open Function EventSys EventPc

variable {bits : BitVec 32} {κ Tid : Type} {o : κ} {t : Tid} {a : EventAction κ Tid}
  {s s' : EventSys κ Tid}

section Bits
variable [DecidableEq κ] [DecidableEq Tid] {Q Q' : EventList κ Tid → List Tid}

structure JobOk (log : List (EventLog κ Tid)) (j : EventJob κ) : Prop where
  parked : j.notifiedBits ≠ 0 → ∃ o, j.pc.inWait o ∧ Within j.notifiedBits (signalled o log)
  hand : ∀ o bits, j.pc = .delivering o bits → bits ≠ 0 ∧ Within bits (signalled o log)
  head : ∀ o bits, j.pc = .signalHead o bits → bits ≠ 0

/-- The bit `i` of the event is with a waiter, or with a signaller that has waiters left. -/
def EventJob.has (j : EventJob κ) (l : List Tid) (o : κ) (i : ℕ) : Prop :=
  (j.pc.inWait o ∧ j.notifiedBits.getLsbD i = true) ∨
    ∃ bits, j.pc = .delivering o bits ∧ bits.getLsbD i = true ∧ l ≠ []

variable (h : EventBits s Q)
include h

theorem EventBits.change {j : EventJob κ} (hjob : s'.job = update s.job t j)
    (hgrow : ∀ o, Within (signalled o s.log) (signalled o s'.log)) (hj : JobOk s'.log j)
    (hpend : ∀ o, Within (s'.pendingBits o) (signalled o s'.log))
    (hQ : ∀ u, u ≠ t → Q' (.waiters u) = Q (.waiters u))
    (hkept : ∀ o i, (unreturned o s'.log).getLsbD i = true →
      (s'.pendingBits o).getLsbD i = true ∨ j.has (Q' (.waiters t)) o i ∨
        (unreturned o s.log).getLsbD i = true ∧ (s.pendingBits o).getLsbD i ≠ true ∧
          ¬ (s.job t).has (Q (.waiters t)) o i) (htruth : LogTruthful s'.log) :
    EventBits s' Q' := by
  obtain ⟨hself, hother⟩ := update_apart hjob
  have hok : ∀ u, JobOk s'.log (s'.job u) := by
    intro u
    by_cases hut : u = t
    · rwa [hut, hself]
    · rw [hother u hut]
      refine ⟨fun hu => ?_, fun o b hu => ?_, h.head u⟩
      · obtain ⟨o, ho, hw⟩ := h.parked u hu
        exact ⟨o, ho, hw.trans (hgrow o)⟩
      · exact ⟨(h.hand u o b hu).1, (h.hand u o b hu).2.trans (hgrow o)⟩
  refine ⟨fun u => (hok u).parked, fun u => (hok u).hand, hpend, fun u => (hok u).head,
    fun o i hi => ?_, htruth⟩
  rcases hkept o i hi with hp | (hw | ⟨b, hd⟩) | ⟨hi, hp, hnot⟩
  · exact .inl hp
  · exact .inr (.inl ⟨t, by rwa [hself]⟩)
  · exact .inr (.inr ⟨t, b, by rwa [hself]⟩)
  · rcases h.kept o i hi with hp' | ⟨u, hu⟩ | ⟨u, b, hu⟩
    · exact absurd hp' hp
    · have hut : u ≠ t := fun hut => hnot (.inl (hut ▸ hu))
      exact .inr (.inl ⟨u, by rwa [hother u hut]⟩)
    · have hut : u ≠ t := fun hut => hnot (.inr ⟨b, hut ▸ hu⟩)
      exact .inr (.inr ⟨u, b, by rwa [hother u hut, hQ u hut]⟩)

theorem EventBits.move {j : EventJob κ} (hjob : s'.job = update s.job t j)
    (hbits : j.notifiedBits = (s.job t).notifiedBits)
    (hin : ∀ o, (s.job t).pc.inWait o → j.pc.inWait o) (hdel : ∀ o b, j.pc ≠ .delivering o b)
    (hhead : ∀ o b, j.pc = .signalHead o b → b ≠ 0) (hhand : Q (.waiters t) = [])
    (hQ : ∀ u, Q' (.waiters u) = Q (.waiters u)) (hpend : s'.pendingBits = s.pendingBits)
    (hlog : s'.log = s.log) : EventBits s' Q' := by
  rcases s' with ⟨pend', job', sched', links', log'⟩
  subst hpend hlog
  refine h.change hjob (fun _ _ hi => hi) ⟨fun hn => ?_, fun o b hd => absurd hd (hdel o b),
    hhead⟩ h.pending (fun u _ => hQ u) (fun o i hi => ?_) h.truthful
  · rw [hbits] at hn ⊢
    obtain ⟨o, ho, hw⟩ := h.parked t hn
    exact ⟨o, hin o ho, hw⟩
  · by_cases hp : (s.pendingBits o).getLsbD i = true
    · exact .inl hp
    · by_cases hw : (s.job t).pc.inWait o ∧ (s.job t).notifiedBits.getLsbD i = true
      · exact .inr (.inl (.inl ⟨hin o hw.1, hbits ▸ hw.2⟩))
      · exact .inr (.inr ⟨hi, hp, not_or.mpr ⟨hw, fun ⟨_, _, _, hne⟩ => hne hhand⟩⟩)

theorem EventBits.collect (hpc : (s.job t).pc = .woken o) (hn : (s.job t).notifiedBits ≠ 0)
    (hhand : Q (.waiters t) = []) : EventBits (s.collect t o) Q := by
  have hwait : ∀ o', (s.job t).pc.inWait o' → o' = o := by
    rintro o' (ho | ho | ho) <;> rw [hpc] at ho <;> cases ho
    rfl
  have hgrow := signalled_cons (.ret o t (s.job t).notifiedBits) s.log
  obtain ⟨o', ho', hwithin⟩ := h.parked t hn
  obtain rfl := hwait o' ho'
  refine h.change rfl hgrow ⟨absurd rfl, nofun, nofun⟩ (fun o => (h.pending o).trans (hgrow o))
    (fun _ _ => rfl) (fun o i hi => ?_) ⟨hn, hwithin, h.truthful⟩
  obtain ⟨hi, hnot⟩ := unreturned_ret hi
  by_cases hp : (s.pendingBits o).getLsbD i = true
  · exact .inl hp
  · refine .inr (.inr ⟨hi, hp, ?_⟩)
    rintro (⟨hu, hb⟩ | ⟨_, _, _, hne⟩)
    · rw [hnot (hwait o hu).symm] at hb
      cases hb
    · exact hne hhand

theorem EventBits.retPending (hpc : (s.job t).pc = .waitHead o) (hn : s.pendingBits o ≠ 0) :
    EventBits ({ s with pendingBits := update s.pendingBits o 0 }.ret t o (s.pendingBits o))
      Q := by
  have hgrow := signalled_cons (.ret o t (s.pendingBits o)) s.log
  have hout : ∀ o', ¬ (s.job t).pc.inWait o' := by
    rintro o' (ho | ho | ho) <;> rw [hpc] at ho <;> cases ho
  refine h.change rfl hgrow ⟨fun hne => ?_, nofun,
    nofun⟩ (fun o' => ?_) (fun _ _ => rfl) (fun o' i hi => ?_) ⟨hn, h.pending o, h.truthful⟩
  · obtain ⟨o', ho', -⟩ := h.parked t hne
    exact absurd ho' (hout o')
  · by_cases ho : o' = o
    · intro i hi
      simp [ret, setPc, ho] at hi
    · simpa [ret, setPc, ho] using (h.pending o').trans (hgrow o')
  · obtain ⟨hi, hnot⟩ := unreturned_ret hi
    have hown : ¬ (s.job t).has (Q (.waiters t)) o' i := by
      rintro (⟨hu, -⟩ | ⟨b, hd, -⟩)
      · exact hout o' hu
      · rw [hpc] at hd
        cases hd
    by_cases hp : (s.pendingBits o').getLsbD i = true
    · have ho : o' ≠ o := by
        rintro rfl
        rw [hnot rfl] at hp
        cases hp
      exact .inl (by simpa [ret, setPc, ho] using hp)
    · exact .inr (.inr ⟨hi, hp, hown⟩)

theorem EventBits.signal {pc : EventPc κ} {pend : BitVec 32}
    (hpc : (s.job t).pc = .signalHead o bits)
    (hjob : s'.job = update s.job t { s.job t with pc := pc })
    (hpend : s'.pendingBits = update s.pendingBits o pend)
    (hlog : s'.log = .signal o bits :: s.log) (hQ : ∀ u, u ≠ t → Q' (.waiters u) = Q (.waiters u))
    (hcase : (pc = .user ∧ pend = s.pendingBits o ||| bits) ∨
      (pc = .delivering o (s.pendingBits o ||| bits) ∧ pend = 0 ∧ Q' (.waiters t) ≠ [])) :
    EventBits s' Q' := by
  have hgrow := signalled_cons (.signal o bits) s.log
  have hall : Within (s.pendingBits o ||| bits) (signalled o (.signal o bits :: s.log)) := by
    intro i hi
    rw [signalled_signal_self]
    simp only [BitVec.getLsbD_or, Bool.or_eq_true] at hi ⊢
    exact hi.imp_left (h.pending o i)
  have hout : ∀ o', ¬ (s.job t).pc.inWait o' := by
    rintro o' (ho | ho | ho) <;> rw [hpc] at ho <;> cases ho
  have hpend' : ∀ o', o' ≠ o → s'.pendingBits o' = s.pendingBits o' := fun o' ho => by
    rw [hpend, update_of_ne ho]
  rw [← hlog] at hgrow hall
  refine h.change hjob hgrow ⟨fun hne => ?_, fun o' b hu => ?_, fun o' b hu => ?_⟩ (fun o' => ?_) hQ
    (fun o' i hi => ?_) (by rw [hlog]; exact h.truthful)
  · obtain ⟨o', ho', -⟩ := h.parked t hne
    exact absurd ho' (hout o')
  · rcases hcase with ⟨rfl, -⟩ | ⟨rfl, -, -⟩
    · cases hu
    · obtain ⟨rfl, rfl⟩ := delivering.inj hu
      refine ⟨fun hz => h.head t o bits hpc ?_, hall⟩
      exact (BitVec.or_eq_zero_iff.mp hz).2
  · rcases hcase with ⟨rfl, -⟩ | ⟨rfl, -, -⟩ <;> cases hu
  · by_cases ho : o' = o
    · subst ho
      rw [hpend, update_self]
      rcases hcase with ⟨-, rfl⟩ | ⟨-, rfl, -⟩
      · exact hall
      · intro i hi
        simp at hi
    · rw [hpend' o' ho]
      exact (h.pending o').trans (hgrow o')
  · rw [hlog] at hi
    have hnew : (s.pendingBits o ||| bits).getLsbD i = true → (s'.pendingBits o).getLsbD i = true ∨
        EventJob.has { s.job t with pc := pc } (Q' (.waiters t)) o i := by
      intro hb
      rcases hcase with ⟨-, rfl⟩ | ⟨hdel, -, hne⟩
      · exact .inl (by rwa [hpend, update_self])
      · exact .inr (.inr ⟨_, hdel, hb, hne⟩)
    have hown : ¬ (s.job t).has (Q (.waiters t)) o' i := by
      rintro (⟨hu, -⟩ | ⟨b, hd, -⟩)
      · exact hout o' hu
      · rw [hpc] at hd
        cases hd
    rcases unreturned_signal hi with hi | ⟨rfl, hb⟩
    · by_cases hp : (s.pendingBits o').getLsbD i = true
      · by_cases ho : o' = o
        · subst ho
          exact (hnew (by simp [hp])).imp_right .inl
        · exact .inl (by rwa [hpend' o' ho])
      · exact .inr (.inr ⟨hi, hp, hown⟩)
    · exact (hnew (by simp [hb])).imp_right .inl

theorem EventBits.deliver {w : Tid} {l : List Tid} (hpc : (s.job t).pc = .delivering o bits)
    (hwait : (s.job w).pc.inWait o) (hzero : (s.job w).notifiedBits = 0)
    (hjob : s'.job = update s.job w { s.job w with notifiedBits := bits })
    (hpend : s'.pendingBits = s.pendingBits) (hlog : s'.log = s.log) :
    EventBits s' (update Q (.waiters t) l) := by
  have hself : (s'.job w).pc = (s.job w).pc ∧ (s'.job w).notifiedBits = bits := by
    rw [hjob, update_self]
    exact ⟨rfl, rfl⟩
  have hother : ∀ u, u ≠ w → s'.job u = s.job u := fun u hu => by
    rw [hjob, update_of_ne hu]
  have hpcs : ∀ u, (s'.job u).pc = (s.job u).pc := by
    intro u
    by_cases hu : u = w
    · rw [hu, hself.1]
    · rw [hother u hu]
  rcases s' with ⟨pend', job', sched', links', log'⟩
  subst hpend hlog
  refine ⟨fun u hu => ?_, fun u o' b hu => ?_, h.pending, fun u o' b hu => ?_, fun o' i hi => ?_,
    h.truthful⟩
  · by_cases huw : u = w
    · subst huw
      rw [hself.2]
      exact ⟨o, (hpcs u).symm ▸ hwait, (h.hand t o bits hpc).2⟩
    · rw [hother u huw] at hu ⊢
      exact h.parked u hu
  · exact h.hand u o' b ((hpcs u).symm.trans hu)
  · exact h.head u o' b ((hpcs u).symm.trans hu)
  · rcases h.kept o' i hi with hp | ⟨u, hu, hnu⟩ | ⟨u, b, hu, hb, hne⟩
    · exact .inl hp
    · have huw : u ≠ w := by
        rintro rfl
        rw [hzero] at hnu
        simp at hnu
      exact .inr (.inl ⟨u, by rwa [hother u huw], by rwa [hother u huw]⟩)
    · by_cases hut : u = t
      · subst hut
        obtain ⟨rfl, rfl⟩ := delivering.inj (hpc.symm.trans hu)
        exact .inr (.inl ⟨w, (hpcs w).symm ▸ hwait, by rwa [hself.2]⟩)
      · refine .inr (.inr ⟨u, b, (hpcs u).trans hu, hb, ?_⟩)
        rw [update_of_ne (by simpa using hut)]
        exact hne

end Bits

section Steps
variable [DecidableEq κ] [DecidableEq Tid]

def EventInv (s : EventSys κ Tid) : Prop := ∃ Q, EventQueues s Q ∧ EventBits s Q

variable (h : EventInv s)
include h

theorem EventInv.move {pc : EventPc κ} (hold : (s.job t).pc.outside)
    (hdel : ∀ o b, (s.job t).pc ≠ .delivering o b) (hnew : pc.outside)
    (hdel' : ∀ o b, pc ≠ .delivering o b) (hhead : ∀ o b, pc = .signalHead o b → b ≠ 0) :
    EventInv (s.setPc t pc) := by
  obtain ⟨Q, hQ, hB⟩ := h
  have hhand := hQ.hand_nil hdel
  refine ⟨Q, hQ.move (w := s.sched t) (hQ.not_mem_of_outside hold) hhand rfl rfl ?_
    (fun o hpc => hnew o (.inl hpc)) (fun o hpc => hnew o (.inr (.inl hpc)))
    (fun o hpc => absurd (.inr (.inr hpc)) (hnew o)), hB.move rfl rfl
    (fun o ho => absurd ho (hold o)) hdel' hhead hhand (fun _ => rfl) rfl rfl⟩
  rw [update_eq_self]
  rfl

theorem EventInv.waitHead (hpc : (s.job t).pc = .waitHead o) : EventInv (s.waitHead t o) := by
  have hold : (s.job t).pc.outside := by simp [hpc, outside, inWait]
  obtain ⟨Q, hQ, hB⟩ := h
  have hhand : Q (.waiters t) = [] := hQ.hand_nil (by simp [hpc])
  unfold EventSys.waitHead
  split
  · rename_i hn
    refine ⟨Q, hQ.move (w := s.sched t) (hQ.not_mem_of_outside hold) hhand rfl rfl ?_
      (fun _ => nofun) (fun _ => nofun) (fun _ => nofun), hB.retPending hpc hn⟩
    rw [update_eq_self]
    rfl
  · have hzero : (s.job t).notifiedBits = 0 := by
      by_contra hne
      obtain ⟨o', ho', -⟩ := hB.parked t hne
      exact hold o' ho'
    refine ⟨_, hQ.enqueue hpc hzero, hB.move rfl rfl (fun o' ho' => absurd ho' (hold o'))
      (fun _ _ => nofun) (fun _ _ => nofun) hhand (fun u => ?_) rfl rfl⟩
    rw [update_of_ne (by simp)]

theorem EventInv.block (hpc : (s.job t).pc = .queued o)
    (hcalm : (s.sched t).pendingWakeup = true → (s.job t).notifiedBits ≠ 0) :
    EventInv (s.block t o) := by
  obtain ⟨Q, hQ, hB⟩ := h
  have hhand : Q (.waiters t) = [] := hQ.hand_nil (by simp [hpc])
  have hin : ∀ o', (s.job t).pc.inWait o' → o' = o := by
    rintro o' (ho | ho | ho) <;> rw [hpc] at ho <;> cases ho
    rfl
  refine ⟨Q, ?_, hB.move rfl rfl (fun o' ho' => ?_) (fun o' b => ?_) (fun o' b => ?_) hhand
    (fun _ => rfl) rfl rfl⟩
  · cases hp : (s.sched t).pendingWakeup with
    | false => exact hQ.sleep hpc hp
    | true =>
      have hn := hcalm hp
      refine hQ.move (fun q ht => hn (hQ.waits ht).2) hhand rfl rfl rfl (fun o' => ?_)
        (fun o' => ?_) fun _ _ => hn
      · simp [hp]
      · simp [hp]
  · rw [hin o' ho']
    split
    · exact .inr (.inr rfl)
    · exact .inr (.inl rfl)
  · simp only
    split <;> nofun
  · simp only
    split <;> nofun

theorem EventInv.resume (hpc : (s.job t).pc = .asleep o) (hrun : (s.sched t).run = .woken) :
    EventInv { s.setPc t (.woken o) with
      sched := update s.sched t (s.sched t).resume } := by
  obtain ⟨Q, hQ, hB⟩ := h
  have hhand : Q (.waiters t) = [] := hQ.hand_nil (by simp [hpc])
  have hn : (s.job t).notifiedBits ≠ 0 := ((hQ.thread t).asleep o hpc).2 (by rw [hrun]; nofun)
  refine ⟨Q, hQ.move (fun q ht => hn (hQ.waits ht).2) hhand rfl rfl rfl (fun _ => nofun)
    (fun _ => nofun) fun _ _ => hn, hB.move rfl rfl (fun o' ho' => ?_) (fun _ _ => nofun)
    (fun _ _ => nofun) hhand (fun _ => rfl) rfl rfl⟩
  rcases ho' with ho' | ho' | ho' <;> rw [hpc] at ho' <;> cases ho'
  exact .inr (.inr rfl)

theorem EventInv.collect (hpc : (s.job t).pc = .woken o) : EventInv (s.collect t o) := by
  obtain ⟨Q, hQ, hB⟩ := h
  have hhand : Q (.waiters t) = [] := hQ.hand_nil (by simp [hpc])
  have hn := (hQ.thread t).woken o hpc
  refine ⟨Q, hQ.move (w := s.sched t) (fun q ht => hn (hQ.waits ht).2) hhand rfl rfl ?_
    (fun _ => nofun) (fun _ => nofun) fun _ => nofun, hB.collect hpc hn hhand⟩
  rw [update_eq_self]
  rfl

theorem EventInv.signalHead (hpc : (s.job t).pc = .signalHead o bits) :
    EventInv (s.signalHead t o bits) := by
  have hold : (s.job t).pc.outside := by simp [hpc, outside, inWait]
  obtain ⟨Q, hQ, hB⟩ := h
  have hhand : Q (.waiters t) = [] := hQ.hand_nil (by simp [hpc])
  unfold EventSys.signalHead
  split
  · refine ⟨Q, hQ.move (w := s.sched t) (hQ.not_mem_of_outside hold) hhand rfl rfl ?_
      (fun _ => nofun) (fun _ => nofun) (fun _ => nofun),
      hB.signal hpc rfl rfl rfl (fun _ _ => rfl) (.inl ⟨rfl, rfl⟩)⟩
    rw [update_eq_self]
    rfl
  · rename_i w hw
    obtain ⟨l, hl, -, -⟩ := hQ.linked.of_head_some hw
    refine ⟨_, hQ.shift hold hhand rfl rfl rfl, hB.signal hpc rfl rfl rfl (fun u hu => ?_)
      (.inr ⟨rfl, rfl, ?_⟩)⟩
    · rw [update_of_ne (by simp), update_of_ne (by simpa using hu)]
    · rw [update_of_ne (by simp), update_self, hl]
      nofun

theorem EventInv.deliver (hpc : (s.job t).pc = .delivering o bits) :
    EventInv (s.deliver t bits) := by
  obtain ⟨Q, hQ, hB⟩ := h
  have hold : (s.job t).pc.outside := by simp [hpc, outside, inWait]
  unfold EventSys.deliver
  split
  · rename_i hnone
    have hhand := hQ.linked.of_head_none hnone
    refine ⟨Q, hQ.move (w := s.sched t) (hQ.not_mem_of_outside hold) hhand rfl rfl ?_
      (fun _ => nofun) (fun _ => nofun) (fun _ => nofun), hB.move rfl rfl
      (fun o' ho' => absurd ho' (hold o')) (fun _ _ => nofun) (fun _ _ => nofun) hhand
      (fun _ => rfl) rfl rfl⟩
    rw [update_eq_self]
    rfl
  · rename_i w hw
    obtain ⟨l, hl, -, -⟩ := hQ.linked.of_head_some hw
    obtain ⟨o', bits', hpc', hwaits, hzero⟩ := hQ.held (q := .waiters t) (t := w) (by simp [hl])
    obtain ⟨rfl, rfl⟩ := delivering.inj (hpc.symm.trans hpc')
    exact ⟨_, hQ.deliver hl (hB.hand t o bits hpc).1 rfl rfl rfl,
      hB.deliver hpc hwaits.inWait hzero rfl rfl rfl⟩

theorem EventInv.step (hc : EventCalm s a) (hs : s.step a = some s') : EventInv s' := by
  cases a with
  | wait t o =>
    simp only [EventSys.step] at hs
    split at hs <;> cases hs
    · rename_i hpc
      exact h.move (by simp [hpc, outside, inWait]) (by simp [hpc])
        (by simp [outside, inWait]) (fun _ _ => nofun) (fun _ _ => nofun)
    · exact h
  | signal t o bits =>
    simp only [EventSys.step] at hs
    split at hs
    · rename_i hpc
      split at hs <;> cases hs
      · exact h
      · rename_i hbits
        refine h.move (by simp [hpc, outside, inWait]) (by simp [hpc])
          (by simp [outside, inWait]) (fun _ _ => nofun) fun o' b hb => ?_
        obtain ⟨-, rfl⟩ := signalHead.inj hb
        exact hbits
    · cases hs
      exact h
  | lock t =>
    simp only [EventSys.step] at hs
    split at hs <;> cases hs
    · exact h.waitHead ‹_›
    · exact h.signalHead ‹_›
    · exact h
  | block t =>
    simp only [EventSys.step] at hs
    split at hs <;> cases hs
    · exact h.block ‹_› (hc.stale t rfl)
    · exact h
  | resume t =>
    simp only [EventSys.step] at hs
    split at hs
    · rename_i hpc
      split at hs <;> cases hs
      · exact h.resume hpc ‹_›
      · exact h
    · cases hs
      exact h
  | collect t =>
    simp only [EventSys.step] at hs
    split at hs <;> cases hs
    · exact h.collect ‹_›
    · exact h
  | deliver t =>
    simp only [EventSys.step] at hs
    split at hs <;> cases hs
    · exact h.deliver ‹_›
    · exact h
  | poke u =>
    cases hs
    obtain ⟨Q, hQ, hB⟩ := h
    exact ⟨Q, hQ.poke (hc.own u rfl),
      ⟨hB.parked, hB.hand, hB.pending, hB.head, hB.kept, hB.truthful⟩⟩
  | forceExit u =>
    cases hs
    obtain ⟨hout, hdel⟩ := hc.ended u rfl
    exact h.move hout hdel (by simp [outside, inWait]) (fun _ _ => nofun) (fun _ _ => nofun)

end Steps

section Results
variable [DecidableEq κ]

theorem EventInv.of_init (h : s.Init) : EventInv s := by
  have hpc : ∀ t, (s.job t).pc = .user := fun t => by rw [h.job]
  have hbits : ∀ t, (s.job t).notifiedBits = 0 := fun t => by rw [h.job]
  refine ⟨fun _ => [], ⟨?_, nofun, fun t => ⟨?_, ?_, ?_⟩⟩,
    fun t ht => ?_, fun u o b hu => ?_, fun o i hi => ?_, fun u o b hu => ?_, fun o i hi => ?_, ?_⟩
  · rw [h.links]
    exact ⟨fun _ => .nil, nofun⟩
  · rw [hpc]
    nofun
  · rw [hpc]
    nofun
  · rw [hpc]
    nofun
  · exact absurd (hbits t) ht
  · rw [hpc] at hu
    cases hu
  · simp [h.pendingBits] at hi
  · rw [hpc] at hu
    cases hu
  · rw [h.log] at hi
    simp [unreturned] at hi
  · rw [h.log]
    trivial

variable [DecidableEq Tid]

/-- Nothing is pending at an event with waiters. -/
def Spent (s : EventSys κ Tid) : Prop := ∀ o, (s.links.head (.queue o)).isSome → s.pendingBits o = 0

theorem Spent.lock (h : Spent s) (hs : s.step (.lock t) = some s') : Spent s' := by
  simp only [EventSys.step] at hs
  split at hs <;> cases hs
  · rename_i o _
    unfold EventSys.waitHead
    split <;> intro o' ho' <;> by_cases heq : o' = o <;>
      simp_all [ret, setPc, Lib.Links.push, h o']
  · rename_i o bits _
    unfold EventSys.signalHead
    split <;> intro o' ho' <;> by_cases heq : o' = o <;>
      simp_all [setPc, Lib.Links.shift, h o']
  · exact h

theorem Spent.step (h : Spent s) (hs : s.step a = some s') : Spent s' := by
  cases a with
  | lock t => exact h.lock hs
  | deliver t =>
    simp only [EventSys.step, EventSys.deliver] at hs
    repeat' split at hs
    all_goals cases hs
    · exact h
    · exact fun o ho => h o (by simpa [Lib.Links.drop] using ho)
    · exact h
  | _ =>
    simp only [EventSys.step] at hs
    repeat' split at hs
    all_goals cases hs; exact h

end Results

def oneEvent : EventSys Unit (Fin 2) := initEvents

def waitSignalRun : List (EventAction Unit (Fin 2)) :=
  [.wait 0 (), .lock 0, .block 0, .signal 1 () 4, .lock 1, .deliver 1, .deliver 1, .resume 0,
    .collect 0]

def eventCalmCheck (s : EventSys Unit (Fin 2)) : EventAction Unit (Fin 2) → Bool
  | .poke _ | .forceExit _ => false
  | .block t => !(s.sched t).pendingWakeup
  | _ => true

theorem eventCalm_of_check (s : EventSys Unit (Fin 2)) (a : EventAction Unit (Fin 2))
    (h : eventCalmCheck s a = true) : EventCalm s a := by
  refine ⟨?_, ?_, ?_⟩
  · rintro u rfl
    cases h
  · rintro t rfl hp
    simp [eventCalmCheck, hp] at h
  · rintro u rfl
    cases h

end Xnix
