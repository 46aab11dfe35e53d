import Xnix.Scheduler

/-!
# Each thread in one list

The lists of the scheduler with the threads that are under way between them set apart (`SchedOk`):
each operation on the run queue is the operation on lists that it is meant to be. `QueueGrows` says
what a wakeup leaves alone.
-/

namespace Xnix

open Function List Option SchedSys

variable {Chan Tid : Type} {Q Q' : SchedList → List Tid} {t : Tid} {q : SchedList}
  {k : Task Chan Tid} {X : Set Tid} {s : SchedSys Chan Tid}

def SchedList.Holds : SchedList → TaskState → Prop
  | .runq, st => st = .ready ∨ st = .running
  | .blocked, st => st = .blocked
  | .zombie, st => st = .exited

/-- The lists partition the live threads other than idle by state, the counters are right, and the
current thread is the first of the run queue unless idle. -/
structure Partitioned (s : SchedSys Chan Tid) (Q : SchedList → List Tid) : Prop where
  linked : Lib.Linked s.links Q
  once : ∀ q, (Q q).Nodup
  placed : ∀ t, s.live t = true → t ≠ s.idle → ∃! q, t ∈ Q q
  states : ∀ q t, t ∈ Q q ↔ s.live t = true ∧ t ≠ s.idle ∧ q.Holds (s.task t).state
  nrRunning : s.nrRunning = (Q .runq).length
  tail : s.tail = (Q .runq).getLast?
  current : ∀ t, s.current = some t → t = s.idle ∨ (Q .runq).head? = some t

/-- The lists hold the live threads other than idle. The threads of `X` are under way, in no list
that they belong in.
-/
structure SchedOk (s : SchedSys Chan Tid) (Q : SchedList → List Tid) (X : Set Tid) : Prop where
  linked : Lib.Linked s.links Q
  listed : ∀ q, ∀ t ∈ Q q, s.live t = true ∧ t ≠ s.idle
  placed : ∀ t, s.live t = true → t ≠ s.idle → t ∉ X → ∃ q, t ∈ Q q
  states : ∀ q, ∀ t ∈ Q q, t ∉ X → q.Holds (s.task t).state
  idle : (s.task s.idle).state = .ready
  nrRunning : s.nrRunning = (Q .runq).length
  tail : s.tail = (Q .runq).getLast?
  awake : s.live s.idle = true

/-- The current thread is the first of the run queue, if it is not idle. -/
def CurrentOk (s : SchedSys Chan Tid) (Q : SchedList → List Tid) : Prop :=
  ∀ t, s.current = some t → t = s.idle ∨ (Q .runq).head? = some t

def SchedInv (s : SchedSys Chan Tid) : Prop := ∃ Q, SchedOk s Q ∅ ∧ CurrentOk s Q

theorem SchedList.Holds.unique {q' : SchedList} {st : TaskState} (h : q.Holds st)
    (h' : q'.Holds st) : q = q' := by
  cases q <;> cases q' <;> simp_all [SchedList.Holds]

theorem SchedOk.partitioned (h : SchedOk s Q ∅)
    (hcur : CurrentOk s Q) : Partitioned s Q := by
  refine ⟨h.linked, fun q => (h.linked.chain q).nodup, fun t hlive hidle => ?_, fun q t => ?_,
    h.nrRunning, h.tail, hcur⟩
  · obtain ⟨q, hq⟩ := h.placed t hlive hidle (Set.notMem_empty t)
    exact ⟨q, hq, fun q' hq' => h.linked.apart q' q t hq' hq⟩
  · constructor
    · intro ht
      obtain ⟨hlive, hidle⟩ := h.listed q t ht
      exact ⟨hlive, hidle, h.states q t ht (Set.notMem_empty t)⟩
    · rintro ⟨hlive, hidle, hholds⟩
      obtain ⟨q', hq'⟩ := h.placed t hlive hidle (Set.notMem_empty t)
      rw [hholds.unique (h.states q' t hq' (Set.notMem_empty t))]
      exact hq'

theorem SchedOk.of_init (h : s.Init) : SchedOk s (fun _ => []) ∅ := by
  refine ⟨⟨fun q => ?_, nofun⟩, nofun, fun t hlive hidle => ?_, nofun, h.idle, h.nrRunning, h.tail,
    (h.live s.idle).mpr rfl⟩
  · rw [h.head q]
    exact .nil
  · exact absurd ((h.live t).mp hlive) hidle

theorem SchedOk.mono {Y : Set Tid} (h : SchedOk s Q X)
    (hXY : X ⊆ Y) : SchedOk s Q Y :=
  { h with
    placed := fun t hlive hidle hY => h.placed t hlive hidle fun hX => hY (hXY hX)
    states := fun q t ht hY => h.states q t ht fun hX => hY (hXY hX) }

structure QueueGrows (s s' : SchedSys Chan Tid) (Q Q' : SchedList → List Tid) : Prop where
  current : s'.current = s.current
  idle : s'.idle = s.idle
  runq : ∃ l, Q' .runq = Q .runq ++ l

theorem QueueGrows.refl : QueueGrows s s Q Q :=
  ⟨rfl, rfl, [], (append_nil _).symm⟩

theorem QueueGrows.trans {s' s'' : SchedSys Chan Tid} {Q'' : SchedList → List Tid}
    (h : QueueGrows s s' Q Q') (h' : QueueGrows s' s'' Q' Q'') : QueueGrows s s'' Q Q'' := by
  obtain ⟨l, hl⟩ := h.runq
  obtain ⟨l', hl'⟩ := h'.runq
  exact ⟨h'.current.trans h.current, h'.idle.trans h.idle, l ++ l', by
    rw [hl', hl, append_assoc]⟩

/-- A list other than the run queue was changed before. -/
theorem QueueGrows.of_update {s₁ s' : SchedSys Chan Tid} {l : List Tid}
    (h : QueueGrows s₁ s' (update Q q l) Q') (hq : q ≠ .runq) (hcur : s₁.current = s.current)
    (hidle : s₁.idle = s.idle) : QueueGrows s s' Q Q' := by
  obtain ⟨l', hl'⟩ := h.runq
  exact ⟨h.current.trans hcur, h.idle.trans hidle, l', by rw [hl', update_of_ne hq.symm]⟩

theorem CurrentOk.grows {s' : SchedSys Chan Tid} (h : CurrentOk s Q)
    (he : QueueGrows s s' Q Q') : CurrentOk s' Q' := by
  intro t ht
  rw [he.current] at ht
  refine (h t ht).imp (fun hidle => hidle.trans he.idle.symm) fun hhead => ?_
  obtain ⟨l, hl⟩ := he.runq
  rw [hl, head?_append, hhead, some_or]

section Tasks
variable [DecidableEq Tid]
 

theorem setTask_self (s : SchedSys Chan Tid) (t : Tid) (k : Task Chan Tid) :
    (s.setTask t k).task t = k := update_self ..

theorem setTask_of_ne (s : SchedSys Chan Tid) {u : Tid} (h : u ≠ t) (k : Task Chan Tid) :
    (s.setTask t k).task u = s.task u := update_of_ne h ..

theorem SchedOk.setTask (h : SchedOk s Q X) (hst : k.state = (s.task t).state) :
    SchedOk (s.setTask t k) Q X := by
  have hsame : ∀ u, ((s.setTask t k).task u).state = (s.task u).state := fun u => by
    by_cases hu : u = t
    · rw [hu, setTask_self, hst]
    · rw [setTask_of_ne s hu]
  refine ⟨h.linked, h.listed, h.placed, fun q u hu hX => ?_, ?_, h.nrRunning, h.tail, h.awake⟩
  · rw [hsame]
    exact h.states q u hu hX
  · exact (hsame s.idle).trans h.idle

theorem SchedOk.mark (h : SchedOk s Q X) (hidle : t ≠ s.idle) :
    SchedOk (s.setTask t k) Q (insert t X) := by
  refine ⟨h.linked, h.listed, fun u hlive hu hX => ?_, fun q u hu hX => ?_, ?_, h.nrRunning,
    h.tail, h.awake⟩
  · exact h.placed u hlive hu fun hu => hX (Set.mem_insert_of_mem t hu)
  · have hne : u ≠ t := fun hut => hX (hut ▸ Set.mem_insert t X)
    rw [setTask_of_ne s hne]
    exact h.states q u hu fun hu => hX (Set.mem_insert_of_mem t hu)
  · exact (congrArg Task.state (setTask_of_ne s hidle.symm k)).trans h.idle

theorem SchedOk.restate (h : SchedOk s Q X) (ht : t ∈ Q q) (hst : q.Holds k.state) :
    SchedOk (s.setTask t k) Q X := by
  have hmark := h.mark (k := k) (h.listed q t ht).2
  refine ⟨h.linked, h.listed, h.placed, fun q' u hu hX => ?_, hmark.idle, h.nrRunning,
    h.tail, h.awake⟩
  by_cases hut : u = t
  · rw [hut, setTask_self, h.linked.apart q' q t (hut ▸ hu) ht]
    exact hst
  · rw [setTask_of_ne s hut]
    exact h.states q' u hu hX

end Tasks

section Queue
variable [DecidableEq Tid] {l₁ l₂ : List Tid}

theorem SchedOk.removed (h : SchedOk s Q X) (hq : Q q = l₁ ++ t :: l₂) {n : ℕ}
    {w : Option Tid} (hn : n = (update Q q (l₁ ++ l₂) .runq).length)
    (htail : w = (update Q q (l₁ ++ l₂) .runq).getLast?) :
    SchedOk { s with links := s.links.take q l₁.getLast? t, nrRunning := n, tail := w }
      (update Q q (l₁ ++ l₂)) (insert t X) := by
  have hmem : ∀ {q' u}, u ∈ update Q q (l₁ ++ l₂) q' → u ∈ Q q' := by
    intro q' u hu
    by_cases hq' : q' = q
    · subst hq'
      rw [update_self] at hu
      rw [hq]
      simp only [mem_append, mem_cons] at hu ⊢
      exact hu.imp_right .inr
    · rwa [update_of_ne hq'] at hu
  refine ⟨h.linked.take hq, fun q' u hu => h.listed q' u (hmem hu), fun u hlive hidle hX => ?_,
    fun q' u hu hX => ?_, h.idle, hn, htail, h.awake⟩
  · obtain ⟨q', hq'⟩ := h.placed u hlive hidle fun hu => hX (Set.mem_insert_of_mem t hu)
    refine ⟨q', ?_⟩
    by_cases hqq : q' = q
    · subst hqq
      rw [hq] at hq'
      have hne : u ≠ t := fun hut => hX (hut ▸ Set.mem_insert t X)
      simpa [hne] using hq'
    · rwa [update_of_ne hqq]
  · exact h.states q' u (hmem hu) fun hu => hX (Set.mem_insert_of_mem t hu)

theorem SchedOk.added (h : SchedOk s Q X) {l : List Tid} {links : Lib.Links SchedList Tid}
    (hlinks : Lib.Linked links (update Q q l)) (hl : ∀ u, u ∈ l ↔ u = t ∨ u ∈ Q q)
    (hlive : s.live t = true) (hidle : t ≠ s.idle) (hst : q.Holds (s.task t).state) {n : ℕ}
    {w : Option Tid} (hn : n = (update Q q l .runq).length)
    (htail : w = (update Q q l .runq).getLast?) :
    SchedOk { s with links := links, nrRunning := n, tail := w } (update Q q l) (X \ {t}) := by
  have hmem : ∀ {q' u}, u ∈ update Q q l q' ↔ q' = q ∧ u = t ∨ u ∈ Q q' := by
    intro q' u
    by_cases hq' : q' = q
    · subst hq'
      rw [update_self, hl]
      simp
    · rw [update_of_ne hq']
      simp [hq']
  refine ⟨hlinks, fun q' u hu => ?_, fun u hu hui hX => ?_, fun q' u hu hX => ?_, h.idle, hn,
    htail, h.awake⟩
  · rcases hmem.mp hu with ⟨-, rfl⟩ | hu
    · exact ⟨hlive, hidle⟩
    · exact h.listed q' u hu
  · by_cases hut : u = t
    · exact ⟨q, hmem.mpr (.inl ⟨rfl, hut⟩)⟩
    · obtain ⟨q', hq'⟩ := h.placed u hu hui fun hu => hX ⟨hu, hut⟩
      exact ⟨q', hmem.mpr (.inr hq')⟩
  · by_cases hut : u = t
    · subst hut
      have hqq : q' = q := hlinks.apart q' q u hu (hmem.mpr (.inl ⟨rfl, rfl⟩))
      rw [hqq]
      exact hst
    · rcases hmem.mp hu with ⟨-, hut'⟩ | hu
      · exact absurd hut' hut
      · exact h.states q' u hu fun hu => hX ⟨hu, hut⟩

theorem SchedOk.taken (h : SchedOk s Q X) (hq : q ≠ .runq) (hQ : Q q = l₁ ++ t :: l₂) :
    SchedOk { s with links := s.links.take q l₁.getLast? t } (update Q q (l₁ ++ l₂))
    (insert t X) := by
  have hother : update Q q (l₁ ++ l₂) .runq = Q .runq := update_of_ne hq.symm ..
  exact h.removed hQ (by rw [hother, h.nrRunning]) (by rw [hother, h.tail])

theorem SchedOk.rrDequeue [Fintype Tid] (h : SchedOk s Q X) (hq : Q .runq = l₁ ++ t :: l₂) :
    ∃ s', s.rrDequeue t = some s' ∧ SchedOk s' (update Q .runq (l₁ ++ l₂)) (insert t X) ∧
      s'.task = s.task ∧ s'.current = s.current ∧ s'.idle = s.idle ∧ s'.live = s.live := by
  have hremove := h.linked.remove_of_mem hq
  have hnodup : (l₁ ++ t :: l₂).Nodup := hq ▸ (h.linked.chain .runq).nodup
  have htail : (if s.tail = some t then l₁.getLast? else s.tail) = (l₁ ++ l₂).getLast? := by
    rw [h.tail, hq]
    rcases eq_nil_or_concat l₂ with rfl | ⟨l, u, rfl⟩
    · rw [getLast?_concat, if_pos rfl, append_nil]
    · rw [concat_eq_append] at hnodup ⊢
      have hut : u ≠ t := by
        rintro rfl
        exact (nodup_cons.mp (nodup_append.mp hnodup).2.1).1 (by simp)
      rw [← cons_append, ← append_assoc, ← append_assoc, getLast?_concat,
        getLast?_concat, if_neg (by simpa using hut)]
  refine ⟨{ s with
    links := s.links.take .runq l₁.getLast? t, nrRunning := s.nrRunning - 1,
    tail := if s.tail = some t then l₁.getLast? else s.tail }, ?_, ?_, rfl, rfl, rfl, rfl⟩
  · rw [SchedSys.rrDequeue, hremove]
  · refine h.removed hq ?_ ?_
    · rw [update_self, h.nrRunning, hq, length_append, length_append, length_cons]
      omega
    · rw [update_self, htail]

variable (cfg : SchedConfig)

theorem SchedOk.rrEnqueue (h : SchedOk s Q X) (ht : ∀ q, t ∉ Q q) (hlive : s.live t = true)
    (hidle : t ≠ s.idle) : ∃ s', s.rrEnqueue cfg t = some s' ∧
      SchedOk s' (update Q .runq (Q .runq ++ [t])) (X \ {t}) ∧
      QueueGrows s s' Q (update Q .runq (Q .runq ++ [t])) ∧
      ∀ u, u ≠ t → s'.task u = s.task u := by
  have heq : s.rrEnqueue cfg t = some
      { s.setTask t { s.task t with state := .ready, timeSlice := cfg.timeSlice } with
        links := s.links.append .runq s.tail t, nrRunning := s.nrRunning + 1, tail := some t } := by
    have htail := h.tail
    have hhead := h.linked.head_eq .runq
    unfold SchedSys.rrEnqueue
    simp only [SchedSys.setTask]
    rcases eq_nil_or_concat (Q .runq) with hnil | ⟨l, u, hl⟩
    · rw [hnil] at htail
      rw [hnil] at hhead
      rw [hhead, htail, head?_nil, getLast?_nil]
    · rw [hl, concat_eq_append, getLast?_concat] at htail
      obtain ⟨v, hv⟩ : ∃ v, (Q .runq).head? = some v := by
        rw [hl]
        cases l <;> simp
      have hhead' : s.links.head .runq = some v := hhead.trans hv
      rw [hhead', htail]
  have hset := h.mark (k := { s.task t with state := .ready, timeSlice := cfg.timeSlice }) hidle
  refine ⟨_, heq, ?_, ⟨rfl, rfl, [t], update_self ..⟩, fun u hu => setTask_of_ne s hu _⟩
  have hready : SchedList.runq.Holds ((s.setTask t { s.task t with
      state := .ready, timeSlice := cfg.timeSlice }).task t).state :=
    Or.inl (congrArg Task.state (setTask_self ..))
  refine (hset.added (h.tail ▸ h.linked.append ht) (fun u => by simp [or_comm]) hlive hidle
    hready ?_ ?_).mono fun u hu => ?_
  · rw [update_self, h.nrRunning, length_append, length_singleton]
  · rw [update_self, getLast?_concat]
  · exact ⟨(Set.mem_insert_iff.mp hu.1).resolve_left hu.2, hu.2⟩

theorem SchedOk.makeReady (h : SchedOk s Q X) (hout : ∀ q, t ∉ Q q)
    (hlive : s.live t = true) (hidle : t ≠ s.idle) : ∃ s', s.makeReady cfg t = some s' ∧
      SchedOk s' (update Q .runq (Q .runq ++ [t])) (X \ {t}) ∧
      QueueGrows s s' Q (update Q .runq (Q .runq ++ [t])) ∧ ∀ u, u ≠ t → s'.task u = s.task u := by
  have hmark := h.mark (k := { s.task t with state := .ready, waitChan := none }) hidle
  obtain ⟨s', hs', hok, he, htask⟩ := hmark.rrEnqueue cfg hout hlive hidle
  refine ⟨s', hs', hok.mono fun u hu => ?_, ⟨he.current, he.idle, he.runq⟩, fun u hu => ?_⟩
  · exact ⟨(Set.mem_insert_iff.mp hu.1).resolve_left hu.2, hu.2⟩
  · rw [htask u hu, setTask_of_ne s hu]

theorem SchedOk.readied (h : SchedOk s Q {t}) (hout : ∀ q, t ∉ Q q)
    (hlive : s.live t = true) (hidle : t ≠ s.idle) :
    ∃ s' Q', (s.setTask t k).makeReady cfg t = some s' ∧ SchedOk s' Q' ∅ ∧
      Q' .blocked = Q .blocked ∧ QueueGrows s s' Q Q' := by
  obtain ⟨s', hs', hok, he, -⟩ := (h.mark hidle).makeReady cfg hout hlive hidle
  refine ⟨s', _, hs', hok.mono fun u hu => ?_, update_of_ne (by decide) .., he.current,
    he.idle, he.runq⟩
  rcases Set.mem_insert_iff.mp hu.1 with hut | hut
  · exact absurd hut hu.2
  · exact absurd hut hu.2

end Queue

section Walks
variable [DecidableEq Tid] {p : Task Chan Tid → Bool}
  {act : SchedSys Chan Tid → Tid → Option (SchedSys Chan Tid)}

theorem SchedOk.sweep (hq : q ≠ .runq)
    (hact : ∀ {s : SchedSys Chan Tid} {Q t}, SchedOk s Q {t} → (∀ q, t ∉ Q q) → s.live t = true →
      t ≠ s.idle → ∃ s' Q', act s t = some s' ∧ SchedOk s' Q' ∅ ∧ Q' q = Q q ∧
      QueueGrows s s' Q Q') :
    ∀ {l₂ l₁ : List Tid} {n : ℕ} {s : SchedSys Chan Tid} {Q : SchedList → List Tid}, SchedOk s Q ∅ →
      Q q = l₁ ++ l₂ → l₂.length < n → ∃ s' Q', sweep q p act n l₁.getLast? s = some s' ∧
        SchedOk s' Q' ∅ ∧ QueueGrows s s' Q Q'
  | _, _, 0, _, _, _, _, hn => by omega
  | [], l₁, n + 1, s, Q, h, hQ, _ => by
    rw [SchedSys.sweep, h.linked.at_eq hQ]
    exact ⟨s, Q, rfl, h, .refl⟩
  | t :: l₂, l₁, n + 1, s, Q, h, hQ, hn => by
    have hlen : l₂.length < n := by simpa using hn
    rw [SchedSys.sweep, h.linked.at_eq hQ]
    simp only [head?_cons]
    split
    · obtain ⟨hlive, hidle⟩ := h.listed q t (by rw [hQ]; simp)
      have htaken := h.taken hq hQ
      rw [insert_empty_eq] at htaken
      obtain ⟨s₁, Q1, hs₁, h₁, hQ₁, he1⟩ := hact htaken (h.linked.notMem_update hQ) hlive hidle
      rw [update_self] at hQ₁
      obtain ⟨s2, Q2, hs2, h2, he2⟩ := SchedOk.sweep hq hact h₁ hQ₁ hlen
      have he : QueueGrows s s₁ Q Q1 := he1.of_update hq rfl rfl
      exact ⟨s2, Q2, by rw [hs₁, bind_some, hs2], h2, he.trans he2⟩
    · have hQ' : Q q = (l₁ ++ [t]) ++ l₂ := by rw [hQ, append_assoc, singleton_append]
      have hrec := SchedOk.sweep hq hact h hQ' hlen
      rwa [getLast?_concat] at hrec

variable [Fintype Tid]

theorem SchedOk.sweepAll (h : SchedOk s Q ∅) (hq : q ≠ .runq)
    (hact : ∀ {s : SchedSys Chan Tid} {Q t}, SchedOk s Q {t} → (∀ q, t ∉ Q q) → s.live t = true →
      t ≠ s.idle → ∃ s' Q', act s t = some s' ∧ SchedOk s' Q' ∅ ∧ Q' q = Q q ∧
      QueueGrows s s' Q Q') :
    ∃ s' Q', SchedSys.sweep q p act (Fintype.card Tid + 1) none s = some s' ∧ SchedOk s' Q' ∅ ∧
      QueueGrows s s' Q Q' :=
  h.sweep hq hact (nil_append (Q q)).symm
    (Nat.lt_succ_of_le (h.linked.chain q).length_le_card)

theorem SchedOk.schedCleanupZombie (h : SchedOk s Q ∅) :
    ∃ s' Q', s.schedCleanupZombie = some s' ∧ SchedOk s' Q' ∅ ∧ QueueGrows s s' Q Q' := by
  refine h.sweepAll (by decide) fun {s Q t} h hout hlive hidle => ?_
  have hlive' : ∀ u, update s.live t false u = true ↔ u ≠ t ∧ s.live u = true := fun u => by
    by_cases hu : u = t <;> simp [hu]
  refine ⟨_, Q, rfl,
    ⟨h.linked, fun q u hu => ⟨(hlive' u).mpr ⟨?_, (h.listed q u hu).1⟩, (h.listed q u hu).2⟩,
    fun u hu hui _ => ?_, fun q u hu _ =>
    h.states q u hu ?_, h.idle, h.nrRunning, h.tail, ?_⟩, rfl, rfl,
    rfl, [], (append_nil _).symm⟩
  · rintro rfl
    exact hout q hu
  · obtain ⟨hne, hu⟩ := (hlive' u).mp hu
    exact h.placed u hu hui hne
  · rintro rfl
    exact hout q hu
  · exact (hlive' s.idle).mpr ⟨hidle.symm, h.awake⟩

variable (cfg : SchedConfig)

theorem SchedOk.schedWakeup [DecidableEq Chan] (h : SchedOk s Q ∅) (chan : Option (Chan ⊕ Tid)) :
    ∃ s' Q', s.schedWakeup cfg chan = some s' ∧ SchedOk s' Q' ∅ ∧ QueueGrows s s' Q Q' := by
  refine h.sweepAll (by decide) fun {s Q t} h hout hlive hidle => ?_
  have hready := h.readied cfg (k := s.task t) hout hlive hidle
  rwa [SchedSys.setTask, update_eq_self] at hready

theorem SchedOk.sleepCheckWakeup (h : SchedOk s Q ∅) :
    ∃ s' Q', s.sleepCheckWakeup cfg = some s' ∧ SchedOk s' Q' ∅ ∧ QueueGrows s s' Q Q' :=
  h.sweepAll (by decide) fun h hout hlive hidle => h.readied cfg hout hlive hidle

theorem SchedOk.schedWakeupThread {w : Tid} (h : SchedOk s Q X)
    (hX : ∀ u ∈ X, u ∈ Q .runq ∧ (s.task u).state ≠ .blocked) (hlive : s.live w = true) :
    ∃ s' Q', s.schedWakeupThread cfg w = some s' ∧ SchedOk s' Q' X ∧ QueueGrows s s' Q Q' ∧
      ∀ u ∈ X, (s'.task u).state = (s.task u).state := by
  by_cases hw : w ∈ Q .blocked
  · have hwX : w ∉ X := fun hwX => by
      have heq := h.linked.apart .runq .blocked w (hX w hwX).1 hw
      cases heq
    obtain ⟨l₁, l₂, hl⟩ := append_of_mem hw
    obtain ⟨-, hidle⟩ := h.listed .blocked w hw
    have hmark := (h.taken (by decide) hl).mark
      (k := { s.task w with waitChan := none, pendingWakeup := true }) hidle
    obtain ⟨s', hs', hok, he, htask⟩ := hmark.makeReady cfg (h.linked.notMem_update hl) hlive hidle
    refine ⟨s', _, ?_, hok.mono fun u hu => ?_, he.of_update (by decide) rfl rfl, fun u hu => ?_⟩
    · rw [SchedSys.schedWakeupThread, h.linked.remove_of_mem hl]
      exact hs'
    · obtain ⟨hu, hne⟩ := hu
      exact (hu.resolve_left hne).resolve_left hne
    · have hne : u ≠ w := fun huw => hwX (huw ▸ hu)
      rw [htask u hne, setTask_of_ne _ hne]
  · have hst : (s.task w).state ≠ .blocked := by
      intro hst
      by_cases hwX : w ∈ X
      · exact (hX w hwX).2 hst
      by_cases hidle : w = s.idle
      · rw [hidle, h.idle] at hst
        cases hst
      obtain ⟨q, hq⟩ := h.placed w hlive hidle hwX
      have hholds := h.states q w hq hwX
      rw [hst] at hholds
      have hqb : q = .blocked := hholds.unique (show SchedList.blocked.Holds .blocked from rfl)
      exact hw (hqb ▸ hq)
    have hset := h.setTask (k := { s.task w with waitChan := none, pendingWakeup := true }) rfl
    refine ⟨_, Q, ?_, hset, ⟨rfl, rfl, [], (append_nil _).symm⟩, fun u _ => ?_⟩
    · rw [SchedSys.schedWakeupThread, h.linked.remove_of_notMem hw]
      simp only [isSome_none, Bool.false_eq_true, false_or]
      exact if_neg (by rw [setTask_self]; exact hst)
    · by_cases huw : u = w
      · rw [huw, setTask_self]
      · rw [setTask_of_ne s huw]

theorem SchedOk.wakeAll : ∀ (ws : List Tid) {s : SchedSys Chan Tid} {Q : SchedList → List Tid},
    SchedOk s Q X → (∀ u ∈ X, u ∈ Q .runq ∧ (s.task u).state ≠ .blocked) →
      ∃ s' Q', ws.foldlM (fun (s : SchedSys Chan Tid) w =>
          if s.live w then s.schedWakeupThread cfg w else some s) s = some s' ∧
        SchedOk s' Q' X ∧ QueueGrows s s' Q Q' ∧ ∀ u ∈ X, (s'.task u).state = (s.task u).state
  | [], s, Q, h, _ => ⟨s, Q, rfl, h, .refl, fun _ _ => rfl⟩
  | w :: ws, s, Q, h, hX => by
    rw [foldlM_cons]
    split
    · rename_i hlive
      obtain ⟨s₁, Q1, hs₁, h₁, he1, hst1⟩ := h.schedWakeupThread cfg hX hlive
      have hX₁ : ∀ u ∈ X, u ∈ Q1 .runq ∧ (s₁.task u).state ≠ .blocked := fun u hu => by
        obtain ⟨l, hl⟩ := he1.runq
        rw [hl, hst1 u hu]
        exact ⟨mem_append_left l (hX u hu).1, (hX u hu).2⟩
      obtain ⟨s2, Q2, hs2, h2, he2, hst2⟩ := SchedOk.wakeAll ws h₁ hX₁
      exact ⟨s2, Q2, by rw [hs₁]; exact hs2, h2, he1.trans he2,
        fun u hu => (hst2 u hu).trans (hst1 u hu)⟩
    · exact SchedOk.wakeAll ws h hX

end Walks

section Switch
variable [DecidableEq Tid]

theorem SchedOk.leave (h : SchedOk s Q ∅)
    (hlive : ∀ t, s.current = some t → t ≠ s.idle → s.live t = true) : SchedOk s.leave Q ∅ := by
  unfold SchedSys.leave
  split
  · split
    · rename_i prev hprev hcond
      obtain ⟨q, hq⟩ := h.placed prev (hlive prev hprev hcond.1) hcond.1 (Set.notMem_empty prev)
      have hholds := h.states q prev hq (Set.notMem_empty prev)
      rw [hcond.2] at hholds
      have hrunq : q = .runq := hholds.unique (show SchedList.runq.Holds .running from Or.inr rfl)
      exact h.restate (q := .runq) (hrunq ▸ hq) (Or.inl rfl)
    · exact h
  · exact h

theorem leave_idle : s.leave.idle = s.idle := by
  unfold leave
  split
  · split <;> rfl
  · rfl

theorem SchedOk.enter (h : SchedOk s Q ∅) (ht : t = s.idle ∨ (Q .runq).head? = some t) :
    SchedOk (s.enter t) Q ∅ ∧ CurrentOk (s.enter t) Q := by
  have hcur : (s.enter t).current = some t ∧ (s.enter t).idle = s.idle := by
    unfold SchedSys.enter
    split <;> exact ⟨rfl, rfl⟩
  constructor
  · unfold SchedSys.enter
    split
    · rename_i hidle
      have hmem : t ∈ Q .runq := mem_of_mem_head? (ht.resolve_left hidle)
      have hrun := h.restate (k := { s.task t with state := .running }) hmem (Or.inr rfl)
      exact { hrun with }
    · exact { h with }
  · intro u hu
    obtain rfl := some.inj (hcur.1.symm.trans hu)
    rw [hcur.2]
    exact ht

theorem SchedOk.goOn [Fintype Tid] {b : Bool} (h : SchedOk s Q ∅) (hcur : CurrentOk s Q) :
    ∃ s', s.goOn b t = some s' ∧ SchedInv s' := by
  unfold SchedSys.goOn
  split
  · exact ⟨_, rfl, Q, h.setTask rfl, hcur⟩
  · obtain ⟨s', Q', hs', h', he⟩ := h.schedCleanupZombie
    refine ⟨_, by rw [hs', map_some], Q', h'.setTask ?_, fun u hu => hcur.grows he u hu⟩
    unfold Task.resumed
    split <;> rfl

variable (cfg : SchedConfig)

theorem SchedOk.rrPickNext (h : SchedOk s Q ∅) : ∃ Q', SchedOk (s.rrPickNext cfg).2 Q' ∅ ∧
    (s.rrPickNext cfg).1 = (Q' .runq).head? ∧ (s.rrPickNext cfg).2.current = s.current ∧
    (s.rrPickNext cfg).2.idle = s.idle ∧ (s.rrPickNext cfg).2.live = s.live := by
  unfold SchedSys.rrPickNext
  have hhead := h.linked.head_eq .runq
  rcases hQ : Q .runq with _ | ⟨t, l⟩
  · rw [hQ, head?_nil] at hhead
    rw [hhead]
    exact ⟨Q, h, by rw [hQ]; rfl, rfl, rfl, rfl⟩
  · rw [hQ, head?_cons] at hhead
    rw [hhead]
    simp only
    split
    · have hdrop := h.linked.drop hQ
      have htail : (if (s.links.drop .runq t).head .runq = none then none else s.tail) =
        l.getLast? := by
        have hrest : (s.links.drop .runq t).head .runq = l.head? := by
          rw [hdrop.head_eq .runq, update_self]
        rw [hrest, h.tail, hQ]
        cases l with
        | nil => rfl
        | cons u l => simp [getLast?_cons]
      have hclear : (s.links.drop .runq t).clear t = s.links.drop .runq t := by
        simp only [Lib.Links.clear, Lib.Links.drop, update_idem]
      have happ := hdrop.append (q := .runq)
        (h.linked.notMem_update (show Q .runq = [] ++ t :: l from hQ))
      rw [Lib.Links.append, hclear, update_self, update_idem, ← htail] at happ
      have hnew : SchedOk (s.rotate cfg t) (update Q .runq (l ++ [t])) ∅ := by
        have hset := h.setTask (k := { s.task t with timeSlice := cfg.timeSlice }) rfl
        have hmem : ∀ {q u}, u ∈ update Q .runq (l ++ [t]) q ↔ u ∈ Q q := by
          intro q u
          by_cases hq : q = .runq
          · rw [hq, update_self, hQ]
            simp [or_comm]
          · rw [update_of_ne hq]
        refine ⟨happ, fun q u hu => hset.listed q u (hmem.mp hu), fun u hu hui hX => ?_,
          fun q u hu => hset.states q u (hmem.mp hu), hset.idle, ?_, ?_, hset.awake⟩
        · obtain ⟨q, hq⟩ := hset.placed u hu hui hX
          exact ⟨q, hmem.mpr hq⟩
        · rw [update_self]
          exact h.nrRunning.trans (by rw [hQ]; simp)
        · rw [update_self, getLast?_concat]
          rfl
      refine ⟨_, hnew, ?_, rfl, rfl, rfl⟩
      exact hnew.linked.head_eq .runq
    · exact ⟨Q, h, by rw [hQ]; rfl, rfl, rfl, rfl⟩

variable [Fintype Tid]

theorem SchedOk.schedule (h : SchedOk s Q ∅)
    (hlive : ∀ t, s.current = some t → t ≠ s.idle → s.live t = true) :
    ∃ s', s.schedule cfg = some s' ∧ SchedInv s' := by
  obtain ⟨Q1, h₁, hhead, hcur, hidle, hlive1⟩ := h.rrPickNext cfg
  unfold SchedSys.schedule
  simp only
  generalize (s.rrPickNext cfg).2 = s₁ at *
  have hnext : (s.rrPickNext cfg).1.getD s₁.idle = s₁.idle ∨
      (Q1 .runq).head? = some ((s.rrPickNext cfg).1.getD s₁.idle) := by
    rw [hhead]
    cases hQ : (Q1 .runq).head? with
    | none => exact .inl rfl
    | some t => exact .inr rfl
  generalize (s.rrPickNext cfg).1.getD s₁.idle = next at *
  split
  · rename_i hsame
    obtain ⟨s', Q', hs', h', he⟩ := h₁.schedCleanupZombie
    refine ⟨s', hs', Q', h', CurrentOk.grows (fun t ht => ?_) he⟩
    obtain rfl := some.inj (hsame.symm.trans ht)
    exact hnext
  · have hleave := h₁.leave fun t ht hne => by
      rw [hlive1]
      exact hlive t (hcur ▸ ht) (hidle ▸ hne)
    obtain ⟨henter, hok⟩ := hleave.enter (by rw [leave_idle]; exact hnext)
    exact henter.goOn hok

theorem SchedOk.depart (h : SchedOk s Q {t}) (hq : q ≠ .runq)
    (ht : t ∈ Q .runq) (hst : q.Holds (s.task t).state)
    (hcur : s.current = some t) :
    ∃ s', s.depart cfg q t = some s' ∧ SchedInv s' := by
  obtain ⟨hlive, hidle⟩ := h.listed .runq t ht
  obtain ⟨l₁, l₂, hl⟩ := append_of_mem ht
  obtain ⟨s₁, hs₁, h₁, htask, hcur1, hidle1, hlive1⟩ := h.rrDequeue hl
  have hother := update_of_ne (Ne.symm hq) (t :: update Q .runq (l₁ ++ l₂) q)
    (update Q .runq (l₁ ++ l₂))
  have hadd := h₁.added (h₁.linked.push (h.linked.notMem_update hl)) (fun u => mem_cons)
    (by rw [hlive1, hlive])
    (by rw [hidle1]; exact hidle) (by rw [htask]; exact hst) (n := s₁.nrRunning) (w := s₁.tail)
    (by rw [hother, h₁.nrRunning]) (by rw [hother, h₁.tail])
  rw [SchedSys.depart, hs₁, bind_some]
  refine (hadd.mono fun u hu => ?_).schedule cfg fun u hu _ => ?_
  · rcases Set.mem_insert_iff.mp hu.1 with hut | hut <;> exact absurd hut hu.2
  · obtain rfl := some.inj ((hcur1.trans hcur).symm.trans hu)
    exact (congrFun hlive1 t).trans hlive

end Switch

section Run

theorem CurrentOk.live (hcur : CurrentOk s Q) (h : SchedOk s Q ∅) :
    ∀ t, s.current = some t → t ≠ s.idle → s.live t = true := by
  intro t ht hidle
  exact (h.listed .runq t (mem_of_mem_head? ((hcur t ht).resolve_left hidle))).1

variable [DecidableEq Tid]

theorem CurrentOk.caller (hcur : CurrentOk s Q) (ht : s.caller = some t) :
    s.current = some t ∧ t ≠ s.idle ∧ t ∈ Q .runq := by
  obtain ⟨hsome, hidle⟩ := filter_eq_some_iff.mp ht
  have hne : t ≠ s.idle := of_decide_eq_true hidle
  exact ⟨hsome, hne, mem_of_mem_head? ((hcur t hsome).resolve_left hne)⟩

theorem SchedInv.setTask (h : SchedInv s)
    (hst : k.state = (s.task t).state) : SchedInv (s.setTask t k) := by
  obtain ⟨Q, h, hcur⟩ := h
  exact ⟨Q, h.setTask hst, hcur⟩

variable (cfg : SchedConfig)

theorem SchedInv.schedSpawn (h : SchedInv s) (hlive : s.live t = false) :
    ∃ s', s.schedSpawn cfg t = some s' ∧ SchedInv s' := by
  obtain ⟨Q, h, hcur⟩ := h
  have hout : ∀ q, t ∉ Q q := fun q ht => Bool.false_ne_true (hlive.symm.trans (h.listed q t ht).1)
  have hidle : t ≠ s.idle := by
    rintro rfl
    exact Bool.false_ne_true (hlive.symm.trans h.awake)
  have hnew : ∀ u, s.live u = true → update s.live t true u = true := fun u hu => by
    by_cases hut : u = t <;> simp [hut, hu]
  have hborn : SchedOk { s with live := update s.live t true } Q {t} := by
    refine ⟨h.linked, fun q u hu => ⟨hnew u (h.listed q u hu).1, (h.listed q u hu).2⟩,
      fun u hu hui hut => ?_,
      fun q u hu _ =>
      h.states q u hu (Set.notMem_empty u), h.idle, h.nrRunning, h.tail, hnew _ h.awake⟩
    have hu' : update s.live t true u = true := hu
    rw [update_of_ne hut] at hu'
    exact h.placed u hu' hui (Set.notMem_empty u)
  have hset := hborn.mark (k := ⟨.ready, 0, none, 0, false, false, false, .yield⟩) hidle
  obtain ⟨s', hs', h', he, -⟩ := hset.rrEnqueue cfg hout (update_self ..) hidle
  refine ⟨s', hs', _, h'.mono fun u hu => ?_, hcur.grows ⟨he.current, he.idle, he.runq⟩⟩
  rcases Set.mem_insert_iff.mp hu.1 with hut | hut <;> exact absurd hut hu.2

variable [Fintype Tid]

theorem SchedOk.block (h : SchedOk s Q ∅) (hcur : CurrentOk s Q) (ht : s.caller = some t)
    (hst : k.state = .blocked) :
    ∃ s', (s.setTask t k).depart cfg .blocked t = some s' ∧ SchedInv s' := by
  obtain ⟨hsome, hidle, hmem⟩ := hcur.caller ht
  have hmark := h.mark (k := k) hidle
  rw [insert_empty_eq] at hmark
  exact hmark.depart cfg (by decide) hmem ((congrArg Task.state (setTask_self ..)).trans hst) hsome

theorem SchedInv.schedBlock (h : SchedInv s) (chan : Option (Chan ⊕ Tid)) :
    ∃ s', s.schedBlock cfg chan = some s' ∧ SchedInv s' := by
  obtain ⟨Q, h, hcur⟩ := h
  unfold SchedSys.schedBlock
  split
  · exact ⟨s, rfl, Q, h, hcur⟩
  · rename_i t ht
    split
    · exact ⟨_, rfl, Q, h.setTask rfl, hcur⟩
    · exact h.block cfg hcur ht rfl

theorem SchedInv.schedBlockTimeout (h : SchedInv s) (chan : Option (Chan ⊕ Tid)) (timeoutMs : ℕ) :
    ∃ s', s.schedBlockTimeout cfg chan timeoutMs = some s' ∧ SchedInv s' := by
  obtain ⟨Q, h, hcur⟩ := h
  unfold SchedSys.schedBlockTimeout
  split
  · exact ⟨s, rfl, Q, h, hcur⟩
  · rename_i t ht
    split
    · exact ⟨_, rfl, Q, h.setTask rfl, hcur⟩
    · exact h.block cfg hcur ht rfl

theorem SchedInv.sleepTicks (h : SchedInv s) (ticks : ℕ) :
    ∃ s', s.sleepTicks cfg ticks = some s' ∧ SchedInv s' := by
  obtain ⟨Q, h, hcur⟩ := h
  unfold SchedSys.sleepTicks
  split
  · exact ⟨s, rfl, Q, h, hcur⟩
  · split
    · exact ⟨s, rfl, Q, h, hcur⟩
    · exact h.block cfg hcur ‹_› rfl

theorem SchedInv.schedule (h : SchedInv s) : ∃ s', s.schedule cfg = some s' ∧ SchedInv s' := by
  obtain ⟨Q, h, hcur⟩ := h
  exact h.schedule cfg (hcur.live h)

theorem SchedInv.schedTick (h : SchedInv s) : ∃ s', s.schedTick cfg = some s' ∧ SchedInv s' := by
  obtain ⟨Q, h, hcur⟩ := h
  obtain ⟨s₁, Q1, hs₁, h₁, he1⟩ := h.sleepCheckWakeup cfg
  have hinv : SchedInv s₁ := ⟨Q1, h₁, hcur.grows he1⟩
  rw [SchedSys.schedTick, hs₁, bind_some]
  split
  · obtain ⟨Q2, h2, hhead, hcur2, -, -⟩ := h₁.rrPickNext cfg
    simp only
    split
    · rename_i first hfirst
      obtain ⟨h3, hcur3⟩ := h2.enter (.inr (hhead.symm.trans hfirst))
      exact h3.goOn hcur3
    · rename_i _ hnone _ _
      refine ⟨_, rfl, Q2, h2, fun t ht => ?_⟩
      rw [hcur2, hnone] at ht
      cases ht
  · split
    · split
      · exact hinv.schedule cfg
      · exact ⟨s₁, rfl, hinv⟩
    · split
      · exact ⟨s₁, rfl, hinv⟩
      · simp only
        split
        · exact SchedInv.schedule cfg (hinv.setTask rfl)
        · exact ⟨_, rfl, hinv.setTask rfl⟩

/-- `thread_exit`: the thread that exits is still in the run queue while `process_exit` wakes
others. -/
theorem SchedInv.threadExit (h : SchedInv s) (woken : List Tid) (hidle : s.current ≠ some s.idle) :
    ∃ s', s.threadExit cfg woken = some s' ∧ SchedInv s' := by
  unfold SchedSys.threadExit
  split
  · exact h.schedule cfg
  · rename_i t ht
    obtain ⟨Q, h, hcur⟩ := h
    have hne : t ≠ s.idle := fun hti => hidle (hti ▸ ht)
    have hmem : t ∈ Q .runq := mem_of_mem_head? ((hcur t ht).resolve_left hne)
    rw [if_neg hne]
    have hmark := h.mark (k := { s.task t with state := .exited }) hne
    rw [insert_empty_eq] at hmark
    have hself := congrArg Task.state (setTask_self s t { s.task t with state := .exited })
    obtain ⟨s₁, Q1, hs₁, h₁, he1, hst1⟩ := SchedOk.wakeAll cfg woken hmark fun u hu => by
      rw [Set.mem_singleton_iff.mp hu]
      exact ⟨hmem, by rw [hself]; nofun⟩
    obtain ⟨l, hl⟩ := he1.runq
    rw [hs₁, bind_some]
    exact h₁.depart cfg (by decide) (by rw [hl]; exact mem_append_left l hmem)
      ((hst1 t rfl).trans hself) (he1.current.trans ht)

theorem SchedInv.step [DecidableEq Chan] (h : SchedInv s) (a : SchedAction Chan Tid)
    (ha : ∀ woken, a = .exit woken → s.current ≠ some s.idle) :
    ∃ s', s.step cfg a = some s' ∧ SchedInv s' := by
  cases a with
  | spawn t =>
    rw [SchedSys.step]
    split
    · exact ⟨s, rfl, h⟩
    · rename_i hlive
      exact h.schedSpawn cfg (Bool.eq_false_iff.mpr hlive)
  | tick =>
    obtain ⟨Q, h, hcur⟩ := h
    exact SchedInv.schedTick cfg ⟨Q, { h with }, hcur⟩
  | yield =>
    rw [SchedSys.step, schedYield]
    split
    · exact h.schedule cfg
    · exact SchedInv.schedule cfg (h.setTask rfl)
  | block chan => exact h.schedBlock cfg chan
  | blockTimeout chan timeoutMs => exact h.schedBlockTimeout cfg chan timeoutMs
  | sleep ticks => exact h.sleepTicks cfg ticks
  | wakeup chan =>
    obtain ⟨Q, h, hcur⟩ := h
    obtain ⟨s', Q', hs', h', he⟩ := h.schedWakeup cfg chan
    exact ⟨s', hs', Q', h', hcur.grows he⟩
  | wakeupThread t =>
    rw [SchedSys.step]
    split
    · rename_i hlive
      obtain ⟨Q, h, hcur⟩ := h
      obtain ⟨s', Q', hs', h', he, -⟩ := h.schedWakeupThread cfg nofun hlive
      exact ⟨s', hs', Q', h', hcur.grows he⟩
    · exact ⟨s, rfl, h⟩
  | exit woken => exact h.threadExit cfg woken (ha woken rfl)
  | schedule => exact h.schedule cfg
  | setReclaimable t =>
    rw [SchedSys.step]
    split
    · exact ⟨_, rfl, h.setTask rfl⟩
    · exact ⟨s, rfl, h⟩

/-- After every run from `sched_init` the lists partition the live threads, and every operation but
the exit of the idle thread goes through. -/
theorem threads_partitioned [DecidableEq Chan]
    (h : Lib.Reach (SchedSys.step cfg) SchedSys.Init (fun _ _ => True) s) :
    (∃ Q, Partitioned s Q) ∧ ∀ a, (∀ woken, a = .exit woken → s.current ≠ some s.idle) →
      ∃ s', s.step cfg a = some s' := by
  have hinv : SchedInv s := by
    refine h.invariant (P := SchedInv) (fun s hs => ⟨_, .of_init hs, fun t ht => ?_⟩)
      fun s a s' h _ hs => ?_
    · rw [hs.current] at ht
      cases ht
    · by_cases ha : ∀ woken, a = .exit woken → s.current ≠ some s.idle
      · obtain ⟨s₁, hs₁, h₁⟩ := h.step cfg a ha
        obtain rfl := some.inj (hs₁.symm.trans hs)
        exact h₁
      · simp only [not_forall, not_not] at ha
        obtain ⟨woken, rfl, hidle⟩ := ha
        rw [SchedSys.step, threadExit, hidle] at hs
        simp at hs
  obtain ⟨Q, hok, hcur⟩ := hinv
  refine ⟨⟨Q, hok.partitioned hcur⟩, fun a ha => ?_⟩
  obtain ⟨s', hs', -⟩ := SchedInv.step cfg ⟨Q, hok, hcur⟩ a ha
  exact ⟨s', hs'⟩

end Run

def bootedCpu : SchedSys Unit (Fin 3) where
  links := ⟨fun _ => none, fun _ => none⟩
  tail := none
  nrRunning := 0
  current := none
  idle := 0
  live t := t == 0
  task _ := ⟨.ready, 0, none, 0, false, false, false, .yield⟩
  now := 0

theorem init_bootedCpu : bootedCpu.Init :=
    ⟨fun _ => rfl, rfl, rfl, rfl, fun t => by simp [bootedCpu], rfl⟩

def sleepExitRun : List (SchedAction Unit (Fin 3)) :=
  [.spawn 1, .spawn 2, .tick, .sleep 2, .setReclaimable 2, .exit [1], .tick, .tick]

theorem threads_partitioned_sleepExitRun :
    ∃ s, Lib.run (SchedSys.step ⟨100, 10⟩) bootedCpu sleepExitRun = some s ∧ s.current = some 1 ∧
      s.live 2 = false ∧ (∃ Q, Partitioned s Q) ∧
      ∃ s', s.step ⟨100, 10⟩ (.block none) = some s' := by
  have hrun : (Lib.run (SchedSys.step ⟨100, 10⟩) bootedCpu sleepExitRun).map (fun s =>
      (s.current, s.live 2)) = some (some 1, false) := by
    decide
  obtain ⟨s, hs, h⟩ := map_eq_some_iff.mp hrun
  obtain ⟨hcur, hlive⟩ := Prod.mk.inj h
  obtain ⟨hpart, hgo⟩ := threads_partitioned ⟨100, 10⟩
    (.of_run _ (.init init_bootedCpu) (fun _ _ _ => trivial) hs)
  exact ⟨s, hs, hcur, hlive, hpart, hgo (.block none) nofun⟩

end Xnix
