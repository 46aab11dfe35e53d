import Xnix.Proofs.SvcCycles

/-!
# The order of the services

`svc_topological_sort` puts a service into its queue when the last of its dependencies is taken off.
`Sorting` is the invariant: `inDegree` counts the dependencies that were not taken yet and `left`
more, whose turn comes in the loop that is going on; the queue is ordered by level, so the
dependency that is taken last is one of the highest.
-/

namespace Xnix

open Function List Lib

open SvcManager (Outcome)

namespace SvcSort

variable {s s' : SvcSort} {n idx j : ℕ} {needs : ℕ → List SvcDependency} {left : ℕ → ℕ}
  {queue : List ℕ} {left' : ℕ → ℕ}

def level (s : SvcSort) (i : ℕ) : ℕ := (s.mgr.graph i).topoLevel

abbrev targets (deps : List SvcDependency) : List ℕ := deps.map (·.targetIdx)

/-- `needs` are the dependencies of the `n` services, and `left` counts those that were taken but
are still counted.
-/
structure Sorting (n : ℕ) (needs : ℕ → List SvcDependency) (left : ℕ → ℕ) (s : SvcSort) : Prop where
  count : s.mgr.count = n
  deps : ∀ j < n, (s.mgr.graph j).deps = needs j
  front : s.queueFront ≤ s.queue.length
  order : s.mgr.topoOrder = s.queue.take s.queueFront
  nodup : s.queue.Nodup
  lt : ∀ j ∈ s.queue, j < n
  degree : ∀ j < n, s.inDegree j = ((targets (needs j)).countP (· ∉ s.mgr.topoOrder) + left j : ℕ)
  queued : ∀ j < n, j ∈ s.queue ↔ s.inDegree j = 0
  inOrder : Lib.InOrder (fun i => targets (needs i)) s.queue
  falls : ∀ j ∈ s.queue, ∀ d ∈ targets (needs j), s.level d < s.level j
  step : ∀ j ∈ s.queue, s.level j ≠ 0 → ∃ d ∈ targets (needs j), s.level j = s.level d + 1
  sorted : s.queue.Pairwise fun a b => s.level a ≤ s.level b

theorem Sorting.length_lt (h : Sorting n needs left s) (hj : j < n) (hnew : j ∉ s.queue) :
    s.queue.length < svcMaxServices :=
  (SvcManager.length_lt_of_notMem h.lt h.nodup hj hnew).trans_le (h.count ▸ s.mgr.count_le)

theorem Sorting.length_le (h : Sorting n needs left s) : s.queue.length ≤ n := by
  have hsub : s.queue ⊆ range n := fun i hi => mem_range.mpr (h.lt i hi)
  have hlen := (h.nodup.subperm hsub).length_le
  rwa [length_range] at hlen

theorem mem_order_of_degree {order : List ℕ} {deps : List SvcDependency} {k : ℕ}
    (h : (((targets deps).countP (· ∉ order) + k : ℕ) : ℤ) = 0) :
    ∀ d ∈ targets deps, d ∈ order := by
  have hcount : (targets deps).countP (· ∉ order) = 0 := by omega
  intro d hd
  simpa using countP_eq_zero.mp hcount d hd

section
variable (h : Sorting n needs left s)
include h

theorem Sorting.order_subset : s.mgr.topoOrder ⊆ s.queue := by
  rw [h.order]
  exact take_subset _ _

theorem Sorting.of_left (hleft : ∀ i < n, left i = left' i) : Sorting n needs left' s :=
  { h with degree := fun j hj => hleft j hj ▸ h.degree j hj }

theorem Sorting.enqueue {inDegree : ℕ → ℤ} {level : ℕ} (hj : j < n) (hnew : j ∉ s.queue)
    (hdegree : ∀ i < n, inDegree i =
    ((targets (needs i)).countP (· ∉ s.mgr.topoOrder) + left' i : ℕ))
    (hqueued : ∀ i < n, i ∈ s.queue ++ [j] ↔ inDegree i = 0)
    (hfalls : ∀ d ∈ targets (needs j), s.level d < level)
    (hstep : level ≠ 0 → ∃ d ∈ targets (needs j), level = s.level d + 1)
    (hsorted : ∀ i ∈ s.queue, s.level i ≤ level) :
    Ends (({ s with inDegree := inDegree } : SvcSort).enqueue j level) (fun _ => False) fun s' =>
      Sorting n needs left' s' ∧ s'.queueFront = s.queueFront ∧ s'.queue = s.queue ++ [j] ∧
        s'.mgr.topoOrder = s.mgr.topoOrder ∧ s'.level j = level ∧ ∀ i ≠ j,
        s'.level i = s.level i := by
  unfold SvcSort.enqueue
  rw [if_pos (h.length_lt hj hnew)]
  refine .ok ?_
  set s' : SvcSort := { s with
    inDegree := inDegree
    queue := s.queue ++ [j]
    mgr := s.mgr.setNode j { s.mgr.graph j with topoLevel := level } } with hs'
  have hself : s'.level j = level := by rw [SvcSort.level, hs', SvcManager.setNode_self]
  have hother : ∀ i ≠ j, s'.level i = s.level i := fun i hi => by
    rw [SvcSort.level, hs', SvcManager.setNode_of_ne hi, SvcSort.level]
  have hold : ∀ i ∈ s.queue, s'.level i = s.level i :=
    fun i hi => hother i fun heq => hnew (heq ▸ hi)
  have hneeds : ∀ i ∈ s.queue ++ [j], ∀ d ∈ targets (needs i), d ∈ s.queue := by
    intro i hi d hd
    have hin : i < n := (mem_append.mp hi).elim (h.lt i) fun hi => mem_singleton.mp hi ▸ hj
    exact h.order_subset
      (mem_order_of_degree ((hdegree i hin).symm.trans ((hqueued i hin).mp hi)) d hd)
  have hlast : j ∈ s.queue ++ [j] := mem_append_right _ (mem_singleton_self j)
  have hsorting : Sorting n needs left' s' := by
    refine ⟨h.count, fun i hi => ?_, ?_, ?_, ?_, ?_, hdegree, hqueued, ?_, ?_, ?_, ?_⟩
    · rw [← h.deps i hi]
      by_cases hne : i = j
      · rw [hs', hne, SvcManager.setNode_self]
      · rw [hs', SvcManager.setNode_of_ne hne]
    · exact h.front.trans (length_append ▸ Nat.le_add_right _ _)
    · exact h.order.trans (take_append_of_le_length h.front).symm
    · exact nodup_append.mpr ⟨h.nodup, nodup_singleton j,
        fun a ha b hb heq => hnew (mem_singleton.mp hb ▸ heq ▸ ha)⟩
    · exact fun i hi => (mem_append.mp hi).elim (h.lt i) fun hi => mem_singleton.mp hi ▸ hj
    · exact h.inOrder.concat (hneeds j hlast)
    · intro i hi d hd
      rw [hold d (hneeds i hi d hd)]
      rcases mem_append.mp hi with hi | hi
      · rw [hold i hi]
        exact h.falls i hi d hd
      · rw [mem_singleton.mp hi, hself]
        exact hfalls d (mem_singleton.mp hi ▸ hd)
    · intro i hi hne
      rcases mem_append.mp hi with hiq | hiq
      · rw [hold i hiq] at hne ⊢
        obtain ⟨d, hd, heq⟩ := h.step i hiq hne
        exact ⟨d, hd, by rw [hold d (hneeds i hi d hd), heq]⟩
      · obtain rfl := mem_singleton.mp hiq
        rw [hself] at hne ⊢
        obtain ⟨d, hd, heq⟩ := hstep hne
        exact ⟨d, hd, by rw [hold d (hneeds i hlast d hd), heq]⟩
    · refine pairwise_append.mpr ⟨?_, pairwise_singleton _ j, fun a ha b hb => ?_⟩
      · refine h.sorted.imp_of_mem fun {a b} ha hb hab => ?_
        rw [hold a ha, hold b hb]
        exact hab
      · rw [mem_singleton.mp hb, hself, hold a ha]
        exact hsorted a ha
  exact ⟨hsorting, rfl, rfl, rfl, hself, hother⟩

end

/-- In the loop over the dependencies on `idx`, which was taken last. The loop began with
`queue`. -/
structure Releasing (n : ℕ) (needs : ℕ → List SvcDependency) (idx : ℕ) (queue : List ℕ)
    (left : ℕ → ℕ) (s : SvcSort) : Prop extends Sorting n needs left s where
  taken : s.mgr.topoOrder.getLast? = some idx
  grown : queue <+: s.queue
  span : ∀ i ∈ s.queue, s.level i ≤ s.level idx + 1

section
variable (h : Releasing n needs idx queue left s)
include h

theorem Releasing.level_le {d : ℕ} (hd : d ∈ s.mgr.topoOrder) : s.level d ≤ s.level idx := by
  have hsorted : s.mgr.topoOrder.Pairwise fun a b => s.level a ≤ s.level b :=
    h.sorted.sublist (h.order ▸ take_sublist _ _)
  obtain ⟨l, hl⟩ := getLast?_eq_some_iff.mp h.taken
  rw [hl] at hd hsorted
  rcases mem_append.mp hd with hd | hd
  · exact (pairwise_append.mp hsorted).2.2 d hd idx (mem_singleton_self idx)
  · rw [mem_singleton.mp hd]

theorem Releasing.mem_queue : idx ∈ s.queue := h.order_subset (mem_of_getLast? h.taken)

theorem Releasing.release {dep : SvcDependency} (hj : j < n) (hdep : dep ∈ needs j)
    (hleft : left j = left' j + if dep.targetIdx = idx then 1 else 0)
    (hother : ∀ i ≠ j, left i = left' i) :
    Ends (release idx j dep s) (fun _ => False) fun s' =>
      Releasing n needs idx queue left' s' ∧ s'.queueFront = s.queueFront := by
  unfold SvcSort.release
  by_cases htarget : dep.targetIdx = idx
  · rw [if_pos htarget] at hleft ⊢
    have hone : s.inDegree j ≠ 0 := by
      rw [h.degree j hj]
      omega
    have hnew : j ∉ s.queue := fun hmem => hone ((h.queued j hj).mp hmem)
    have hdegree : ∀ i < n, update s.inDegree j (s.inDegree j - 1) i =
        ((targets (needs i)).countP (· ∉ s.mgr.topoOrder) + left' i : ℕ) := by
      intro i hi
      have hcount := h.degree i hi
      by_cases hij : i = j
      · subst hij
        rw [update_self]
        omega
      · rw [update_of_ne hij, hcount, hother i hij]
    refine .ite (fun hzero => ?_) fun hpos =>
      .ok ⟨⟨⟨h.count, h.deps, h.front, h.order, h.nodup, h.lt, hdegree,
      fun i hi => ?_, h.inOrder, h.falls, h.step, h.sorted⟩, h.taken, h.grown, h.span⟩, rfl⟩
    · have hqueued :
        ∀ i < n, i ∈ s.queue ++ [j] ↔ update s.inDegree j (s.inDegree j - 1) i = 0 := by
        intro i hi
        by_cases hij : i = j
        · subst hij
          exact ⟨fun _ => hzero, fun _ => mem_append_right _ (mem_singleton_self i)⟩
        · rw [update_of_ne hij, ← h.queued i hi]
          simp [hij]
      have hidx : idx ∈ targets (needs j) := mem_map.mpr ⟨dep, hdep, htarget⟩
      have hdone := mem_order_of_degree ((hdegree j hj).symm.trans hzero)
      refine (h.toSorting.enqueue hj hnew hdegree hqueued
        (fun d hd => Nat.lt_succ_of_le (h.level_le (hdone d hd)))
        (fun _ => ⟨idx, hidx, rfl⟩) h.span).imp (fun _ h => h) ?_
      rintro s' ⟨hsorting, hfront, hqueue, horder, hself, hsame⟩
      have hne : idx ≠ j := fun heq => hnew (heq ▸ h.mem_queue)
      refine ⟨⟨hsorting, horder ▸ h.taken, hqueue ▸ h.grown.trans (prefix_append _ _),
        fun i hi => ?_⟩, hfront⟩
      rw [hsame idx hne]
      by_cases hij : i = j
      · rw [hij, hself]
      · rw [hsame i hij]
        rw [hqueue] at hi
        exact h.span i ((mem_append.mp hi).resolve_right fun hmem => hij (mem_singleton.mp hmem))
    · by_cases hij : i = j
      · subst hij
        exact iff_of_false hnew hpos
      · dsimp only
        rw [update_of_ne hij]
        exact h.queued i hi
  · rw [if_neg htarget] at hleft ⊢
    refine .ok ⟨⟨h.toSorting.of_left fun i _ => ?_, h.taken, h.grown, h.span⟩, rfl⟩
    by_cases hij : i = j
    · rw [hij, hleft, Nat.add_zero]
    · exact hother i hij

end

/-- Between two services: none of those still to be taken is more than one level below another
one. -/
structure Between (n : ℕ) (needs : ℕ → List SvcDependency) (s : SvcSort) : Prop
    extends Sorting n needs (fun _ => 0) s where
  span : ∀ x ∈ s.queue.drop s.queueFront, ∀ i ∈ s.queue, s.level i ≤ s.level x + 1

theorem countP_notMem_concat {order : List ℕ} (hidx : idx ∉ order) (l : List ℕ) :
    l.countP (· ∉ order) = l.countP (· ∉ order ++ [idx]) + l.count idx := by
  induction l with
  | nil => rfl
  | cons a l ih =>
    rw [countP_cons, countP_cons, count_cons, ih]
    by_cases ha : a = idx
    · subst ha
      simp [hidx]
      omega
    · simp [ha]
      omega

theorem Between.take (h : Between n needs s) (hidx : s.queue[s.queueFront]? = some idx) :
    Releasing n needs idx s.queue (fun i => (targets (needs i)).count idx)
      { s with
        queueFront := s.queueFront + 1
        mgr := { s.mgr with topoOrder := s.mgr.topoOrder ++ [idx] } } := by
  obtain ⟨hlt, hget⟩ := List.getElem?_eq_some_iff.mp hidx
  have hsplit : s.queue.drop s.queueFront = idx :: s.queue.drop (s.queueFront + 1) := by
    rw [drop_eq_getElem_cons hlt, hget]
  have hnew : idx ∉ s.mgr.topoOrder := by
    have hnodup := h.nodup
    rw [← take_append_drop s.queueFront s.queue, hsplit, ← h.order] at hnodup
    exact fun hmem => (nodup_append.mp hnodup).2.2 idx hmem idx mem_cons_self rfl
  refine ⟨⟨h.count, h.deps, hlt, ?_, h.nodup, h.lt, fun j hj => ?_, h.queued, h.inOrder, h.falls,
    h.step, h.sorted⟩, getLast?_concat .., prefix_refl _, ?_⟩
  · rw [take_add_one, hidx, h.order]
    rfl
  · rw [h.degree j hj, countP_notMem_concat hnew]
    rfl
  · exact h.span idx (hsplit ▸ mem_cons_self)

/-- The dependencies on `idx` that are still to come when the loops are at `rest` of the service
`k`. -/
def toCome (needs : ℕ → List SvcDependency) (idx k : ℕ) (rest : List SvcDependency) (i : ℕ) : ℕ :=
  if i < k then 0 else if i = k then (targets rest).count idx else (targets (needs i)).count idx

theorem toCome_nil (needs : ℕ → List SvcDependency) (idx k i : ℕ) :
    toCome needs idx k [] i = toCome needs idx (k + 1) (needs (k + 1)) i := by
  unfold toCome
  rcases Nat.lt_trichotomy i k with hi | rfl | hi
  · rw [if_pos hi, if_pos (Nat.lt_succ_of_lt hi)]
  · simp
  · rw [if_neg (by omega), if_neg (by omega), if_neg (by omega)]
    split
    · rw [‹i = k + 1›]
    · rfl

theorem Releasing.all (h : Releasing n needs idx queue (toCome needs idx 0 (needs 0)) s) :
    Ends (forEach (fun j s => forEach (SvcSort.release idx j) (s.mgr.graph j).deps s) (range n) s)
    (fun _ => False)
      fun s' => Releasing n needs idx queue (toCome needs idx n (needs n)) s' ∧
      s'.queueFront = s.queueFront := by
  refine forEach_range (fun k s' => Releasing n needs idx queue (toCome needs idx k (needs k)) s' ∧
    s'.queueFront = s.queueFront) _ ?_ ⟨h, rfl⟩
  rintro k s1 hk ⟨h1, hfront1⟩
  rw [h1.deps k hk]
  refine (forEach_spec (fun rest s' => Releasing n needs idx queue (toCome needs idx k rest) s' ∧
    s'.queueFront = s.queueFront ∧ rest ⊆ needs k) _ ?_ (needs k) ⟨h1, hfront1,
    fun _ hdep => hdep⟩).imp
    (fun _ h => h) ?_
  · rintro dep rest s2 ⟨h2, hfront2, hrest⟩
    have hself : toCome needs idx k (dep :: rest) k =
        toCome needs idx k rest k + if dep.targetIdx = idx then 1 else 0 := by
      simp [toCome, targets, count_cons]
    have hother : ∀ i ≠ k, toCome needs idx k (dep :: rest) i = toCome needs idx k rest i := by
      intro i hi
      simp [toCome, hi]
    refine (h2.release hk (hrest mem_cons_self) hself hother).imp (fun _ h => h) ?_
    rintro s3 ⟨h3, hfront3⟩
    exact ⟨h3, hfront3.trans hfront2, fun _ hdep => hrest (mem_cons_of_mem _ hdep)⟩
  · rintro s2 ⟨h2, hfront2, -⟩
    exact ⟨⟨h2.toSorting.of_left fun i _ => toCome_nil needs idx k i, h2.taken, h2.grown,
      h2.span⟩, hfront2⟩

theorem Between.takeNext (h : Between n needs s) (hlt : s.queueFront < s.queue.length) :
    Ends (takeNext s) (fun _ => False) fun s' =>
      Between n needs s' ∧ s'.queueFront = s.queueFront + 1 ∧ s.queue <+: s'.queue := by
  have hidx : s.queue[s.queueFront]? = some (s.queue[s.queueFront]) := getElem?_eq_getElem hlt
  generalize s.queue[s.queueFront] = idx at hidx
  have hroom : s.mgr.topoOrder.length < svcMaxServices := by
    have := h.length_le
    have hcount : s.mgr.count ≤ svcMaxServices := s.mgr.count_le
    rw [h.count] at hcount
    rw [h.order, length_take]
    omega
  unfold SvcSort.takeNext
  rw [hidx]
  dsimp only
  rw [if_pos hroom, h.count]
  have htake := h.take hidx
  refine (Releasing.all ⟨htake.toSorting.of_left fun i _ => ?_, htake.taken, htake.grown,
    htake.span⟩).imp (fun _ h => h) ?_
  · unfold toCome
    rw [if_neg (Nat.not_lt_zero i)]
    split
    · rw [‹i = 0›]
    · rfl
  · rintro s' ⟨hrel, hfront⟩
    refine ⟨⟨hrel.toSorting.of_left fun i hi => if_pos hi, ?_⟩, hfront, hrel.grown⟩
    intro x hx i hi
    -- `idx` comes before `x` in the queue
    have hsorted := hrel.sorted
    rw [← take_append_drop s'.queueFront s'.queue, ← hrel.order] at hsorted
    have hle := (pairwise_append.mp hsorted).2.2 idx (mem_of_getLast? hrel.taken) x hx
    have := hrel.span i hi
    omega

theorem Between.takeLevels : ∀ (room level : ℕ) (s : SvcSort), Between n needs s →
    n ≤ s.queueFront + room → Ends (takeLevels room level s) (fun _ => False) fun r =>
      Between n needs r.1 ∧ r.1.queueFront = r.1.queue.length := by
  intro room
  induction room with
  | zero =>
    intro level s h hroom
    have := h.length_le
    have := h.front
    rw [SvcSort.takeLevels, if_neg (by omega)]
    exact .ok ⟨h, by dsimp only; omega⟩
  | succ room ih =>
    intro level s h hroom
    refine .ite (fun hlt => ?_) fun hge => .ok ⟨h, le_antisymm h.front (not_lt.mp hge)⟩
    refine Ends.andThen (forEach_range (fun k s' => Between n needs s' ∧
      s'.queueFront = s.queueFront + k ∧ s.queue <+: s'.queue) _ ?_ ⟨h, rfl, prefix_refl _⟩) ?_
    · rintro k s1 hk ⟨h1, hfront1, hgrown1⟩
      have := hgrown1.length_le
      refine (h1.takeNext (by omega)).imp (fun _ h => h) ?_
      rintro s2 ⟨h2, hfront2, hgrown2⟩
      exact ⟨h2, by omega, hgrown1.trans hgrown2⟩
    · rintro s1 ⟨h1, hfront1, -⟩
      exact ih (level + 1) s1 h1 (by omega)

/-- In round `k` of the first loop the services below `k` that depend on nothing are in the queue,
at level 0. -/
structure Filling (mgr : SvcManager) (k : ℕ) (s : SvcSort) : Prop where
  count : s.mgr.count = mgr.count
  deps : ∀ j, (s.mgr.graph j).deps = (mgr.graph j).deps
  order : s.mgr.topoOrder = []
  degree : ∀ j < mgr.count, s.inDegree j = ((mgr.graph j).deps.length : ℤ)
  queue : s.queue = (range k).filter fun j => (mgr.graph j).deps = []
  level : ∀ j ∈ s.queue, s.level j = 0
  front : s.queueFront = 0

theorem start_spec (mgr : SvcManager) : Ends (start mgr) (fun _ => False) fun s =>
      Between mgr.count (fun i => (mgr.graph i).deps) s ∧ s.queueFront = 0 := by
  refine (forEach_range (Filling mgr) _ ?_ ⟨rfl, fun _ => rfl, rfl, fun j hj => if_pos hj, rfl,
    fun j hj => absurd hj not_mem_nil, rfl⟩).imp (fun _ h => h) ?_
  · rintro k s hk ⟨hcount, hdeps, horder, hdegree, hqueue, hlevel, hfront⟩
    have hzero : s.inDegree k = 0 ↔ (mgr.graph k).deps = [] := by
      rw [hdegree k hk]
      simp
    have hlen : s.queue.length < svcMaxServices := by
      have hle : s.queue.length ≤ (range k).length := hqueue ▸ length_filter_le _ _
      have : mgr.count ≤ svcMaxServices := mgr.count_le
      rw [length_range] at hle
      omega
    refine .ite (fun hempty => ?_) fun hnonempty =>
      .ok ⟨hcount, hdeps, horder, hdegree, ?_, hlevel, hfront⟩
    · unfold enqueue
      rw [if_pos hlen]
      refine .ok ⟨hcount, fun j => ?_, horder, hdegree, ?_, fun j hj => ?_, hfront⟩
      · rw [← hdeps j]
        by_cases hj : j = k
        · rw [hj, SvcManager.setNode_self]
        · rw [SvcManager.setNode_of_ne hj]
      · dsimp only
        rw [range_succ, filter_append, hqueue]
        simp [hzero.mp hempty]
      · unfold level
        by_cases hjk : j = k
        · rw [hjk, SvcManager.setNode_self]
        · rw [SvcManager.setNode_of_ne hjk]
          exact hlevel j ((mem_append.mp hj).resolve_right fun h => hjk (mem_singleton.mp h))
    · rw [range_succ, filter_append, hqueue]
      simp [mt hzero.mpr hnonempty]
  · rintro s ⟨hcount, hdeps, horder, hdegree, hqueue, hlevel, hfront⟩
    have hmem : ∀ j, j ∈ s.queue ↔ j < mgr.count ∧ (mgr.graph j).deps = [] := by
      intro j
      rw [hqueue]
      simp
    have hnone : ∀ j ∈ s.queue, targets (mgr.graph j).deps = [] := fun j hj => by
      rw [targets, ((hmem j).mp hj).2, map_nil]
    refine ⟨⟨⟨hcount, fun j _ => hdeps j, hfront ▸ Nat.zero_le _, ?_, ?_,
      fun j hj => ((hmem j).mp hj).1,
      fun j hj => ?_, fun j hj => ?_, ?_, fun j hj d hd => ?_, fun j hj hne =>
      absurd (hlevel j hj) hne, ?_⟩, ?_⟩,
      hfront⟩
    · rw [horder, hfront, take_zero]
    · exact hqueue ▸ nodup_range.filter _
    · rw [hdegree j hj, horder]
      simp [targets]
    · rw [hmem, hdegree j hj]
      simp [hj]
    · intro l₁ i l₂ heq j hj
      have hi : i ∈ s.queue := heq ▸ mem_append_right _ mem_cons_self
      dsimp only at hj
      rw [hnone i hi] at hj
      exact absurd hj not_mem_nil
    · exact absurd (hnone j hj ▸ hd) not_mem_nil
    · refine pairwise_iff_getElem.mpr fun a b ha hb _ => ?_
      rw [hlevel _ (getElem_mem ha)]
      exact Nat.zero_le _
    · intro x _ i hi
      rw [hlevel i hi]
      exact Nat.zero_le _

end SvcSort

namespace SvcManager

open SvcSort (Between targets)

variable {r : ℕ → ℕ → Prop} {mgr : SvcManager}

/-- Without cycles every service gets into the queue: among those that do not, one would depend on
none of them. -/
theorem mem_queue_of_acyclic {needs : ℕ → List SvcDependency} {s : SvcSort} (h : Between n needs s)
    (hend : s.queueFront = s.queue.length) (hacyc : Acyclic r)
    (hedges : ∀ i < n, ∀ j, j ∈ targets (needs i) ↔ r i j) (hwithin : ∀ i j, r i j → j < n) :
    ∀ i < n, i ∈ s.queue := by
  by_contra hno
  push Not at hno
  obtain ⟨i, hi, hnot⟩ := hno
  obtain ⟨m, hm, hsink⟩ := hacyc.exists_sink ((Finset.range n).filter (· ∉ s.queue))
    ⟨i, Finset.mem_filter.mpr ⟨Finset.mem_range.mpr hi, hnot⟩⟩
  obtain ⟨hmn, hmq⟩ := Finset.mem_filter.mp hm
  rw [Finset.mem_range] at hmn
  have horder : s.mgr.topoOrder = s.queue := by rw [h.order, hend, take_length]
  refine hmq ((h.queued m hmn).mpr ?_)
  rw [h.degree m hmn, horder]
  have : (targets (needs m)).countP (· ∉ s.queue) = 0 := by
    refine countP_eq_zero.mpr fun d hd => ?_
    have hmd := (hedges m hmn d).mp hd
    by_contra hdq
    refine hsink d (Finset.mem_filter.mpr ⟨Finset.mem_range.mpr (hwithin m d hmd), ?_⟩) hmd
    simpa using hdq
  rw [this]
  rfl

theorem topologicalSort_spec (hcount : mgr.count = n)
    (hedges : ∀ i < n, ∀ j, j ∈ targets (mgr.graph i).deps ↔ r i j)
    (hwithin : ∀ i j, r i j → i < n ∧ j < n)
    (hacyc : Acyclic r) :
    Ends mgr.topologicalSort (fun _ => False) fun mgr' => mgr'.topoOrder.Perm (range n) ∧
      (∀ l₁ i l₂, mgr'.topoOrder = l₁ ++ i :: l₂ → ∀ j, r i j → j ∈ l₁) ∧
      ∀ i < n, IsHeight r i (mgr'.graph i).topoLevel := by
  have hroom : ∀ s : SvcSort, s.queueFront = 0 → n ≤ s.queueFront + svcMaxServices := by
    have : mgr.count ≤ svcMaxServices := mgr.count_le
    intro s _
    omega
  refine Ends.andThen (Ends.andThen (SvcSort.start_spec mgr) fun s h =>
    Between.takeLevels svcMaxServices 0 s (hcount ▸ h.1) (hroom s h.2)) ?_
  rintro ⟨s, level⟩ ⟨h, hend⟩
  dsimp only at h hend ⊢
  have hall := mem_queue_of_acyclic h hend hacyc hedges fun i j hij => (hwithin i j hij).2
  have horder : s.mgr.topoOrder = s.queue := by rw [h.order, hend, take_length]
  have hperm : s.queue.Perm (range n) := by
    refine (perm_ext_iff_of_nodup h.nodup nodup_range).mpr fun i => ?_
    rw [mem_range]
    exact ⟨h.lt i, hall i⟩
  rw [if_neg (by rw [horder, hperm.length_eq, length_range, hcount]; simp)]
  refine .ok ⟨horder ▸ hperm, fun l₁ i l₂ heq j hij => ?_, fun i hi => ?_⟩
  · exact h.inOrder l₁ i l₂ (horder ▸ heq) j ((hedges i (hwithin i j hij).1 j).mpr hij)
  · have hclosed : Closed r (· < n) := fun i j _ hij => (hwithin i j hij).2
    change IsHeight r i (s.level i)
    refine isHeight_level hclosed (fun i j hi hij => ?_) (fun i hi hne => ?_) hi
    · exact h.falls i (hall i hi) j ((hedges i hi j).mpr hij)
    · obtain ⟨d, hd, heq⟩ := h.step i (hall i hi) hne
      exact ⟨d, (hedges i hi d).mp hd, heq⟩

theorem DependsOn.lt {i j : ℕ} (h : mgr.DependsOn i j) : i < mgr.count ∧ j < mgr.count := by
  obtain ⟨hi, name, -, hfind⟩ := h
  exact ⟨hi, lt_of_findByName hfind⟩

theorem checked_spec (mgr : SvcManager) :
    Ends (andThen (forEach addDeps (range mgr.count) mgr.clearGraph) detectCycles)
      (fun _ => ¬ (mgr.AllNamed ∧ Acyclic mgr.DependsOn)) fun mgr' =>
        (mgr.AllNamed ∧ Acyclic mgr.DependsOn) ∧ mgr'.count = mgr.count ∧
          ∀ i < mgr.count, ∀ j, j ∈ targets (mgr'.graph i).deps ↔ mgr.DependsOn i j := by
  refine Ends.andThen ((names_spec mgr).imp (fun _ h hok => h hok.1) fun _ h => h) ?_
  rintro _ ⟨hnamed, rfl⟩
  have hedges : ∀ i < mgr.count, ∀ j, j ∈ ((mgr.named mgr.count).graph i).deps.map (·.targetIdx) ↔
      mgr.DependsOn i j := by
    intro i hi j
    rw [← mem_resolved_iff hi (allNamed_iff.mp hnamed i hi)]
    simp [named, hi]
  exact (detectCycles_spec rfl hedges fun i j hij => hij.lt.2).imp (fun _ h hok => h hok.2)
    fun _ h => ⟨⟨hnamed, h.1⟩, h.2⟩

/-- `svc_build_dependency_graph` always returns. It succeeds exactly when every dependency names a
service and there is no cycle; then `topo_order` has every service once and after its dependencies,
and levels are the lengths of the longest chains below. -/
theorem graph_built (mgr : SvcManager) :
    Lib.Ends mgr.buildDependencyGraph (fun _ => ¬ (mgr.AllNamed ∧ Lib.Acyclic mgr.DependsOn))
    fun mgr' =>
      (mgr.AllNamed ∧ Lib.Acyclic mgr.DependsOn) ∧ mgr'.topoOrder.Perm (List.range mgr.count) ∧
      (∀ l₁ i l₂, mgr'.topoOrder = l₁ ++ i :: l₂ → ∀ j, mgr.DependsOn i j → j ∈ l₁) ∧
      ∀ i < mgr.count, Lib.IsHeight mgr.DependsOn i (mgr'.graph i).topoLevel := by
  refine Ends.andThen (Ends.andThen (checked_spec mgr) ?_) fun mgr' h => .ok h
  rintro mgr₁ ⟨hok, hcount, hedges⟩
  exact (topologicalSort_spec hcount hedges (fun i j hij => hij.lt) hok.2).imp (fun _ h => h.elim)
    fun _ h => ⟨hok, h⟩

end SvcManager

end Xnix
