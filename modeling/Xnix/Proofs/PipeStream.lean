import Xnix.Pipe

/-!
# Pipes as byte streams

`pipe_read` and `pipe_write` decide once, under the lock, how many bytes to copy, and drop the lock
around every one of them (`pipe_underflow`). Where no two reads and no two writes of a pipe are in
their loops and no `copy_to_user` fails, a pipe is a stream (`Stream`): what was stored is what was
taken followed by the ring, and what was taken is what the reads returned followed by what the one
read in its loop has in hand.
-/

namespace Xnix

open Function List

variable {κ Tid : Type} {t : Tid} {s s' : PipeSys κ Tid} {o : κ} {j : PipeJob κ}

def PipePc.takesFrom (o : κ) : PipePc κ → Prop
  | .copyOut o' _ _ _ => o' = o
  | _ => False

def PipePc.storesTo (o : κ) : PipePc κ → Prop
  | .copyIn o' _ _ _ _ => o' = o
  | _ => False

instance [DecidableEq κ] (o : κ) : DecidablePred (PipePc.takesFrom o)
  | .copyOut o' _ _ _ => inferInstanceAs (Decidable (o' = o))
  | .user | .readHead _ _ | .readWait _ _ | .readAsleep _ _ | .writeHead _ _ _ | .copyIn _ _ _ _ _
  | .writeWait _ _ _ | .writeAsleep _ _ _ => .isFalse id

instance [DecidableEq κ] (o : κ) : DecidablePred (PipePc.storesTo o)
  | .copyIn o' _ _ _ _ => inferInstanceAs (Decidable (o' = o))
  | .user | .readHead _ _ | .readWait _ _ | .readAsleep _ _ | .writeHead _ _ _ | .copyOut _ _ _ _
  | .writeWait _ _ _ | .writeAsleep _ _ _ => .isFalse id

def PipeSys.succeeded (s : PipeSys κ Tid) (op : ℕ) : Bool :=
  s.log.any fun e => e.kind = .read ∧ e.op = op ∧ 0 < e.result

def PipeSys.returned (s : PipeSys κ Tid) (o : κ) : List UInt8 :=
  ((s.pipe o).taken.filter fun x => s.succeeded x.1).map Prod.snd

/-- A pipe is a reliable stream. `contents` ties the bytes in the buffers of the reads to those that
left the ring for them. -/
structure StreamSound (s : PipeSys κ Tid) (o : κ) : Prop where
  order : s.returned o <+: (s.pipe o).entered
  kept : ∀ x ∈ (s.pipe o).taken, s.succeeded x.1 = true ∨
    ∃ t, (s.job t).op = x.1 ∧ (s.job t).pc.takesFrom o
  noUnderflow : (s.pipe o).taken.length ≤ (s.pipe o).entered.length
  noOverflow : (s.pipe o).entered.length ≤ (s.pipe o).taken.length + (pipeBufSize - 1)
  contents : ∀ e ∈ s.log, e.kind = .read → e.pipe = o → 0 < e.result →
    ((s.pipe o).taken.filter fun x => x.1 = e.op).map Prod.snd = e.data ∧ e.result = e.data.length

/-- A read or write enters its loop only while no other thread is in that loop of the pipe, and
every `copy_to_user` succeeds. -/
structure StreamCalm (s : PipeSys κ Tid) (a : PipeAction κ Tid) : Prop where
  read : ∀ t o size, a = .lock t → (s.job t).pc = .readHead o size →
    ∀ u, ¬ (s.job u).pc.takesFrom o
  write : ∀ t o data total, a = .lock t → (s.job t).pc = .writeHead o data total →
    ∀ u, ¬ (s.job u).pc.storesTo o
  copy : ∀ t o, a = .copied t false → ¬ (s.job t).pc.takesFrom o

theorem succeeded_iff {op : ℕ} :
    s.succeeded op = true ↔ ∃ e ∈ s.log, e.kind = .read ∧ e.op = op ∧ 0 < e.result := by
  simp [PipeSys.succeeded]

def PipePc.owed : PipePc κ → ℕ
  | .copyOut _ n i _ => n - 1 - i
  | .copyIn _ _ _ n i => n - i
  | _ => 0

/-- The numbers of operations: those in progress are used once, and none of them has returned. -/
structure PipeIds (s : PipeSys κ Tid) : Prop where
  fresh : ∀ t, (s.job t).pc ≠ .user → (s.job t).op < s.nextOp
  distinct : ∀ t u, (s.job t).pc ≠ .user → (s.job u).pc ≠ .user →
    (s.job t).op = (s.job u).op → t = u
  logged : ∀ e ∈ s.log, e.op < s.nextOp ∧ ∀ t, (s.job t).pc ≠ .user → (s.job t).op ≠ e.op

/-- The bytes taken are the first that entered, and the ring holds the rest. -/
structure IpcPipe.Streams (p : IpcPipe) : Prop where
  carries : p.ring.Carries pipeBufSize p.entered p.taken.length
  bytes : p.taken.map Prod.snd = p.entered.take p.taken.length

/-- At most one thread is in a loop of a pipe, and there is room for what it still copies. -/
structure InLoop (job : Tid → PipeJob κ) (P : PipePc κ → Prop) (room : ℕ) : Prop where
  owed : ∀ t, P (job t).pc → (job t).pc.owed ≤ room
  one : ∀ t u, P (job t).pc → P (job u).pc → t = u

/-- Of the bytes taken those of `A` were returned, and the rest is in the hands of the one read in
its loop. -/
structure Stream (s : PipeSys κ Tid) (o : κ) : Prop where
  pipe : (s.pipe o).Streams
  readers : InLoop s.job (PipePc.takesFrom o) ((s.pipe o).entered.length - (s.pipe o).taken.length)
  writers : InLoop s.job (PipePc.storesTo o)
    ((s.pipe o).taken.length + (pipeBufSize - 1) - (s.pipe o).entered.length)
  held : ∃ A : List (ℕ × UInt8), (∀ x ∈ A, s.succeeded x.1 = true) ∧
    (∀ t n i b, (s.job t).pc = .copyOut o n i b →
      (s.pipe o).taken = A ++ ((s.job t).ubuf ++ [b]).map (Prod.mk (s.job t).op)) ∧
    ((∀ t, ¬ (s.job t).pc.takesFrom o) → (s.pipe o).taken = A)
  contents : ∀ e ∈ s.log, e.kind = .read → e.pipe = o → 0 < e.result →
    ((s.pipe o).taken.filter fun x => x.1 = e.op).map Prod.snd = e.data ∧ e.result = e.data.length

theorem takesFrom_iff {pc : PipePc κ} : pc.takesFrom o ↔ ∃ n i b, pc = .copyOut o n i b := by
  cases pc <;> simp [PipePc.takesFrom]

theorem active_of_takesFrom {pc : PipePc κ} (h : pc.takesFrom o) : pc ≠ .user := by
  rintro rfl
  exact h

theorem PipeIds.not_succeeded (h : PipeIds s) (ht : (s.job t).pc ≠ .user) :
    s.succeeded (s.job t).op = false := by
  rw [Bool.eq_false_iff]
  intro hs
  obtain ⟨e, he, -, hop, -⟩ := succeeded_iff.mp hs
  exact (h.logged e he).2 t ht hop.symm

theorem Stream.sound (h : Stream s o) (hids : PipeIds s) : StreamSound s o := by
  obtain ⟨A, hA, htaker, hnone⟩ := h.held
  -- what was taken is `A` followed by bytes of a read that is still in its loop
  obtain ⟨B, hsplit, hB⟩ : ∃ B, (s.pipe o).taken = A ++ B ∧
      ∀ x ∈ B, ∃ t, (s.job t).op = x.1 ∧ (s.job t).pc.takesFrom o := by
    by_cases hex : ∃ t, (s.job t).pc.takesFrom o
    · obtain ⟨t, ht⟩ := hex
      obtain ⟨n, i, b, hpc⟩ := takesFrom_iff.mp ht
      refine ⟨_, htaker t n i b hpc, fun x hx => ⟨t, ?_, ht⟩⟩
      obtain ⟨c, -, rfl⟩ := mem_map.mp hx
      rfl
    · exact ⟨[], by rw [hnone (not_exists.mp hex), append_nil], nofun⟩
  have hret : s.returned o = A.map Prod.snd := by
    have hfA : A.filter (fun x => s.succeeded x.1) = A := filter_eq_self.mpr hA
    have hfB : B.filter (fun x => s.succeeded x.1) = [] := by
      refine filter_eq_nil_iff.mpr fun x hx => ?_
      obtain ⟨t, hop, ht⟩ := hB x hx
      rw [← hop, hids.not_succeeded (active_of_takesFrom ht)]
      exact Bool.false_ne_true
    rw [PipeSys.returned, hsplit, filter_append, hfA, hfB, append_nil]
  refine ⟨?_, fun x hx => ?_, h.pipe.carries.lower, h.pipe.carries.upper, h.contents⟩
  · have hpre : A.map Prod.snd <+: (s.pipe o).taken.map Prod.snd := by
      rw [hsplit, map_append]
      exact prefix_append _ _
    rw [hret]
    refine hpre.trans ?_
    rw [h.pipe.bytes]
    exact take_prefix _ _
  · rw [hsplit, mem_append] at hx
    exact hx.imp (hA x) (hB x)

theorem Stream.congr (h : Stream s o) (hbytes : (s'.pipe o).ring = (s.pipe o).ring ∧
      (s'.pipe o).entered = (s.pipe o).entered ∧ (s'.pipe o).taken = (s.pipe o).taken)
    (hjob : s'.job = s.job) (hlog : s'.log = s.log) : Stream s' o := by
  obtain ⟨pipe, job, sched, links, nextOp, log⟩ := s'
  obtain ⟨hring, hentered, htaken⟩ := hbytes
  subst hjob hlog
  refine ⟨⟨?_, ?_⟩, ?_, ?_, ?_, ?_⟩
  · rw [hring, hentered, htaken]
    exact h.pipe.carries
  all_goals rw [htaken]
  · rw [hentered]
    exact h.pipe.bytes
  · rw [hentered]
    exact h.readers
  · rw [hentered]
    exact h.writers
  · exact h.held
  · exact h.contents

section Bytes
variable {p : IpcPipe}

theorem ringUsed_eq (h : p.Streams) : ringUsed p = p.entered.length - p.taken.length := by
  have hd := h.carries.distance (by decide)
  have hhead : p.ring.head < pipeBufSize := by
    rw [h.carries.head]
    exact Nat.mod_lt _ (by decide)
  have htail : p.ring.tail < pipeBufSize := by
    rw [h.carries.tail]
    exact Nat.mod_lt _ (by decide)
  rw [← hd, ringUsed]
  simp only [pipeBufSize] at hhead htail ⊢
  omega

theorem IpcPipe.Streams.take (h : p.Streams) (hlt : p.taken.length < p.entered.length) (op : ℕ) :
    (p.take op).Streams := by
  constructor
  · simp only [IpcPipe.take, length_append, length_singleton]
    exact h.carries.advance hlt
  · simp only [IpcPipe.take, length_append, length_singleton, take_add_one, getElem?_eq_getElem hlt,
      map_append, map_cons, map_nil, Option.toList_some, h.bytes, h.carries.front hlt]

theorem IpcPipe.Streams.store (h : p.Streams)
    (hlt : p.entered.length < p.taken.length + (pipeBufSize - 1)) (b : UInt8) :
    (p.store b).Streams := by
  refine ⟨h.carries.push hlt b, ?_⟩
  simp only [IpcPipe.store]
  rw [take_append_of_le_length h.carries.lower]
  exact h.bytes

end Bytes

section Frame
variable [DecidableEq Tid]

theorem InLoop.update {job : Tid → PipeJob κ} {P : PipePc κ → Prop} {room room' : ℕ}
    (h : InLoop job P room) (hnew : P j.pc → j.pc.owed ≤ room' ∧ ∀ u, u ≠ t → ¬ P (job u).pc)
    (hother : ∀ u, u ≠ t → P (job u).pc → room ≤ room') : InLoop (update job t j) P room' := by
  refine ⟨fun u hu => ?_, fun u v hu hv => ?_⟩
  · by_cases hut : u = t
    · subst hut
      rw [update_self] at hu ⊢
      exact (hnew hu).1
    · rw [update_of_ne hut] at hu ⊢
      exact (h.owed u hu).trans (hother u hut hu)
  · by_contra huv
    by_cases hut : u = t
    · subst hut
      rw [update_self] at hu
      rw [update_of_ne (Ne.symm huv)] at hv
      exact (hnew hu).2 v (Ne.symm huv) hv
    · rw [update_of_ne hut] at hu
      by_cases hvt : v = t
      · subst hvt
        rw [update_self] at hv
        exact (hnew hv).2 u hut hu
      · rw [update_of_ne hvt] at hv
        exact huv (h.one u v hu hv)

/-- The thread `t` takes no bytes before and after, and what was taken stays. -/
theorem Stream.change (h : Stream s o) (hpipe : (s'.pipe o).Streams)
    (htaken : (s'.pipe o).taken = (s.pipe o).taken)
    (hentered : (s.pipe o).entered.length ≤ (s'.pipe o).entered.length)
    (hjob : s'.job = update s.job t j)
    (hold : ¬ (s.job t).pc.takesFrom o) (hnew : ¬ j.pc.takesFrom o)
    (hroom : j.pc.storesTo o → (s'.pipe o).entered.length + j.pc.owed ≤
      (s.pipe o).taken.length + (pipeBufSize - 1) ∧ ∀ u, u ≠ t → ¬ (s.job u).pc.storesTo o)
    (hothers : ∀ u, u ≠ t → (s.job u).pc.storesTo o →
      (s'.pipe o).entered.length = (s.pipe o).entered.length)
    (hmono : ∀ e ∈ s.log, e ∈ s'.log)
    (hlog : ∀ e ∈ s'.log, e ∈ s.log ∨ ¬ (e.kind = .read ∧ e.pipe = o ∧ 0 < e.result)) :
    Stream s' o := by
  obtain ⟨hself, hother⟩ := update_apart hjob
  obtain ⟨A, hA, htaker, hnone⟩ := h.held
  refine ⟨hpipe, ?_, ?_, ⟨A, fun x hx => ?_, fun u n i b hu => ?_, fun hu => ?_⟩,
    fun e he hk ho hr => ?_⟩
  · rw [hjob, htaken]
    exact h.readers.update (fun htk => absurd htk hnew) fun _ _ _ => by omega
  · rw [hjob, htaken]
    refine h.writers.update (fun hst => ⟨?_, (hroom hst).2⟩) fun u hu hst => ?_
    · have := (hroom hst).1
      omega
    · rw [hothers u hu hst]
  · obtain ⟨e, he, hrest⟩ := succeeded_iff.mp (hA x hx)
    exact succeeded_iff.mpr ⟨e, hmono e he, hrest⟩
  · have heq : s'.job u = s.job u := by
      refine hother u ?_
      rintro rfl
      rw [hself] at hu
      exact hnew (takesFrom_iff.mpr ⟨n, i, b, hu⟩)
    rw [heq] at hu ⊢
    rw [htaken]
    exact htaker u n i b hu
  · rw [htaken]
    refine hnone fun u hut => ?_
    by_cases hne : u = t
    · exact hold (hne ▸ hut)
    · exact hu u (by rwa [hother u hne])
  · rw [htaken]
    rcases hlog e he with hin | hout
    · exact h.contents e hin hk ho hr
    · exact absurd ⟨hk, ho, hr⟩ hout

/-- The thread `t` goes to a place where it takes no bytes, and the pipe stays. -/
theorem Stream.frame (h : Stream s o) (hsame : s'.pipe o = s.pipe o)
    (hjob : s'.job = update s.job t j)
    (hold : ¬ (s.job t).pc.takesFrom o) (hnew : ¬ j.pc.takesFrom o)
    (hroom : j.pc.storesTo o → (s.pipe o).entered.length + j.pc.owed ≤
      (s.pipe o).taken.length + (pipeBufSize - 1) ∧ ∀ u, u ≠ t → ¬ (s.job u).pc.storesTo o)
    (hmono : ∀ e ∈ s.log, e ∈ s'.log)
    (hlog : ∀ e ∈ s'.log, e ∈ s.log ∨ ¬ (e.kind = .read ∧ e.pipe = o ∧ 0 < e.result)) :
    Stream s' o := by
  refine h.change (hsame ▸ h.pipe) ?_ ?_ hjob hold hnew ?_ ?_ hmono hlog <;> rw [hsame]
  · exact hroom
  · exact fun _ _ _ => rfl

theorem Stream.take (h : Stream s o) (hids : PipeIds s) {u : List UInt8} {n i : ℕ}
    (hpipe : s'.pipe o = (s.pipe o).take (s.job t).op)
    (hjob : s'.job = update s.job t
      ⟨.copyOut o n i (s.pipe o).ring.front, (s.job t).op, u⟩)
    (hlog : s'.log = s.log) (hactive : (s.job t).pc ≠ .user)
    (hothers : ∀ v, v ≠ t → ¬ (s.job v).pc.takesFrom o)
    (hback : n - 1 - i + ((s.pipe o).taken.length + 1) ≤ (s.pipe o).entered.length)
    (hheld : ∃ A : List (ℕ × UInt8), (∀ x ∈ A, s.succeeded x.1 = true) ∧
      (s.pipe o).taken = A ++ u.map (Prod.mk (s.job t).op)) : Stream s' o := by
  obtain ⟨hself, hother⟩ := update_apart hjob
  have hlen : (s'.pipe o).taken.length = (s.pipe o).taken.length + 1 := by
    simp [hpipe, IpcPipe.take]
  have hentered : (s'.pipe o).entered = (s.pipe o).entered := by rw [hpipe]; rfl
  constructor
  · rw [hpipe]
    exact h.pipe.take (by omega) _
  · rw [hjob, hlen, hentered]
    refine h.readers.update (fun _ => ⟨?_, hothers⟩) fun v hv htk => absurd htk (hothers v hv)
    exact Nat.le_sub_of_add_le hback
  · rw [hjob, hlen, hentered]
    exact h.writers.update (fun hst => hst.elim) fun _ _ _ => by omega
  · obtain ⟨A, hA, hsplit⟩ := hheld
    refine ⟨A, fun x hx => ?_, fun v m k b hv => ?_, fun hv => ?_⟩
    · simpa [PipeSys.succeeded, hlog] using hA x hx
    · obtain rfl : v = t := by
        by_contra hne
        rw [hother v hne] at hv
        exact hothers v hne (takesFrom_iff.mpr ⟨m, k, b, hv⟩)
      rw [hself] at hv ⊢
      obtain ⟨-, rfl, rfl, rfl⟩ := hv
      simp [hpipe, IpcPipe.take, hsplit]
    · exact absurd (by rw [hself]; exact rfl) (hv t)
  · intro e he hk ho hr
    rw [hlog] at he
    have hne : (s.job t).op ≠ e.op := (hids.logged e he).2 t hactive
    simpa [hpipe, IpcPipe.take, filter_append, hne] using h.contents e he hk ho hr

theorem Stream.finish (h : Stream s o) (hids : PipeIds s) {n i : ℕ} {byte : UInt8}
    (hpc : (s.job t).pc = .copyOut o n i byte) (hn : i + 1 = n) (hi : (s.job t).ubuf.length = i)
    (hpipe : s'.pipe o = s.pipe o) (hjob : s'.job = update s.job t j) (hj : j.pc = .user)
    (hlog : s'.log = ⟨.read, o, (s.job t).op, n, (s.job t).ubuf ++ [byte]⟩ :: s.log) :
    Stream s' o := by
  have ht : (s.job t).pc.takesFrom o := takesFrom_iff.mpr ⟨n, i, byte, hpc⟩
  obtain ⟨hself, hother⟩ := update_apart hjob
  obtain ⟨A, hA, htaker, -⟩ := h.held
  have hsplit := htaker t n i byte hpc
  have hsucc : ∀ op, s'.succeeded op = true ↔ op = (s.job t).op ∨ s.succeeded op = true := by
    intro op
    simp only [PipeSys.succeeded, hlog, any_cons, Bool.or_eq_true, decide_eq_true_eq, true_and]
    refine or_congr ⟨fun hop => hop.1.symm, fun hop => ⟨hop.symm, ?_⟩⟩ Iff.rfl
    omega
  constructor <;> rw [hpipe]
  · exact h.pipe
  · rw [hjob]
    exact h.readers.update (by rw [hj]; exact fun htk => htk.elim) fun _ _ _ => le_rfl
  · rw [hjob]
    exact h.writers.update (by rw [hj]; exact fun hst => hst.elim) fun _ _ _ => le_rfl
  · refine ⟨(s.pipe o).taken, fun x hx => ?_, fun v m k b hv => ?_, fun _ => rfl⟩
    · rw [hsplit, mem_append] at hx
      rcases hx with hx | hx
      · exact (hsucc x.1).mpr (.inr (hA x hx))
      · obtain ⟨c, -, rfl⟩ := mem_map.mp hx
        exact (hsucc _).mpr (.inl rfl)
    · by_cases hne : v = t
      · rw [hne, hself, hj] at hv
        cases hv
      · rw [hother v hne] at hv
        exact absurd (h.readers.one v t (takesFrom_iff.mpr ⟨m, k, b, hv⟩) ht) hne
  · intro e he hk ho hr
    rw [hlog, mem_cons] at he
    rcases he with rfl | he
    · have hfA : A.filter (fun x => x.1 = (s.job t).op) = [] := by
        refine filter_eq_nil_iff.mpr fun x hx => ?_
        intro heq
        have hs := hA x hx
        rw [of_decide_eq_true heq, hids.not_succeeded (active_of_takesFrom ht)] at hs
        cases hs
      refine ⟨?_, by simp [hi, hn]⟩
      simp only [hsplit, filter_append, hfA, nil_append]
      rw [filter_eq_self.mpr fun x hx => ?_]
      · simp
      · obtain ⟨c, -, rfl⟩ := mem_map.mp hx
        simp
    · exact h.contents e he hk ho hr

theorem Stream.store (h : Stream s o) {b : UInt8} (hst : (s.job t).pc.storesTo o)
    (howed : (s.job t).pc.owed = j.pc.owed + 1) (hjt : ¬ j.pc.takesFrom o)
    (htt : ¬ (s.job t).pc.takesFrom o) (hpipe : s'.pipe o = (s.pipe o).store b)
    (hjob : s'.job = update s.job t j) (hlog : s'.log = s.log) : Stream s' o := by
  have hroom := h.writers.owed t hst
  have hlen : (s'.pipe o).entered.length = (s.pipe o).entered.length + 1 := by
    simp [hpipe, IpcPipe.store]
  have hothers : ∀ u, u ≠ t → ¬ (s.job u).pc.storesTo o :=
    fun u hu hst' => hu (h.writers.one u t hst' hst)
  refine h.change ?_ (by rw [hpipe]; rfl) (by omega) hjob htt hjt (fun _ => ⟨by omega, hothers⟩)
    (fun u hu hst' => absurd hst' (hothers u hu)) (by rw [hlog]; exact fun _ => id)
    (by rw [hlog]; exact fun _ => .inl)
  rw [hpipe]
  exact h.pipe.store (by omega) b

end Frame

section Ids
variable [DecidableEq Tid]

theorem PipeIds.change (h : PipeIds s) (hjob : s'.job = update s.job t j)
    (hnext : s.nextOp ≤ s'.nextOp)
    (hnew : j.pc ≠ .user → j.op < s'.nextOp ∧
      (∀ u, u ≠ t → (s.job u).pc ≠ .user → (s.job u).op ≠ j.op) ∧ ∀ e ∈ s'.log, j.op ≠ e.op)
    (hlog : ∀ e ∈ s'.log, e ∈ s.log ∨
      (e.op < s'.nextOp ∧ ∀ u, u ≠ t → (s.job u).pc ≠ .user → (s.job u).op ≠ e.op)) :
      PipeIds s' := by
  obtain ⟨hself, hother⟩ := update_apart hjob
  have hact : ∀ u, (s'.job u).pc ≠ .user → u ≠ t → (s.job u).pc ≠ .user := fun u hu hut => by
    rwa [hother u hut] at hu
  refine ⟨fun u hu => ?_, fun u v hu hv huv => ?_, fun e he => ⟨?_, fun u hu => ?_⟩⟩
  · by_cases hut : u = t
    · subst hut
      rw [hself] at hu ⊢
      exact (hnew hu).1
    · rw [hother u hut]
      exact (h.fresh u (hact u hu hut)).trans_le hnext
  · by_contra hne
    by_cases hut : u = t
    · subst hut
      rw [hself] at hu huv
      rw [hother v (Ne.symm hne)] at huv
      exact (hnew hu).2.1 v (Ne.symm hne) (hact v hv (Ne.symm hne)) huv.symm
    · rw [hother u hut] at huv
      by_cases hvt : v = t
      · subst hvt
        rw [hself] at hv huv
        exact (hnew hv).2.1 u hut (hact u hu hut) huv
      · rw [hother v hvt] at huv
        exact hne (h.distinct u v (hact u hu hut) (hact v hv hvt) huv)
  · exact (hlog e he).elim (fun hin => (h.logged e hin).1.trans_le hnext) And.left
  · by_cases hut : u = t
    · subst hut
      rw [hself] at hu ⊢
      exact (hnew hu).2.2 e he
    · rw [hother u hut]
      exact (hlog e he).elim (fun hin => (h.logged e hin).2 u (hact u hu hut))
        fun hout => hout.2 u hut (hact u hu hut)

section
variable (h : PipeIds s) (hactive : (s.job t).pc ≠ .user)
  (hjob : s'.job = update s.job t j)
include h hactive hjob

theorem PipeIds.move (hop : j.op = (s.job t).op) (hlog : s'.log = s.log)
    (hnext : s'.nextOp = s.nextOp) : PipeIds s' := by
  refine h.change hjob hnext.ge (fun _ => ?_) fun e he => .inl (hlog ▸ he)
  rw [hop, hnext, hlog]
  exact ⟨h.fresh t hactive, fun u hu ha heq => hu (h.distinct u t ha hactive heq),
    fun e he => (h.logged e he).2 t hactive⟩

theorem PipeIds.ret {e : PipeReturn κ} (hj : j.pc = .user) (he : e.op = (s.job t).op)
    (hlog : s'.log = e :: s.log) (hnext : s'.nextOp = s.nextOp) : PipeIds s' := by
  refine h.change hjob hnext.ge (fun ha => absurd hj ha) fun e' he' => ?_
  rw [hlog, mem_cons] at he'
  refine he'.symm.imp_right ?_
  rintro rfl
  rw [he, hnext]
  exact ⟨h.fresh t hactive, fun u hu ha heq => hu (h.distinct u t ha hactive heq)⟩

end

theorem PipeIds.start (h : PipeIds s) (t : Tid) (pc : PipePc κ) : PipeIds (s.start t pc) :=
  h.change rfl (Nat.le_succ _) (fun _ => ⟨Nat.lt_succ_self _, fun u _ ha => (h.fresh u ha).ne,
    fun e he => (h.logged e he).1.ne'⟩) fun _ => .inl

end Ids

end Xnix
