import Xnix.Proofs.PipeJobs

/-!
# Wakeups of pipe threads

Closing the last end of one side wakes the threads that the wait queue of the other side spells out.
A thread that calls `sched_block_timeout` with a wakeup pending joins the queue twice: its
`wait_next` then points to itself, and the threads behind it are cut off (`reader_left_behind`).
Where none does, the queues hold exactly the threads that sleep or are about to (`PipeQueues`).
-/

namespace Xnix

open Function PipeSys PipePc

variable {κ Tid : Type} {q : Queue κ} {data : List UInt8} {s s' : PipeSys κ Tid}
  {Q : Queue κ → List Tid} {t : Tid}

def PipePc.waitsIn (q : Queue κ) : PipePc κ → Prop
  | .readWait o _ => q = (.read, o)
  | .writeWait o _ _ => q = (.write, o)
  | _ => False

def PipePc.sleepsIn (q : Queue κ) : PipePc κ → Prop
  | .readAsleep o _ => q = (.read, o)
  | .writeAsleep o _ _ => q = (.write, o)
  | _ => False

/-- No thread sleeps, without a wakeup pending, for a side that is closed. -/
structure PipeReleased (s : PipeSys κ Tid) : Prop where
  read : ∀ t o, (s.job t).pc.sleepsIn (.read, o) → (s.sched t).run = .blocked →
    (s.sched t).pendingWakeup = false → (s.pipe o).writerCount ≠ 0
  write : ∀ t o, (s.job t).pc.sleepsIn (.write, o) → (s.sched t).run = .blocked →
    (s.sched t).pendingWakeup = false → (s.pipe o).readerCount ≠ 0

/-- Pipe threads that are blocked are woken by pipe operations only. -/
def OwnWakeups (s : PipeSys κ Tid) (a : PipeAction κ Tid) : Prop :=
  ∀ u, a = .poke u → (s.sched u).run ≠ .blocked

/-- No thread calls `sched_block_timeout` with a wakeup pending while it is still in a wait
queue. -/
structure PipeCalm (s : PipeSys κ Tid) (a : PipeAction κ Tid) : Prop where
  own : OwnWakeups s a
  stale : ∀ t, a = .block t → (s.sched t).pendingWakeup = true →
    ∀ q, ¬ Lib.Meets s.links.next t (s.links.head q)

section Step
variable [DecidableEq κ] [DecidableEq Tid] [Fintype Tid]

/-- The next operation to return is not a read with 0 bytes, unless its ring is empty and no write
end is open. -/
def ZeroAtEnd (s : PipeSys κ Tid) : Prop :=
  ∀ a s' e, s.step a = some s' → s'.log = e :: s.log → e.kind = .read → e.result = 0 →
    ringUsed (s.pipe e.pipe) = 0 ∧ (s.pipe e.pipe).writerCount = 0

end Step

section Queues

def endOpen (s : PipeSys κ Tid) : Queue κ → Prop
  | (.read, o) => (s.pipe o).writerCount ≠ 0
  | (.write, o) => (s.pipe o).readerCount ≠ 0
  | _ => True

/-- Who waits or sleeps in a queue is linked there unless woken. -/
structure PipeQueues (s : PipeSys κ Tid) (Q : Queue κ → List Tid) : Prop where
  linked : Lib.Linked s.links Q
  place : ∀ q t, t ∈ Q q → (s.job t).pc.waitsIn q ∨
    ((s.job t).pc.sleepsIn q ∧ (s.sched t).run = .blocked)
  waiting : ∀ q t, (s.job t).pc.waitsIn q → t ∈ Q q ∨ (s.sched t).pendingWakeup = true
  sleeping : ∀ q t, (s.job t).pc.sleepsIn q → (s.sched t).run = .blocked → t ∈ Q q
  ends : ∀ q, Q q ≠ [] → endOpen s q

def Awaited (s : PipeSys κ Tid) : Prop := ∃ Q, PipeQueues s Q

def PipePc.away (pc : PipePc κ) : Prop := ∀ q, ¬ pc.waitsIn q ∧ ¬ pc.sleepsIn q

theorem PipeQueues.released (h : PipeQueues s Q) : PipeReleased s where
  read t o hpc hrun _ := h.ends (.read, o) (List.ne_nil_of_mem (h.sleeping _ t hpc hrun))
  write t o hpc hrun _ := h.ends (.write, o) (List.ne_nil_of_mem (h.sleeping _ t hpc hrun))

theorem PipeQueues.not_mem (h : PipeQueues s Q) (ht : (s.job t).pc.away) (q : Queue κ) :
    t ∉ Q q := by
  intro hmem
  rcases h.place q t hmem with hw | ⟨hsl, -⟩
  · exact (ht q).1 hw
  · exact (ht q).2 hsl

theorem PipeQueues.change {Q' : Queue κ → List Tid} (h : PipeQueues s Q) (t : Tid)
    (hlinked : Lib.Linked s'.links Q') (hmem : ∀ q u, u ≠ t → (u ∈ Q' q ↔ u ∈ Q q))
    (hother : ∀ u, u ≠ t → s'.job u = s.job u ∧ s'.sched u = s.sched u)
    (hplace : ∀ q, t ∈ Q' q → (s'.job t).pc.waitsIn q ∨
    ((s'.job t).pc.sleepsIn q ∧ (s'.sched t).run = .blocked))
    (hwaiting : ∀ q, (s'.job t).pc.waitsIn q → t ∈ Q' q ∨ (s'.sched t).pendingWakeup = true)
    (hsleeping : ∀ q, (s'.job t).pc.sleepsIn q → (s'.sched t).run = .blocked → t ∈ Q' q)
    (hends : ∀ q, Q' q ≠ [] → endOpen s' q) : Awaited s' := by
  refine ⟨Q', hlinked, fun q u => ?_, fun q u => ?_, fun q u => ?_, hends⟩ <;> by_cases hut : u = t
  · exact hut ▸ hplace q
  · rw [hmem q u hut, (hother u hut).1, (hother u hut).2]
    exact h.place q u
  · exact hut ▸ hwaiting q
  · rw [hmem q u hut, (hother u hut).1, (hother u hut).2]
    exact h.waiting q u
  · exact hut ▸ hsleeping q
  · rw [hmem q u hut, (hother u hut).1, (hother u hut).2]
    exact h.sleeping q u

variable [DecidableEq Tid]

theorem PipeQueues.move (h : PipeQueues s Q) {j : PipeJob κ} (hout : ∀ q, t ∉ Q q)
    (hnew : j.pc.away) (hjob : s'.job = update s.job t j) (hlinks : s'.links = s.links)
    (hsched : ∀ u, u ≠ t → s'.sched u = s.sched u) (hends : ∀ q, endOpen s q → endOpen s' q) :
    Awaited s' := by
  have hself : s'.job t = j := by rw [hjob, update_self]
  refine h.change t (hlinks ▸ h.linked) (fun _ _ _ => .rfl)
    (fun u hu => ⟨by rw [hjob, update_of_ne hu], hsched u hu⟩)
    (fun q ht => absurd ht (hout q)) ?_ ?_
    fun q hq => hends q (h.ends q hq) <;> rw [hself]
  · exact fun q hw => absurd hw (hnew q).1
  · exact fun q hsl => absurd hsl (hnew q).2

theorem PipeQueues.block (h : PipeQueues s Q) {goOn asleep : PipePc κ}
    (hwait : (s.job t).pc.waitsIn q) (hgo : goOn.away) (hnowait : ∀ q', ¬ asleep.waitsIn q')
    (hsleep : ∀ q', asleep.sleepsIn q' ↔ q' = q)
    (hcalm : (s.sched t).pendingWakeup = true → ∀ q, ¬ Lib.Meets s.links.next t (s.links.head q)) :
    Awaited (s.block t goOn asleep) := by
  have hpc : ((s.block t goOn asleep).job t).pc =
      if (s.sched t).pendingWakeup then goOn else asleep := by
    simp [PipeSys.block, PipeSys.setPc]
  have hsched : (s.block t goOn asleep).sched t = (s.sched t).block := update_self ..
  refine h.change t h.linked (fun _ _ _ => .rfl)
    (fun u hu => ⟨update_of_ne hu .., update_of_ne hu ..⟩) ?_ ?_ ?_ h.ends <;> rw [hpc, hsched]
  all_goals cases hp : (s.sched t).pendingWakeup
  case true => exact fun q' ht => absurd ((h.linked.chain q').meets_iff.mpr ht) (hcalm hp q')
  case true => exact fun q' hw => absurd hw (hgo q').1
  case true => exact fun q' hsl => absurd hsl (hgo q').2
  all_goals
    have hin : t ∈ Q q := (h.waiting q t hwait).resolve_right (by simp [hp])
    rw [block_of_not_pending _ hp]
  · exact fun q' ht => .inr ⟨(hsleep q').mpr (h.linked.apart q' q t ht hin), rfl⟩
  · exact fun q' hw => absurd hw (hnowait q')
  · exact fun q' hsl _ => (hsleep q').mp hsl ▸ hin

theorem PipeQueues.poke (h : PipeQueues s Q) {u : Tid} (hrun : (s.sched u).run ≠ .blocked) :
    Awaited { s with sched := update s.sched u (s.sched u).wakeup } := by
  refine h.change u h.linked (fun _ _ _ => .rfl) (fun v hv => ⟨rfl, update_of_ne hv ..⟩)
    (fun q ht => .inl ((h.place q u ht).resolve_right fun hsl => hrun hsl.2)) ?_ ?_ h.ends <;> simp

variable [DecidableEq κ]

theorem PipeQueues.enqueue (h : PipeQueues s Q) {pc : PipePc κ}
    (hold : (s.job t).pc.away) (hwait : ∀ q', pc.waitsIn q' ↔ q' = q)
    (hsleep : ∀ q', ¬ pc.sleepsIn q') (hopen : endOpen s q) :
    Awaited ((s.enqueue q t).setPc t pc) := by
  have hself : (((s.enqueue q t).setPc t pc).job t).pc = pc := by simp [setPc]
  refine h.change t (h.linked.push (h.not_mem hold)) (fun q' u hu => ?_)
    (fun u hu => ⟨update_of_ne hu .., rfl⟩) (fun q' ht => .inl ?_) ?_ ?_ fun q' hq' => ?_
  · by_cases hq : q' = q
    · subst hq
      simp [hu]
    · rw [update_of_ne hq]
  · rw [hself, hwait]
    by_contra hq
    rw [update_of_ne hq] at ht
    exact h.not_mem hold q' ht
  · rw [hself]
    exact fun q' hw => .inl (by simp [(hwait q').mp hw])
  · rw [hself]
    exact fun q' hsl => absurd hsl (hsleep q')
  · by_cases hq : q' = q
    · exact hq ▸ hopen
    · rw [update_of_ne hq] at hq'
      exact h.ends q' hq'

variable [Fintype Tid]

theorem PipeQueues.wakeupAll (h : PipeQueues s Q) (q : Queue κ) {f : κ → IpcPipe}
    (hends : ∀ q', q' ≠ q → endOpen s q' → endOpen { s with pipe := f } q') :
    Awaited (wakeupAll { s with pipe := f } q) := by
  obtain ⟨hall, hlinked⟩ := h.linked.takeAll q
  have hmem : ∀ q' t, t ∈ update Q q [] q' ↔ q' ≠ q ∧ t ∈ Q q' := by
    intro q' t
    by_cases hq : q' = q
    · simp [hq]
    · simp [hq]
  have hsched : ∀ t, (PipeSys.wakeupAll { s with pipe := f } q).sched t =
      if t ∈ Q q then (s.sched t).wakeup else s.sched t := by
    intro t
    simp only [PipeSys.wakeupAll, hall]
  refine ⟨_, hlinked, fun q' t ht => ?_, fun q' t ht => ?_, fun q' t ht hrun => ?_,
    fun q' hq' => ?_⟩
  · obtain ⟨hq, ht⟩ := (hmem q' t).mp ht
    have hout : t ∉ Q q := fun hin => hq (h.linked.apart q' q t ht hin)
    rw [hsched, if_neg hout]
    exact h.place q' t ht
  · rw [hsched]
    by_cases hin : t ∈ Q q
    · exact .inr (by simp [hin])
    · rw [if_neg hin]
      refine (h.waiting q' t ht).imp_left fun hin' => (hmem q' t).mpr ⟨?_, hin'⟩
      rintro rfl
      exact hin hin'
  · rw [hsched] at hrun
    by_cases hin : t ∈ Q q
    · rw [if_pos hin] at hrun
      exact absurd hrun (wakeup_run_ne_blocked _)
    · rw [if_neg hin] at hrun
      have hin' := h.sleeping q' t ht hrun
      refine (hmem q' t).mpr ⟨?_, hin'⟩
      rintro rfl
      exact hin hin'
  · by_cases hq : q' = q
    · exact absurd (hq ▸ update_self ..) hq'
    · rw [update_of_ne hq] at hq'
      exact hends q' hq (h.ends q' hq')

end Queues

section Awaited
variable [DecidableEq Tid]

theorem Awaited.move {j : PipeJob κ} (h : Awaited s) (hold : (s.job t).pc.away) (hnew : j.pc.away)
    (hjob : s'.job = update s.job t j) (hlinks : s'.links = s.links)
    (hsched : s'.sched = s.sched) (hends : ∀ q, endOpen s q → endOpen s' q) : Awaited s' := by
  obtain ⟨Q, hQ⟩ := h
  exact hQ.move (hQ.not_mem hold) hnew hjob hlinks (fun u _ => by rw [hsched]) hends

theorem Awaited.resume {goOn : PipePc κ} (h : Awaited s) (hnowait : ∀ q, ¬ (s.job t).pc.waitsIn q)
    (hgo : goOn.away) : Awaited (s.resume t goOn) := by
  unfold PipeSys.resume
  split
  · rename_i hrun
    obtain ⟨Q, hQ⟩ := h
    refine hQ.move (fun q ht => ?_) hgo rfl rfl (fun u hu => update_of_ne hu ..) fun _ => id
    rcases hQ.place q t ht with hw | ⟨-, hb⟩
    · exact hnowait q hw
    · rw [hrun] at hb
      cases hb
  · exact h

variable [DecidableEq κ] {o : κ} {p : IpcPipe}

omit [DecidableEq Tid] in
theorem endOpen_setPipe (hr : q = (.write, o) → (s.pipe o).readerCount ≠ 0 → p.readerCount ≠ 0)
    (hw : q = (.read, o) → (s.pipe o).writerCount ≠ 0 → p.writerCount ≠ 0) (hopen : endOpen s q) :
    endOpen (s.setPipe o p) q := by
  obtain ⟨kind, o'⟩ := q
  by_cases ho : o' = o
  · subst ho
    cases kind with
    | read => simpa [endOpen, setPipe] using hw rfl hopen
    | write => simpa [endOpen, setPipe] using hr rfl hopen
    | send | recv | wait => trivial
  · cases kind with
    | read | write => simpa [endOpen, setPipe, ho] using hopen
    | send | recv | wait => trivial

omit [DecidableEq Tid] in
theorem Awaited.setPipe (h : Awaited s) (hr : (s.pipe o).readerCount ≠ 0 → p.readerCount ≠ 0)
    (hw : (s.pipe o).writerCount ≠ 0 → p.writerCount ≠ 0) : Awaited (s.setPipe o p) := by
  obtain ⟨Q, hQ⟩ := h
  exact ⟨Q, hQ.linked, hQ.place, hQ.waiting, hQ.sleeping, fun q hq =>
    endOpen_setPipe (fun _ => hr) (fun _ => hw) (hQ.ends q hq)⟩

theorem Awaited.readHead {size : ℕ} (h : Awaited s) (hold : (s.job t).pc.away) :
    Awaited (s.readHead t o size) := by
  unfold PipeSys.readHead
  split
  · exact h.move hold (fun _ => ⟨id, id⟩) rfl rfl rfl fun _ =>
      endOpen_setPipe (fun _ => id) fun _ => id
  · split
    · exact h.move hold (fun _ => ⟨id, id⟩) rfl rfl rfl fun _ => id
    · obtain ⟨Q, hQ⟩ := h
      exact hQ.enqueue hold (fun _ => Iff.rfl) (fun _ => id) ‹_›

theorem Awaited.writeHead {total : ℕ} (h : Awaited s) (hold : (s.job t).pc.away)
    : Awaited (s.writeHead t o data total) := by
  unfold PipeSys.writeHead
  split
  · exact h.move hold (fun _ => ⟨id, id⟩) rfl rfl rfl fun _ => id
  · split
    · exact h.move hold (fun _ => ⟨id, id⟩) rfl rfl rfl fun _ => id
    · obtain ⟨Q, hQ⟩ := h
      exact hQ.enqueue hold (fun _ => Iff.rfl) (fun _ => id) ‹_›

variable [Fintype Tid] (h : Awaited s)
include h

theorem Awaited.wakeupAll (q : Queue κ) : Awaited (s.wakeupAll q) := by
  obtain ⟨Q, hQ⟩ := h
  exact hQ.wakeupAll q fun _ _ => id

theorem Awaited.copiedOut {n i : ℕ} {byte : UInt8} {ok : Bool}
    (hpc : (s.job t).pc = .copyOut o n i byte) : Awaited (s.copiedOut t o n i byte ok) := by
  have hold : (s.job t).pc.away := by
    rw [hpc]
    exact fun _ => ⟨id, id⟩
  have hput : Awaited (s.putUser t byte) :=
    h.move hold (j := { s.job t with ubuf := (s.job t).ubuf ++ [byte] }) hold rfl rfl rfl
      fun _ => id
  have hold' : ((s.putUser t byte).job t).pc.away := by
    simpa [putUser] using hold
  unfold PipeSys.copiedOut
  split
  · split
    · exact hput.move hold' (fun _ => ⟨id, id⟩) rfl rfl rfl fun _ =>
        endOpen_setPipe (fun _ => id) fun _ => id
    · exact (hput.wakeupAll (.write, o)).move hold' (fun _ => ⟨id, id⟩) rfl rfl rfl
        fun _ => id
  · exact (h.wakeupAll (.write, o)).move hold (fun _ => ⟨id, id⟩) rfl rfl rfl fun _ => id

theorem Awaited.copiedIn {total n i : ℕ} {ok : Bool}
    (hpc : (s.job t).pc = .copyIn o data total n i) :
    Awaited (s.copiedIn t o data total n i ok) := by
  have hold : (s.job t).pc.away := by
    rw [hpc]
    exact fun _ => ⟨id, id⟩
  have hstore : Awaited (s.storeByte t o data total n i) :=
    h.move hold (fun _ => ⟨id, id⟩) rfl rfl rfl fun _ => endOpen_setPipe (fun _ => id) fun _ => id
  have hold' : ((s.storeByte t o data total n i).job t).pc.away := by
    simp [storeByte, setPc, away, waitsIn, sleepsIn]
  unfold PipeSys.copiedIn
  split
  · split
    · exact hstore
    · split
      · exact (hstore.wakeupAll (.read, o)).move hold' (fun _ => ⟨id, id⟩) rfl rfl rfl
          fun _ => id
      · exact (hstore.wakeupAll (.read, o)).writeHead hold'
  · exact (h.wakeupAll (.read, o)).move hold (fun _ => ⟨id, id⟩) rfl rfl rfl fun _ => id

theorem Awaited.closeRead : Awaited (s.closeRead o) := by
  unfold PipeSys.closeRead
  split
  · obtain ⟨Q, hQ⟩ := h
    exact hQ.wakeupAll _ fun _ hne => endOpen_setPipe (fun heq => absurd heq hne) fun _ => id
  · exact h.setPipe (fun _ => by show _ - 1 ≠ 0; omega) id

theorem Awaited.closeWrite : Awaited (s.closeWrite o) := by
  unfold PipeSys.closeWrite
  split
  · obtain ⟨Q, hQ⟩ := h
    exact hQ.wakeupAll _ fun _ hne => endOpen_setPipe (fun _ => id) fun heq => absurd heq hne
  · exact h.setPipe id fun _ => by show _ - 1 ≠ 0; omega

theorem Awaited.step {a : PipeAction κ Tid} (hc : PipeCalm s a) (hs : s.step a = some s') :
    Awaited s' := by
  have haway : ∀ u, (s.job u).pc = .user → (s.job u).pc.away := fun u hu => by
    rw [hu]
    exact fun _ => ⟨id, id⟩
  cases a with
  | read t o size =>
    simp only [PipeSys.step] at hs
    split at hs
    · rename_i hpc
      have hstart : Awaited (s.start t (.readHead o size)) :=
        h.move (haway t hpc) (fun _ => ⟨id, id⟩) rfl rfl rfl fun _ => id
      split at hs <;> cases hs
      · refine hstart.move ?_ (fun _ => ⟨id, id⟩) rfl rfl rfl fun _ => id
        simp [start, away, waitsIn, sleepsIn]
      · exact hstart
    · cases hs
      exact h
  | write t o data =>
    simp only [PipeSys.step] at hs
    split at hs
    · rename_i hpc
      have hstart : Awaited (s.start t (.writeHead o data 0)) :=
        h.move (haway t hpc) (fun _ => ⟨id, id⟩) rfl rfl rfl fun _ => id
      split at hs <;> cases hs
      · refine hstart.move ?_ (fun _ => ⟨id, id⟩) rfl rfl rfl fun _ => id
        simp [start, away, waitsIn, sleepsIn]
      · exact hstart
    · cases hs
      exact h
  | lock t =>
    simp only [PipeSys.step] at hs
    split at hs <;> cases hs
    · rename_i hpc
      exact h.readHead (by rw [hpc]; exact fun _ => ⟨id, id⟩)
    · rename_i hpc
      exact h.writeHead (by rw [hpc]; exact fun _ => ⟨id, id⟩)
    · exact h
  | copied t ok =>
    simp only [PipeSys.step] at hs
    split at hs <;> cases hs
    · exact h.copiedOut ‹_›
    · exact h.copiedIn ‹_›
    · exact h
  | block t =>
    obtain ⟨Q, hQ⟩ := id h
    simp only [PipeSys.step] at hs
    split at hs <;> cases hs
    · rename_i o size hpc
      exact hQ.block (by rw [hpc]; exact rfl) (fun _ => ⟨id, id⟩) (fun _ => id)
        (fun _ => Iff.rfl) (hc.stale t rfl)
    · rename_i o data total hpc
      exact hQ.block (by rw [hpc]; exact rfl) (fun _ => ⟨id, id⟩) (fun _ => id)
        (fun _ => Iff.rfl) (hc.stale t rfl)
    · exact h
  | resume t =>
    simp only [PipeSys.step] at hs
    split at hs <;> cases hs
    · rename_i hpc
      exact h.resume (by rw [hpc]; exact fun _ => id) fun _ => ⟨id, id⟩
    · rename_i hpc
      exact h.resume (by rw [hpc]; exact fun _ => id) fun _ => ⟨id, id⟩
    · exact h
  | openRead o =>
    cases hs
    exact h.setPipe (fun _ => Nat.succ_ne_zero _) id
  | openWrite o =>
    cases hs
    exact h.setPipe id fun _ => Nat.succ_ne_zero _
  | closeRead o =>
    cases hs
    exact h.closeRead
  | closeWrite o =>
    cases hs
    exact h.closeWrite
  | poke u =>
    cases hs
    obtain ⟨Q, hQ⟩ := h
    exact hQ.poke (hc.own u rfl)

end Awaited

section Results

theorem Awaited.of_init (h : s.Init) : Awaited s := by
  refine ⟨fun _ => [], ?_, nofun, fun q t ht => ?_, fun q t ht => ?_, fun q hq => absurd rfl hq⟩
  · rw [h.links]
    exact ⟨fun _ => .nil, nofun⟩
  · rw [h.job t] at ht
    exact ht.elim
  · rw [h.job t] at ht
    exact ht.elim

variable [DecidableEq κ] [DecidableEq Tid] [Fintype Tid]

theorem zeroAtEnd_of_jobs (h : ∀ u, (s.job u).Ok) : ZeroAtEnd s := by
  intro a s' e hs hlog hkind hzero
  have hquiet : s'.log ≠ s.log := by
    rw [hlog]
    exact List.cons_ne_self e s.log
  have hret : ∀ (kind : PipeOp) (o : κ) (op : ℕ) (r : ℤ) (data : List UInt8),
      s'.log = ⟨kind, o, op, r, data⟩ :: s.log → kind = .read ∧ r = 0 ∧ e.pipe = o := by
    intro kind o op r data hlog'
    obtain ⟨rfl, -⟩ := List.cons.inj (hlog.symm.trans hlog')
    exact ⟨hkind, hzero, rfl⟩
  cases a with
  | read t o size =>
    simp only [PipeSys.step] at hs
    split at hs
    · split at hs <;> cases hs
      · exact absurd (hret _ _ _ _ _ rfl).2.1 (by decide)
      · exact absurd rfl hquiet
    · cases hs
      exact absurd rfl hquiet
  | write t o data =>
    simp only [PipeSys.step] at hs
    split at hs
    · split at hs <;> cases hs
      · exact absurd (hret _ _ _ _ _ rfl).1 (by decide)
      · exact absurd rfl hquiet
    · cases hs
      exact absurd rfl hquiet
  | lock t =>
    simp only [PipeSys.step, PipeSys.readHead, PipeSys.writeHead] at hs
    split at hs
    · split at hs
      · cases hs
        exact absurd rfl hquiet
      · rename_i hused
        split at hs <;> cases hs
        · rename_i hclosed
          rw [(hret _ _ _ _ _ rfl).2.2]
          exact ⟨Nat.eq_zero_of_not_pos hused, hclosed⟩
        · exact absurd rfl hquiet
    · split at hs
      · cases hs
        exact absurd (hret _ _ _ _ _ rfl).1 (by decide)
      · split at hs <;> cases hs <;> exact absurd rfl hquiet
    · cases hs
      exact absurd rfl hquiet
  | copied t ok =>
    have hok := h t
    simp only [PipeSys.step] at hs
    split at hs
    · rename_i hpc
      simp only [PipeJob.Ok, hpc] at hok
      simp only [copiedOut] at hs
      split at hs
      · split at hs <;> cases hs
        · exact absurd rfl hquiet
        · have := (hret _ _ _ _ _ rfl).2.1
          omega
      · cases hs
        exact absurd (hret _ _ _ _ _ rfl).2.1 (by decide)
    · simp only [PipeSys.copiedIn, PipeSys.writeHead] at hs
      split at hs
      · split at hs
        · cases hs
          exact absurd rfl hquiet
        · split at hs
          · cases hs
            exact absurd (hret _ _ _ _ _ rfl).1 (by decide)
          · split at hs
            · cases hs
              exact absurd (hret _ _ _ _ _ rfl).1 (by decide)
            · split at hs <;> cases hs <;> exact absurd rfl hquiet
      · cases hs
        exact absurd (hret _ _ _ _ _ rfl).1 (by decide)
    · cases hs
      exact absurd rfl hquiet
  | block t =>
    simp only [PipeSys.step] at hs
    split at hs <;> cases hs <;> exact absurd rfl hquiet
  | resume t =>
    simp only [PipeSys.step, resume] at hs
    split at hs <;> cases hs
    · split at hquiet <;> exact absurd rfl hquiet
    · split at hquiet <;> exact absurd rfl hquiet
    · exact absurd rfl hquiet
  | openRead o | openWrite o | poke u =>
    cases hs
    exact absurd rfl hquiet
  | closeRead o =>
    simp only [PipeSys.step, closeRead] at hs
    split at hs <;> cases hs <;> exact absurd rfl hquiet
  | closeWrite o =>
    simp only [PipeSys.step, closeWrite] at hs
    split at hs <;> cases hs <;> exact absurd rfl hquiet

/-- In every calm run closing the last end of one side releases the other, and a read returns 0 only
at the end of the file. -/
theorem close_releases (h : Lib.Reach PipeSys.step PipeSys.Init PipeCalm s) :
    PipeReleased s ∧ ZeroAtEnd s := by
  obtain ⟨⟨Q, hQ⟩, hjobs⟩ : Awaited s ∧ ∀ u, (s.job u).Ok := by
    refine h.invariant (P := fun s => Awaited s ∧ ∀ u, (s.job u).Ok) (fun s hs => ?_)
      fun s a s' hi hc hs => ?_
    · exact ⟨.of_init hs, jobs_init hs⟩
    · exact ⟨hi.1.step hc hs, jobs_step hi.2 hs⟩
  exact ⟨hQ.released, zeroAtEnd_of_jobs hjobs⟩

end Results

def twoReaders : PipeSys Unit (Fin 2) := initPipes

def closeRun : List (PipeAction Unit (Fin 2)) :=
  [.read 0 () 2, .lock 0, .block 0, .read 1 () 1, .lock 1, .block 1, .closeWrite ()]

def pipeCalmCheck (s : PipeSys Unit (Fin 2)) : PipeAction Unit (Fin 2) → Bool
  | .poke _ => false
  | .block t => !(s.sched t).pendingWakeup
  | _ => true

theorem pipeCalm_of_check (s : PipeSys Unit (Fin 2)) (a : PipeAction Unit (Fin 2))
    (h : pipeCalmCheck s a = true) : PipeCalm s a := by
  refine ⟨?_, ?_⟩
  · rintro u rfl
    cases h
  · rintro t rfl hp
    simp [pipeCalmCheck, hp] at h

theorem close_releases_closeRun : ∃ s, Lib.run PipeSys.step twoReaders closeRun = some s ∧
    (s.sched 0).run = .woken ∧ (s.sched 1).run = .woken ∧ PipeReleased s ∧ ZeroAtEnd s := by
  obtain ⟨s, hs, ⟨h0, h1⟩, hsound⟩ :=
    Lib.Reach.witness (P := fun s => (s.sched (0 : Fin 2)).run = .woken ∧
    (s.sched 1).run = .woken) closeRun pipeCalm_of_check init_initPipes (by decide) (by decide)
    fun _ => close_releases
  exact ⟨s, hs, h0, h1, hsound⟩

def ownWakeupsCheck (s : PipeSys Unit (Fin 2)) : PipeAction Unit (Fin 2) → Bool
  | .poke u => decide ((s.sched u).run ≠ .blocked)
  | _ => true

theorem ownWakeups_of_check (s : PipeSys Unit (Fin 2)) (a : PipeAction Unit (Fin 2))
    (h : ownWakeupsCheck s a = true) : OwnWakeups s a := by
  rintro u rfl
  exact of_decide_eq_true h

/-- The second reader starts with a wakeup pending and joins the queue twice: the first one is cut
off, and the close does not reach it. -/
theorem reader_left_behind : ∃ s : PipeSys Unit (Fin 2),
    Lib.Reach PipeSys.step PipeSys.Init OwnWakeups s ∧ (s.pipe ()).writerCount = 0 ∧
      (s.job 0).pc = .readAsleep () 2 ∧ s.sched 0 = ⟨.blocked, false, false⟩ ∧
      ¬ PipeReleased s := by
  obtain ⟨s, -, ⟨hclosed, hpc, hsched⟩, hs⟩ :=
    Lib.Reach.exists_runAll PipeSys.step (P := fun s => (s.pipe ()).writerCount = 0 ∧
    (s.job (0 : Fin 2)).pc = .readAsleep () 2 ∧ s.sched 0 = ⟨.blocked, false, false⟩)
    [.read 0 () 2, .lock 0, .block 0, .poke 1, .read 1 () 1, .lock 1, .block 1, .lock 1, .block 1,
      .closeWrite ()] ownWakeups_of_check init_initPipes (by decide) (by decide)
  refine ⟨s, hs, hclosed, hpc, hsched, fun hrel => ?_⟩
  exact hrel.read 0 () (by rw [hpc]; exact rfl) (by rw [hsched]) (by rw [hsched]) hclosed

end Xnix
