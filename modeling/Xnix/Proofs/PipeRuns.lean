import Xnix.Proofs.PipeJobs
import Xnix.Proofs.PipeStream

/-!
# Calm runs of pipes

Every section of `pipe_read` and `pipe_write` keeps the streams, so every calm run does.
-/

namespace Xnix

open Function PipeSys PipePc

variable {κ Tid : Type} {s : PipeSys κ Tid} {total : ℕ}

section Flow
variable {s s' : PipeSys κ Tid} {t : Tid}

structure Flow (s : PipeSys κ Tid) : Prop where
  ids : PipeIds s
  stream : ∀ o, Stream s o

theorem Flow.congr (h : Flow s) (hpipe : ∀ o, (s'.pipe o).ring = (s.pipe o).ring ∧
      (s'.pipe o).entered = (s.pipe o).entered ∧ (s'.pipe o).taken = (s.pipe o).taken)
    (hjob : s'.job = s.job) (hlog : s'.log = s.log) (hnext : s'.nextOp = s.nextOp) : Flow s' := by
  refine ⟨⟨?_, ?_, ?_⟩, fun o => (h.stream o).congr (hpipe o) hjob hlog⟩
  · rw [hjob, hnext]
    exact h.ids.fresh
  · rw [hjob]
    exact h.ids.distinct
  · rw [hjob, hlog, hnext]
    exact h.ids.logged

variable [DecidableEq Tid]

theorem Flow.move {pc : PipePc κ} (h : Flow s) (hactive : (s.job t).pc ≠ .user)
    (hold : ∀ o, ¬ (s.job t).pc.takesFrom o) (hnew : ∀ o, ¬ pc.takesFrom o)
    (hroom : ∀ o, pc.storesTo o → (s.pipe o).entered.length + pc.owed ≤
      (s.pipe o).taken.length + (pipeBufSize - 1) ∧ ∀ u, u ≠ t → ¬ (s.job u).pc.storesTo o) :
    Flow (s.setPc t pc) :=
  ⟨h.ids.move hactive rfl rfl rfl rfl, fun o => (h.stream o).frame rfl rfl (hold o) (hnew o)
    (hroom o) (fun _ => id) fun _ => .inl⟩

theorem Flow.ret (h : Flow s) (hactive : (s.job t).pc ≠ .user)
    (hold : ∀ o, ¬ (s.job t).pc.takesFrom o) {kind : PipeOp} {r : ℤ}
    (hr : kind = .write ∨ r ≤ 0) (o : κ) : Flow (s.ret t kind o r) := by
  refine ⟨h.ids.ret hactive rfl rfl rfl rfl rfl, fun o' => (h.stream o').frame rfl rfl (hold o')
    id (fun hst => hst.elim) (fun _ => List.mem_cons_of_mem _) fun e he => ?_⟩
  rcases List.mem_cons.mp he with rfl | he
  · refine .inr ?_
    rintro ⟨hk, -, hpos⟩
    rcases hr with rfl | hr
    · cases hk
    · exact absurd hpos (Int.not_lt.mpr hr)
  · exact .inl he

theorem Flow.start (pc : PipePc κ) (h : Flow s) (hpc : (s.job t).pc = .user)
    (hnew : ∀ o, ¬ pc.takesFrom o) (hst : ∀ o, ¬ pc.storesTo o) : Flow (s.start t pc) := by
  refine ⟨h.ids.start t pc, fun o => (h.stream o).frame rfl rfl ?_ (hnew o)
    (fun hst' => absurd hst' (hst o)) (fun _ => id) fun _ => .inl⟩
  rw [hpc]
  exact id

section
variable (h : Flow s) (hactive : (s.job t).pc ≠ .user) (hold : ∀ o, ¬ (s.job t).pc.takesFrom o)
include h hactive hold

theorem Flow.block {goOn asleep : PipePc κ} (hgo : ∀ o, ¬ goOn.takesFrom o ∧ ¬ goOn.storesTo o)
    (hasleep : ∀ o, ¬ asleep.takesFrom o ∧ ¬ asleep.storesTo o) : Flow (s.block t goOn asleep) := by
  unfold PipeSys.block
  split
  · exact (h.move hactive hold (fun o => (hgo o).1) fun o hst => absurd hst (hgo o).2).congr
      (fun _ => ⟨rfl, rfl, rfl⟩) rfl rfl rfl
  · exact (h.move hactive hold (fun o => (hasleep o).1) fun o hst => absurd hst (hasleep o).2).congr
      (fun _ => ⟨rfl, rfl, rfl⟩) rfl rfl rfl

theorem Flow.resume {goOn : PipePc κ} (hgo : ∀ o, ¬ goOn.takesFrom o ∧ ¬ goOn.storesTo o) :
    Flow (s.resume t goOn) := by
  unfold PipeSys.resume
  split
  · exact (h.move hactive hold (fun o => (hgo o).1) fun o hst => absurd hst (hgo o).2).congr
      (fun _ => ⟨rfl, rfl, rfl⟩) rfl rfl rfl
  · exact h

end

variable [DecidableEq κ] {o : κ} {data : List UInt8} {n i : ℕ}

omit [DecidableEq Tid] in
theorem setPipe_bytes {p : IpcPipe} (hring : p.ring = (s.pipe o).ring)
    (hentered : p.entered = (s.pipe o).entered) (htaken : p.taken = (s.pipe o).taken) (o' : κ) :
    ((s.setPipe o p).pipe o').ring = (s.pipe o').ring ∧ ((s.setPipe o p).pipe o').entered =
      (s.pipe o').entered ∧ ((s.setPipe o p).pipe o').taken = (s.pipe o').taken := by
  by_cases ho : o' = o
  · subst ho
    simp [setPipe, hring, hentered, htaken]
  · simp [setPipe, ho]

theorem Flow.take {u : List UInt8} (h : Flow s)
    (hpipe : s'.pipe = update s.pipe o ((s.pipe o).take (s.job t).op))
    (hjob : s'.job = update s.job t
      ⟨.copyOut o n i (s.pipe o).ring.front, (s.job t).op, u⟩) (hlog : s'.log = s.log)
    (hnext : s'.nextOp = s.nextOp) (hactive : (s.job t).pc ≠ .user)
    (hpure : ∀ o', o' ≠ o → ¬ (s.job t).pc.takesFrom o')
    (hothers : ∀ v, v ≠ t → ¬ (s.job v).pc.takesFrom o)
    (hback : n - 1 - i + ((s.pipe o).taken.length + 1) ≤ (s.pipe o).entered.length)
    (hheld : ∃ A : List (ℕ × UInt8), (∀ x ∈ A, s.succeeded x.1 = true) ∧
      (s.pipe o).taken = A ++ u.map (Prod.mk (s.job t).op)) : Flow s' := by
  refine ⟨h.ids.move hactive hjob rfl hlog hnext, fun o' => ?_⟩
  by_cases ho : o' = o
  · subst ho
    exact (h.stream o').take h.ids (by rw [hpipe, update_self]) hjob hlog hactive hothers
      hback hheld
  · have hsame : s'.pipe o' = s.pipe o' := by rw [hpipe, update_of_ne ho]
    exact (h.stream o').frame hsame hjob (hpure o' ho)
      (fun htk => ho htk.symm) (fun hst => hst.elim) (by rw [hlog]; exact fun _ => id)
      (by rw [hlog]; exact fun _ => .inl)

theorem Flow.finish {byte : UInt8} {j : PipeJob κ} (h : Flow s)
    (hpc : (s.job t).pc = .copyOut o n i byte) (hn : i + 1 = n) (hi : (s.job t).ubuf.length = i)
    (hpipe : s'.pipe = s.pipe) (hjob : s'.job = update s.job t j) (hj : j.pc = .user)
    (hlog : s'.log = ⟨.read, o, (s.job t).op, n, (s.job t).ubuf ++ [byte]⟩ :: s.log)
    (hnext : s'.nextOp = s.nextOp) : Flow s' := by
  refine ⟨h.ids.ret (by simp [hpc]) hjob hj rfl hlog hnext, fun o' => ?_⟩
  by_cases ho : o' = o
  · subst ho
    exact (h.stream o').finish h.ids hpc hn hi (by rw [hpipe]) hjob hj hlog
  · refine (h.stream o').frame (by rw [hpipe]) hjob ?_
      (by rw [hj]; exact id) (by rw [hj]; exact fun hst => hst.elim)
      (by rw [hlog]; exact fun _ => List.mem_cons_of_mem _) fun e he => ?_
    · rw [hpc]
      exact fun htk => ho htk.symm
    · rw [hlog] at he
      rcases List.mem_cons.mp he with rfl | he
      · exact .inr fun hread => ho hread.2.1.symm
      · exact .inl he

theorem Flow.storeByte (h : Flow s) (hpc : (s.job t).pc = .copyIn o data total n i)
    (hi : i < n) : Flow (s.storeByte t o data total n i) := by
  refine ⟨h.ids.move (by simp [hpc]) rfl rfl rfl rfl, fun o' => ?_⟩
  by_cases ho : o' = o
  · subst ho
    refine (h.stream o').store (b := data.getD (total + i) 0) (by rw [hpc]; exact rfl) ?_ id
      (by rw [hpc]; exact id) ?_ rfl rfl
    · rw [hpc]
      show n - i = n - (i + 1) + 1
      omega
    · simp [storeByte, setPc, setPipe]
  · have hsame : (s.storeByte t o data total n i).pipe o' = s.pipe o' := update_of_ne ho ..
    exact (h.stream o').frame hsame rfl (by rw [hpc]; exact id) id (fun hst => absurd hst.symm ho)
      (fun _ => id) fun _ => .inl

theorem Flow.writeHead (h : Flow s) (hactive : (s.job t).pc ≠ .user)
    (hold : ∀ o', ¬ (s.job t).pc.takesFrom o') (hothers : ∀ u, u ≠ t → ¬ (s.job u).pc.storesTo o) :
    Flow (s.writeHead t o data total) := by
  unfold PipeSys.writeHead
  split
  · exact h.ret hactive hold (.inl rfl) o
  · split
    · refine h.move hactive hold (fun _ => id) fun o' ho' => ?_
      obtain rfl : o = o' := ho'
      refine ⟨?_, hothers⟩
      have hcount := ringUsed_eq (h.stream o).pipe
      have hupper := (h.stream o).pipe.carries.upper
      simp only [owed, ringFree]
      omega
    · exact Flow.move (h.congr (fun _ => ⟨rfl, rfl, rfl⟩) rfl rfl rfl) hactive hold
        (fun _ => id) fun _ hst => hst.elim

theorem Flow.readHead {size : ℕ} (h : Flow s) (hpc : (s.job t).pc = .readHead o size)
    (hok : (s.job t).Ok) (hcalm : ∀ u, ¬ (s.job u).pc.takesFrom o) :
    Flow (s.readHead t o size) := by
  have hactive : (s.job t).pc ≠ .user := by simp [hpc]
  have hold : ∀ o', ¬ (s.job t).pc.takesFrom o' := by simp [hpc, takesFrom]
  simp only [PipeJob.Ok, hpc] at hok
  unfold PipeSys.readHead
  split
  · rename_i hused
    have hcount := ringUsed_eq (h.stream o).pipe
    obtain ⟨A, hA, -, hnone⟩ := (h.stream o).held
    exact h.take rfl rfl rfl rfl hactive (fun o' _ => hold o') (fun v _ => hcalm v)
      (by omega) ⟨A, hA, by simpa [setPipe, hok.2] using hnone hcalm⟩
  · split
    · exact h.ret hactive hold (.inr le_rfl) o
    · exact Flow.move (h.congr (fun _ => ⟨rfl, rfl, rfl⟩) rfl rfl rfl) hactive hold
        (fun _ => id) fun _ hst => hst.elim

variable [Fintype Tid]

theorem Flow.wakeupAll (h : Flow s) (q : Queue κ) : Flow (s.wakeupAll q) :=
  h.congr (fun _ => ⟨rfl, rfl, rfl⟩) rfl rfl rfl

theorem Flow.copiedOut {byte : UInt8} (h : Flow s) (hpc : (s.job t).pc = .copyOut o n i byte)
    (hok : (s.job t).Ok) : Flow (s.copiedOut t o n i byte true) := by
  have hactive : (s.job t).pc ≠ .user := by simp [hpc]
  have htk : (s.job t).pc.takesFrom o := takesFrom_iff.mpr ⟨n, i, byte, hpc⟩
  simp only [PipeJob.Ok, hpc] at hok
  unfold PipeSys.copiedOut
  rw [if_pos rfl]
  split
  · have hback := (h.stream o).readers.owed t htk
    simp only [hpc, owed] at hback
    obtain ⟨A, hA, htaker, -⟩ := (h.stream o).held
    refine h.take (n := n) (i := i + 1) ?_ ?_ rfl rfl hactive (fun o' ho' => ?_)
      (fun v hv hvt => hv ?_) (by omega)
      ⟨A, hA, htaker t n i byte hpc⟩
    · simp [putUser, takeByte, setPc, setPipe]
    · simp [putUser, takeByte, setPc, setPipe]
    · rw [hpc]
      exact fun htk' => ho' htk'.symm
    · exact (h.stream o).readers.one v t hvt htk
  · have hjob : (((s.putUser t byte).wakeupAll (.write, o)).ret t .read o n).job =
        update s.job t ⟨.user, (s.job t).op, (s.job t).ubuf ++ [byte]⟩ := by
      simp [PipeSys.putUser, PipeSys.wakeupAll, PipeSys.ret, PipeSys.setPc]
    refine h.finish hpc (by omega) hok.2 rfl hjob rfl ?_ rfl
    simp [PipeSys.putUser, PipeSys.wakeupAll, PipeSys.ret, PipeSys.setPc]

theorem Flow.copiedIn {ok : Bool} (h : Flow s)
    (hpc : (s.job t).pc = .copyIn o data total n i) (hok : (s.job t).Ok) :
    Flow (s.copiedIn t o data total n i ok) := by
  simp only [PipeJob.Ok, hpc] at hok
  have hstored := (h.storeByte hpc hok.2).wakeupAll (.read, o)
  have hself : (((s.storeByte t o data total n i).wakeupAll (.read, o)).job t).pc =
      .copyIn o data total n (i + 1) := by
    simp [PipeSys.wakeupAll, PipeSys.storeByte, PipeSys.setPc]
  unfold PipeSys.copiedIn
  split
  · split
    · exact h.storeByte hpc hok.2
    · split
      · exact hstored.ret (by simp [hself]) (by simp [hself, takesFrom]) (.inl rfl) o
      · refine hstored.writeHead (by simp [hself]) (by simp [hself, takesFrom])
          fun u hu hst => hu ((h.stream o).writers.one u t ?_ (by rw [hpc]; exact rfl))
        simpa [PipeSys.wakeupAll, PipeSys.storeByte, PipeSys.setPc, PipeSys.setPipe, hu] using hst
  · exact Flow.ret (h.wakeupAll (.read, o)) (by simp [PipeSys.wakeupAll, hpc])
      (by simp [PipeSys.wakeupAll, hpc, PipePc.takesFrom]) (.inl rfl) o

theorem neg_eInval : -eInval ≤ 0 := by decide

theorem Flow.step {a : PipeAction κ Tid} (h : Flow s) (hjobs : ∀ t, (s.job t).Ok)
    (hc : StreamCalm s a) (hs : s.step a = some s') : Flow s' := by
  cases a with
  | read t o size =>
    simp only [PipeSys.step] at hs
    split at hs
    · rename_i hpc
      have hflow := h.start (.readHead o size) hpc (fun _ => id) (fun _ => id)
      split at hs <;> cases hs
      · exact hflow.ret (by simp [PipeSys.start]) (by simp [PipeSys.start, PipePc.takesFrom])
          (.inr neg_eInval) o
      · exact hflow
    · cases hs
      exact h
  | write t o data =>
    simp only [PipeSys.step] at hs
    split at hs
    · rename_i hpc
      have hflow := h.start (.writeHead o data 0) hpc (fun _ => id) (fun _ => id)
      split at hs <;> cases hs
      · exact hflow.ret (by simp [PipeSys.start]) (by simp [PipeSys.start, PipePc.takesFrom])
          (.inl rfl) o
      · exact hflow
    · cases hs
      exact h
  | lock t =>
    simp only [PipeSys.step] at hs
    split at hs <;> cases hs
    · exact h.readHead ‹_› (hjobs t) (hc.read t _ _ rfl ‹_›)
    · rename_i o data total hpc
      exact h.writeHead (by simp [hpc]) (by simp [hpc, takesFrom])
        fun u _ => hc.write t o data total rfl hpc u
    · exact h
  | copied t ok =>
    simp only [PipeSys.step] at hs
    split at hs <;> cases hs
    · rename_i o n i byte hpc
      cases ok with
      | false => exact absurd (takesFrom_iff.mpr ⟨n, i, byte, hpc⟩) (hc.copy t o rfl)
      | true => exact h.copiedOut hpc (hjobs t)
    · exact h.copiedIn ‹_› (hjobs t)
    · exact h
  | block t =>
    simp only [PipeSys.step] at hs
    split at hs <;> cases hs
    · rename_i hpc
      exact h.block (by simp [hpc]) (by simp [hpc, takesFrom]) (fun _ => ⟨id, id⟩)
        fun _ => ⟨id, id⟩
    · rename_i hpc
      exact h.block (by simp [hpc]) (by simp [hpc, takesFrom]) (fun _ => ⟨id, id⟩)
        fun _ => ⟨id, id⟩
    · exact h
  | resume t =>
    simp only [PipeSys.step] at hs
    split at hs <;> cases hs
    · rename_i hpc
      exact h.resume (by simp [hpc]) (by simp [hpc, takesFrom]) fun _ => ⟨id, id⟩
    · rename_i hpc
      exact h.resume (by simp [hpc]) (by simp [hpc, takesFrom]) fun _ => ⟨id, id⟩
    · exact h
  | openRead o | openWrite o =>
    cases hs
    exact h.congr (setPipe_bytes rfl rfl rfl) rfl rfl rfl
  | closeRead o =>
    cases hs
    unfold closeRead
    split
    · exact h.congr (setPipe_bytes rfl rfl rfl) rfl rfl rfl
    · exact h.congr (setPipe_bytes rfl rfl rfl) rfl rfl rfl
  | closeWrite o =>
    cases hs
    unfold closeWrite
    split
    · exact h.congr (setPipe_bytes rfl rfl rfl) rfl rfl rfl
    · exact h.congr (setPipe_bytes rfl rfl rfl) rfl rfl rfl
  | poke u =>
    cases hs
    exact h.congr (fun _ => ⟨rfl, rfl, rfl⟩) rfl rfl rfl

end Flow

section Results
theorem Flow.of_init (h : s.Init) : Flow s := by
  have hnone : ∀ o t, ¬ (s.job t).pc.takesFrom o := fun o t => by
    rw [h.job t]
    exact id
  have hstores : ∀ o t, ¬ (s.job t).pc.storesTo o := fun o t => by
    rw [h.job t]
    exact id
  refine ⟨⟨?_, ?_, ?_⟩, fun o => ⟨⟨?_, ?_⟩, ?_, ?_, ?_, ?_⟩⟩
  · exact fun t ht => absurd (h.job t) ht
  · exact fun t u ht => absurd (h.job t) ht
  · rw [h.log]
    nofun
  · rw [h.pipe]
    exact ⟨rfl, rfl, le_rfl, Nat.zero_le _, fun i _ hi => absurd hi (Nat.not_lt_zero i)⟩
  · rw [h.pipe]
    rfl
  · exact ⟨fun t ht => absurd ht (hnone o t), fun t _ ht => absurd ht (hnone o t)⟩
  · exact ⟨fun t ht => absurd ht (hstores o t), fun t _ ht => absurd ht (hstores o t)⟩
  · rw [h.pipe]
    exact ⟨[], nofun, fun t n i b ht => absurd (takesFrom_iff.mpr ⟨n, i, b, ht⟩) (hnone o t),
      fun _ => rfl⟩
  · rw [h.log]
    nofun

variable [DecidableEq κ] [DecidableEq Tid] [Fintype Tid]

/-- In every calm run every pipe is a reliable stream. -/
theorem pipes_are_streams
    (h : Lib.Reach PipeSys.step PipeSys.Init StreamCalm s) (o : κ) : StreamSound s o := by
  have hinv : Flow s ∧ ∀ t, (s.job t).Ok := by
    refine h.invariant (P := fun s => Flow s ∧ ∀ t, (s.job t).Ok) (fun s hs => ?_)
      fun s a s' hi hc hs => ?_
    · exact ⟨.of_init hs, jobs_init hs⟩
    · exact ⟨hi.1.step hi.2 hc hs, jobs_step hi.2 hs⟩
  exact (hinv.1.stream o).sound hinv.1.ids

end Results

def threeThreads : PipeSys Unit (Fin 3) := initPipes

/-- The first thread writes two bytes, the second reads them, and the third waits for more. -/
def twoByteRun : List (PipeAction Unit (Fin 3)) :=
  [.write 0 () [1, 2], .lock 0, .copied 0 true, .copied 0 true, .read 1 () 2, .lock 1,
    .copied 1 true, .copied 1 true, .read 2 () 2, .lock 2]

def lockCalmCheck (s : PipeSys Unit (Fin 3)) : PipePc Unit → Bool
  | .readHead o _ => decide (∀ u, ¬ (s.job u).pc.takesFrom o)
  | .writeHead o _ _ => decide (∀ u, ¬ (s.job u).pc.storesTo o)
  | _ => true

def streamCalmCheck (s : PipeSys Unit (Fin 3)) : PipeAction Unit (Fin 3) → Bool
  | .lock t => lockCalmCheck s (s.job t).pc
  | .copied t ok => ok || decide (¬ (s.job t).pc.takesFrom ())
  | _ => true

theorem streamCalm_of_check (s : PipeSys Unit (Fin 3)) (a : PipeAction Unit (Fin 3))
    (h : streamCalmCheck s a = true) : StreamCalm s a := by
  constructor
  · rintro t o size rfl hpc
    simpa [streamCalmCheck, lockCalmCheck, hpc] using h
  · rintro t o data total rfl hpc
    simpa [streamCalmCheck, lockCalmCheck, hpc] using h
  · rintro t ⟨⟩ rfl
    simpa [streamCalmCheck] using h

theorem pipes_are_streams_twoByteRun : ∃ s, Lib.run PipeSys.step threeThreads twoByteRun = some s ∧
    s.returned () = [1, 2] ∧ StreamSound s () := by
  refine Lib.Reach.witness _ streamCalm_of_check init_initPipes ?_ ?_ fun _ h =>
    pipes_are_streams h ()
  · decide
  · decide

/-- Two reads in their loops with two bytes in the pipe: the second takes a byte that the first has
counted, and the first takes one that was never written. -/
theorem pipe_underflow : ∃ s : PipeSys Unit (Fin 3),
    Lib.Reach PipeSys.step PipeSys.Init (fun _ _ => True) s ∧ (s.pipe ()).entered = [1, 2] ∧
      (s.pipe ()).taken = [(1, 1), (2, 2), (1, 0)] ∧ ¬ StreamSound s () := by
  obtain ⟨s, hs, hentered, htaken⟩ :=
    Lib.Reach.exists_run PipeSys.step (P := fun s : PipeSys Unit (Fin 3) =>
    (s.pipe ()).entered = [1, 2] ∧ (s.pipe ()).taken = [(1, 1), (2, 2), (1, 0)])
    [.write 0 () [1, 2], .lock 0, .copied 0 true, .copied 0 true, .read 1 () 2, .lock 1,
      .read 2 () 2, .lock 2, .copied 1 true] init_initPipes (by decide)
  refine ⟨s, hs, hentered, htaken, fun hsound => ?_⟩
  have hle := hsound.noUnderflow
  rw [hentered, htaken] at hle
  exact absurd hle (by decide)

end Xnix
