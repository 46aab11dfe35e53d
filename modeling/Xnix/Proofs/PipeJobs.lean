import Xnix.Pipe

/-!
# The loops of pipe operations

The arguments that `pipe_read` and `pipe_write` carry round their loops, in every run: a read in its
copy loop has bytes to copy and has put so many in the user's buffer, and a write has bytes left. So
a read returns 0 only where the source says so.
-/

namespace Xnix

open Function PipeSys

section Jobs
variable {κ Tid : Type} {s s' : PipeSys κ Tid} {t : Tid} {data : List UInt8}

def PipeJob.Ok (j : PipeJob κ) : Prop :=
  match j.pc with
  | .user => True
  | .readHead _ size | .readWait _ size | .readAsleep _ size => 0 < size ∧ j.ubuf = []
  | .copyOut _ n i _ => i < n ∧ j.ubuf.length = i
  | .writeHead _ data total | .writeWait _ data total | .writeAsleep _ data total =>
    total < data.length
  | .copyIn _ data total n i => total < data.length ∧ i < n

theorem jobs_init (h : s.Init) (t : Tid) : (s.job t).Ok := by
  simp only [PipeJob.Ok, h.job t]

variable [DecidableEq Tid]

theorem jobs_update {j : PipeJob κ} (h : ∀ u, u ≠ t → (s.job u).Ok)
    (hjob : s'.job = update s.job t j) (hj : j.Ok) : ∀ u, (s'.job u).Ok := by
  intro u
  by_cases hut : u = t
  · rw [hjob, hut, update_self]
    exact hj
  · rw [hjob, update_of_ne hut]
    exact h u hut

theorem jobs_start {pc : PipePc κ} (h : ∀ u, (s.job u).Ok) :
    ∀ u, u ≠ t → ((s.start t pc).job u).Ok := fun u hu => by
  have heq : (s.start t pc).job u = s.job u := update_of_ne hu ..
  rw [heq]
  exact h u

variable [DecidableEq κ] {o : κ}

theorem jobs_writeHead {total : ℕ} (h : ∀ u, u ≠ t → (s.job u).Ok)
    (htotal : total < data.length) : ∀ u, ((s.writeHead t o data total).job u).Ok := by
  unfold writeHead
  split
  · exact jobs_update h rfl trivial
  · split
    · refine jobs_update h rfl ⟨htotal, ?_⟩
      omega
    · exact jobs_update h rfl htotal

theorem jobs_readHead {size : ℕ} (h : ∀ u, (s.job u).Ok) (hpc : (s.job t).pc = .readHead o size) :
    ∀ u, ((s.readHead t o size).job u).Ok := by
  have hok := h t
  simp only [PipeJob.Ok, hpc] at hok
  unfold readHead
  split
  · refine jobs_update (fun u _ => h u) rfl ⟨by omega, ?_⟩
    simp [hok.2, setPipe]
  · split
    · exact jobs_update (fun u _ => h u) rfl trivial
    · exact jobs_update (fun u _ => h u) rfl hok

variable [Fintype Tid]

theorem jobs_copiedOut {n i : ℕ} {byte : UInt8} {ok : Bool} (h : ∀ u, (s.job u).Ok)
    (hpc : (s.job t).pc = .copyOut o n i byte) : ∀ u, ((s.copiedOut t o n i byte ok).job u).Ok := by
  have hok := h t
  simp only [PipeJob.Ok, hpc] at hok
  have hput : ∀ u, u ≠ t → ((s.putUser t byte).job u).Ok := fun u hu => by
    have heq : (s.putUser t byte).job u = s.job u := update_of_ne hu ..
    rw [heq]
    exact h u
  unfold copiedOut
  split
  · split
    · rename_i hlt
      refine jobs_update hput rfl ⟨hlt, ?_⟩
      simp [putUser, setPipe, hok.2]
    · exact jobs_update hput rfl trivial
  · exact jobs_update (fun u _ => h u) rfl trivial

theorem jobs_copiedIn {total n i : ℕ} {ok : Bool} (h : ∀ u, (s.job u).Ok)
    (hpc : (s.job t).pc = .copyIn o data total n i) :
    ∀ u, ((s.copiedIn t o data total n i ok).job u).Ok := by
  have hok := h t
  simp only [PipeJob.Ok, hpc] at hok
  have hstore : ∀ u, u ≠ t → ((s.storeByte t o data total n i).job u).Ok := fun u hu => by
    have heq : (s.storeByte t o data total n i).job u = s.job u := update_of_ne hu ..
    rw [heq]
    exact h u
  unfold copiedIn
  split
  · split
    · rename_i hlt
      exact jobs_update (fun u _ => h u) rfl ⟨hok.1, hlt⟩
    · split
      · exact jobs_update hstore rfl trivial
      · exact jobs_writeHead hstore (by omega)
  · exact jobs_update (fun u _ => h u) rfl trivial

theorem jobs_step {a : PipeAction κ Tid} (h : ∀ u, (s.job u).Ok) (hs : s.step a = some s') :
    ∀ u, (s'.job u).Ok := by
  cases a with
  | read t o size =>
    simp only [PipeSys.step] at hs
    split at hs
    · split at hs <;> cases hs
      · exact jobs_update (jobs_start h) rfl trivial
      · rename_i hsize
        exact jobs_update (fun u _ => h u) rfl ⟨Nat.pos_of_ne_zero hsize, rfl⟩
    · cases hs
      exact h
  | write t o data =>
    simp only [PipeSys.step] at hs
    split at hs
    · split at hs <;> cases hs
      · exact jobs_update (jobs_start h) rfl trivial
      · rename_i hsize
        exact jobs_update (fun u _ => h u) rfl (Nat.pos_of_ne_zero hsize)
    · cases hs
      exact h
  | lock t =>
    simp only [PipeSys.step] at hs
    split at hs <;> obtain rfl := Option.some.inj hs
    · exact jobs_readHead h ‹_›
    · rename_i hpc
      have hok := h t
      simp only [PipeJob.Ok, hpc] at hok
      exact jobs_writeHead (fun u _ => h u) hok
    · exact h
  | copied t ok =>
    simp only [PipeSys.step] at hs
    split at hs <;> cases hs
    · exact jobs_copiedOut h ‹_›
    · exact jobs_copiedIn h ‹_›
    · exact h
  | block t =>
    have hok := h t
    simp only [PipeSys.step] at hs
    split at hs <;> cases hs
    · rename_i hpc
      simp only [PipeJob.Ok, hpc] at hok
      refine jobs_update (fun u _ => h u) rfl ?_
      split <;> exact hok
    · rename_i hpc
      simp only [PipeJob.Ok, hpc] at hok
      refine jobs_update (fun u _ => h u) rfl ?_
      split <;> exact hok
    · exact h
  | resume t =>
    have hok := h t
    simp only [PipeSys.step, resume] at hs
    split at hs <;> cases hs
    · rename_i hpc
      simp only [PipeJob.Ok, hpc] at hok
      split
      · exact jobs_update (fun u _ => h u) rfl hok
      · exact h
    · rename_i hpc
      simp only [PipeJob.Ok, hpc] at hok
      split
      · exact jobs_update (fun u _ => h u) rfl hok
      · exact h
    · exact h
  | openRead o | openWrite o | poke u =>
    cases hs
    exact h
  | closeRead o =>
    cases hs
    unfold closeRead
    split <;> exact h
  | closeWrite o =>
    cases hs
    unfold closeWrite
    split <;> exact h

end Jobs

end Xnix
