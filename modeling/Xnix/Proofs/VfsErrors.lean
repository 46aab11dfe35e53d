import Xnix.Vfs

/-!
# Errors of file systems

`vfs_dispatch` puts the result of an operation into `data[0]` of its reply and leaves `data[1]` at
0. `vfsd_forward` hands the registers on as they are, and the client takes its result from
`data[1]`: what the VFS server itself refuses is reported there (`pathHandler_forward`), what the
file system refuses is not.
-/

namespace Xnix

variable {σ : Type}

def answer (op : Option (σ → CString → σ × ℤ)) (ctx : σ) (rel : CString) : σ × ℤ :=
  op.elim (ctx, -eNoSys) fun f => f ctx (cstr rel)

def VfsOps.stat (ops : VfsOps σ) : Option (σ → CString → σ × ℤ) :=
  ops.info.map fun f ctx rel => ((f ctx rel).1, (f ctx rel).2.1)

namespace VfsSys

variable {s : VfsSys σ} {pid op : BitVec 32} {path : CString}

/-- Where a path leads: an endpoint or the error of the server, and the path that the file system
gets. -/
def target (s : VfsSys σ) (pid : BitVec 32) (path : CString) : ℤ × CString :=
  if pathFits (cstr path) then
    s.server.lookup (Vfsd.resolvePath (s.server.getCwd pid) (cstr path)) vfsPathMax
  else (-eInval, [])

/-- What an operation on a path comes to: the error of the server, or the answer of the file system
behind the path. -/
def outcome (s : VfsSys σ) (op : VfsOps σ → Option (σ → CString → σ × ℤ)) (pid : BitVec 32)
    (path : CString) : σ × ℤ :=
  if (s.target pid path).1 < 0 then (s.ctx, (s.target pid path).1)
  else answer (op (s.ops (s.target pid path).1.toNat)) s.ctx (s.target pid path).2

/-- The path leads to a file system, and that one refuses the operation. -/
def FailsBehind (s : VfsSys σ) (op : VfsOps σ → Option (σ → CString → σ × ℤ)) (pid : BitVec 32)
    (path : CString) :
    Prop :=
  0 ≤ (s.target pid path).1 ∧
    (answer (op (s.ops (s.target pid path).1.toNat)) s.ctx (s.target pid path).2).2 < 0

def NamesDirectory (s : VfsSys σ) (pid : BitVec 32) (path : CString) : Prop :=
  0 ≤ (s.target pid path).1 ∧
    ∃ info size, (s.ops (s.target pid path).1.toNat).info = some info ∧
      (info s.ctx (cstr (s.target pid path).2)).2 = (0, size, vfsTypeDir)

/-- A call returns a negative value exactly when the operation failed, and then its error. -/
def Reported (ret result : ℤ) : Prop := (ret < 0 ↔ result < 0) ∧ (result < 0 → ret = result)

theorem cstr_cstr (path : CString) : cstr (cstr path) = cstr path := by
  unfold cstr
  rw [List.takeWhile_takeWhile]
  simp

theorem neg_le_toInt32 (n : ℕ) : -2 ^ 31 ≤ toInt32 n := by
  unfold toInt32
  split <;> omega

theorem toInt_ofInt {e : ℤ} (hlow : -2 ^ 31 ≤ e) (hneg : e < 0) :
    (BitVec.ofInt 32 e).toInt = e := by
  rw [BitVec.toInt_ofInt]
  exact Int.bmod_eq_of_le (by omega) (by omega)

/-- `vfsd_lookup` ends with an error of its own, or with the endpoint of a mount and a path that
fits a buffer. -/
theorem lookup_cases (server : Vfsd) (path : CString) :
    (∃ e ∈ [eInval, eNoEnt, eNameTooLong], (server.lookup path vfsPathMax).1 = -e) ∨
      ∃ ep, (server.lookup path vfsPathMax).1 = toInt32 ep ∧
      pathFits (server.lookup path vfsPathMax).2 = true := by
  unfold Vfsd.lookup
  split
  · exact .inl ⟨eInval, by simp, rfl⟩
  · split
    · exact .inl ⟨eNoEnt, by simp, rfl⟩
    · rename_i m _
      dsimp only
      split
      · exact .inr ⟨m.fsEp, rfl, rfl⟩
      · rename_i c rest hrel
        split <;> split
        · exact .inl ⟨eNameTooLong, by simp, rfl⟩
        · exact .inr ⟨m.fsEp, rfl, by simp_all [pathFits]⟩
        · exact .inl ⟨eNameTooLong, by simp, rfl⟩
        · exact .inr ⟨m.fsEp, rfl, by simp_all [pathFits]⟩

/-- The error for a path that leads nowhere is a 32 bit value, and the path that a file system gets
passes its check. -/
theorem target_spec (s : VfsSys σ) (pid : BitVec 32) (path : CString) :
    -2 ^ 31 ≤ (s.target pid path).1 ∧
    (0 ≤ (s.target pid path).1 → pathFits (s.target pid path).2 = true) := by
  unfold target
  split
  · rcases lookup_cases s.server (Vfsd.resolvePath (s.server.getCwd pid) (cstr path)) with
      ⟨e, he, hlookup⟩ | ⟨ep, hlookup, hfits⟩
    · have hrange : ∀ e ∈ [eInval, eNoEnt, eNameTooLong], -2 ^ 31 ≤ -e ∧ -e < 0 := by decide
      have := hrange e he
      rw [hlookup]
      exact ⟨this.1, fun h => absurd h (by omega)⟩
    · exact ⟨hlookup ▸ neg_le_toInt32 ep, fun _ => hfits⟩
  · decide

section FileSystem

variable {ops : VfsOps σ} {ctx : σ} {msg : VfsMessage}

theorem vfsDispatch_one (ops : VfsOps σ) (ctx : σ) (msg : VfsMessage) :
    (vfsDispatch ops ctx msg).2 1 = 0 := by
  unfold vfsDispatch
  split
  · split
    · rfl
    · split
      · dsimp only
        split <;> rfl
      · rfl
  · rfl

theorem vfsDispatch_info (hop : msg.regs 0 = udmVfsInfo) (hfits : pathFits msg.buffer = true)
    (h : (vfsDispatch ops ctx msg).2 3 = vfsTypeDir) :
    ∃ info size, ops.info = some info ∧ (info ctx (cstr msg.buffer)).2 = (0, size, vfsTypeDir) := by
  unfold vfsDispatch at h
  rw [if_pos hop] at h
  rcases hinfo : ops.info with _ | info
  · rw [hinfo] at h
    cases h
  · simp only [hinfo, hfits, if_true] at h
    by_cases hres : (info ctx (cstr msg.buffer)).2.1 = 0
    · rw [if_pos hres] at h
      exact ⟨info, _, rfl, Prod.ext hres (Prod.ext rfl h)⟩
    · rw [if_neg hres] at h
      cases h

def Serves (code : BitVec 32) (op : VfsOps σ → Option (σ → CString → σ × ℤ)) : Prop :=
  ∀ ops ctx msg, msg.regs 0 = code → pathFits msg.buffer = true →
    (vfsDispatch ops ctx msg).1 = (answer (op ops) ctx msg.buffer).1

theorem dispatchPath_eq (op : Option (σ → CString → σ × ℤ)) (hfits : pathFits msg.buffer = true) :
    dispatchPath op ctx msg = answer op ctx msg.buffer := by
  cases op with
  | none => rfl
  | some f => exact if_pos hfits

theorem serves_mkdir : Serves udmVfsMkdir (VfsOps.mkdir : VfsOps σ → _) := by
  intro ops ctx msg hop hfits
  unfold vfsDispatch
  rw [hop, if_neg (by decide), if_pos rfl, dispatchPath_eq _ hfits]

theorem serves_del : Serves udmVfsDel (VfsOps.del : VfsOps σ → _) := by
  intro ops ctx msg hop hfits
  unfold vfsDispatch
  rw [hop, if_neg (by decide), if_neg (by decide), if_pos rfl, dispatchPath_eq _ hfits]

theorem serves_stat : Serves udmVfsInfo (VfsOps.stat : VfsOps σ → _) := by
  intro ops ctx msg hop hfits
  unfold vfsDispatch VfsOps.stat
  rw [if_pos hop]
  rcases ops with ⟨_ | info, mkdir, del⟩
  · rfl
  · simp only [hfits, if_true]
    rfl

end FileSystem

theorem call_regs (s : VfsSys σ) (ep : ℤ) (msg : VfsMessage) :
    (s.call ep msg).2 = (vfsDispatch (s.ops ep.toNat) s.ctx msg).2 := rfl

/-- The reply to a request that is passed on: the error of the server in two registers, or the reply
of the file system. -/
theorem pathHandler_forward (s : VfsSys σ) (pid : BitVec 32) (path : CString)
    (hop : op ≠ udmVfsChdir)
    {code : VfsOps σ → Option (σ → CString → σ × ℤ)} (hserves : Serves op code) :
    (s.pathHandler (pathRequest op pid path)).1.ctx = (s.outcome code pid path).1 ∧
      ((s.pathHandler (pathRequest op pid path)).2 1).toInt = min 0 (s.target pid path).1 := by
  have hpid : (pathRequest op pid path).regs 1 = pid := rfl
  have hcode : (pathRequest op pid path).regs 0 = op := rfl
  have hbuffer : (pathRequest op pid path).buffer = cstr path := rfl
  obtain ⟨hlow, hfits⟩ := target_spec s pid path
  unfold pathHandler outcome
  rw [hcode, if_neg hop, hbuffer, hpid, cstr_cstr]
  by_cases hpath : pathFits (cstr path) = true
  · have htarget : s.target pid path =
        s.server.lookup (Vfsd.resolvePath (s.server.getCwd pid) (cstr path)) vfsPathMax :=
        if_pos hpath
    rw [if_pos hpath]
    unfold forward
    dsimp only
    rw [← htarget]
    by_cases hneg : (s.target pid path).1 < 0
    · simp only [hneg, if_true]
      refine ⟨trivial, ?_⟩
      rw [min_eq_right hneg.le]
      exact toInt_ofInt hlow hneg
    · simp only [hneg, if_false]
      refine ⟨hserves _ _ _ hcode (hfits (not_lt.mp hneg)), ?_⟩
      rw [min_eq_left (not_lt.mp hneg)]
      exact congrArg BitVec.toInt (vfsDispatch_one _ _ _)
  · have htarget : s.target pid path = (-eInval, []) := if_neg hpath
    rw [if_neg hpath, htarget]
    exact ⟨rfl, rfl⟩

/-- A call that returns the error of the server or 0 reports what the operation came to, unless the
file system refused it. -/
theorem reported_iff (code : VfsOps σ → Option (σ → CString → σ × ℤ)) :
    Reported (min 0 (s.target pid path).1) (s.outcome code pid path).2 ↔
    ¬ s.FailsBehind code pid path := by
  unfold Reported outcome FailsBehind
  by_cases hneg : (s.target pid path).1 < 0
  · rw [if_pos hneg, min_eq_right hneg.le]
    exact ⟨fun _ hfails => absurd hfails.1 (not_le.mpr hneg), fun _ => ⟨Iff.rfl, fun _ => rfl⟩⟩
  · rw [if_neg hneg, min_eq_left (not_lt.mp hneg)]
    refine ⟨fun h hfails => absurd (h.1.mpr hfails.2) (lt_irrefl 0), fun h => ?_⟩
    have hok : ¬ (answer (code (s.ops (s.target pid path).1.toNat)) s.ctx (s.target pid path).2).2 <
      0 := fun hlt => h ⟨not_lt.mp hneg, hlt⟩
    exact ⟨⟨fun h => absurd h (lt_irrefl 0), fun h => absurd h hok⟩, fun h => absurd h hok⟩

theorem namesDirectory_of_chdir (h : 0 ≤ (s.vfsChdir pid path).2) : s.NamesDirectory pid path := by
  obtain ⟨hlow, hfits⟩ := target_spec s pid path
  have hresult : (s.vfsChdir pid path).2 =
    (s.handleChdir (pathRequest udmVfsChdir pid path)).2.toInt := rfl
  have hpid : (pathRequest udmVfsChdir pid path).regs 1 = pid := rfl
  have hbuffer : (pathRequest udmVfsChdir pid path).buffer = cstr path := rfl
  rw [hresult] at h
  unfold handleChdir at h
  dsimp only at h
  rw [hbuffer, hpid, cstr_cstr] at h
  by_cases hpath : pathFits (cstr path) = true
  · have htarget : s.target pid path =
        s.server.lookup (Vfsd.resolvePath (s.server.getCwd pid) (cstr path)) vfsPathMax :=
        if_pos hpath
    rw [if_pos hpath] at h
    rw [← htarget] at h
    by_cases hneg : (s.target pid path).1 < 0
    · simp only [hneg, if_true] at h
      rw [toInt_ofInt hlow hneg] at h
      exact absurd hneg (not_lt.mpr h)
    · have hone : (s.call (s.target pid path).1
          ⟨Function.update zeroRegs 0 udmVfsInfo, (s.target pid path).2⟩).2 1 = 0 := by
        rw [call_regs, vfsDispatch_one]
      have hclear : ¬ (0 : BitVec 32).toInt < 0 := by decide
      simp only [hneg, if_false, hone, hclear] at h
      have htype : (s.call (s.target pid path).1
          ⟨Function.update zeroRegs 0 udmVfsInfo, (s.target pid path).2⟩).2 3 = vfsTypeDir := by
        by_contra hother
        rw [if_pos hother] at h
        exact absurd (show 0 ≤ (BitVec.ofInt 32 (-eNotDir)).toInt from h) (by decide)
      rw [call_regs] at htype
      exact ⟨not_lt.mp hneg, vfsDispatch_info rfl (hfits (not_lt.mp hneg)) htype⟩
  · rw [if_neg hpath] at h
    exact absurd (show 0 ≤ (BitVec.ofInt 32 (-eInval)).toInt from h) (by decide)

/-- `vfs_mkdir`, `vfs_delete` and `vfs_stat` do the operation behind the path, and return a negative
value exactly when it failed, and then its error, if and only if it is not the file system that
refuses. `vfs_chdir` succeeds only for a directory. -/
theorem errors_reach_caller (s : VfsSys σ) (pid : BitVec 32) (path : CString) :
    ((s.vfsMkdir pid path).1.ctx = (s.outcome (·.mkdir) pid path).1 ∧
      (Reported (s.vfsMkdir pid path).2 (s.outcome (·.mkdir) pid path).2 ↔
      ¬ s.FailsBehind (·.mkdir) pid path)) ∧
    ((s.vfsDelete pid path).1.ctx = (s.outcome (·.del) pid path).1 ∧
      (Reported (s.vfsDelete pid path).2 (s.outcome (·.del) pid path).2 ↔
      ¬ s.FailsBehind (·.del) pid path)) ∧
    ((s.vfsStat pid path).1.ctx = (s.outcome (·.stat) pid path).1 ∧
      (Reported (s.vfsStat pid path).2.1 (s.outcome (·.stat) pid path).2 ↔
      ¬ s.FailsBehind (·.stat) pid path)) ∧
    (0 ≤ (s.vfsChdir pid path).2 → s.NamesDirectory pid path) := by
  refine ⟨?_, ?_, ?_, namesDirectory_of_chdir⟩
  · obtain ⟨hctx, hret⟩ := pathHandler_forward s pid path (by decide) serves_mkdir
    exact ⟨hctx, (iff_of_eq (congrArg (Reported · _) hret)).trans (reported_iff _)⟩
  · obtain ⟨hctx, hret⟩ := pathHandler_forward s pid path (by decide) serves_del
    exact ⟨hctx, (iff_of_eq (congrArg (Reported · _) hret)).trans (reported_iff _)⟩
  · obtain ⟨hctx, hret⟩ := pathHandler_forward s pid path (by decide) serves_stat
    have hstat : (s.vfsStat pid path).1 = (s.pathHandler (pathRequest udmVfsInfo pid path)).1 ∧
        (s.vfsStat pid path).2.1 =
        min 0 ((s.pathHandler (pathRequest udmVfsInfo pid path)).2 1).toInt := by
      unfold vfsStat
      dsimp only
      split
      · exact ⟨rfl, (min_eq_right (le_of_lt ‹_›)).symm⟩
      · exact ⟨rfl, (min_eq_left (not_lt.mp ‹_›)).symm⟩
    rw [hstat.1, hstat.2, hret, ← min_assoc, min_self]
    exact ⟨hctx, reported_iff _⟩

/-- A file system that is full, at the root: `vfs_mkdir` of `/a` returns 0. -/
theorem mkdir_error_lost : ∃ s : VfsSys Unit, (s.outcome (·.mkdir) 1 [47, 97]).2 = -eNoSpc ∧
    (s.vfsMkdir 1 [47, 97]).2 = 0 :=
  ⟨⟨(Vfsd.init.mount [47] 3).1, fun _ => ⟨none, some fun _ _ => ((), -eNoSpc), none⟩, ()⟩,
    by decide, by decide⟩

end VfsSys

end Xnix
