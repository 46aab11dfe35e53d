import Xnix.Proofs.Counted

/-!
# Who can get a second handle

A process whose only handle to an object lacks `HANDLE_RIGHT_DUPLICATE` gets no second one by its
own calls, as long as it passes no handle to itself: `sys_handle_grant` to the caller's own pid and
an IPC message received in the sender's process reach `handle_transfer` without a check of the
right.
-/

namespace Xnix

open Function

variable {Pid Oid : Type} {t : HandleTable Oid} {p : Pid} {o : Oid}

section Sole
variable [DecidableEq Oid]

/-- The process has at most one entry naming `o`, and that entry lacks `HANDLE_RIGHT_DUPLICATE`. -/
structure Sole (k : Kernel Pid Oid) (p : Pid) (o : Oid) : Prop where
  one : (k.table p).countP (namesObject o) ≤ 1
  unduplicable : ∀ (i : ℕ) (e : HandleEntry Oid), (k.table p)[i]? = some (some e) →
    e.object = o → ¬ e.rights.has handleRightDuplicate

/-- A handle to `o` that `p` passes to itself has `HANDLE_RIGHT_DUPLICATE`. -/
def SelfPassSafe (p : Pid) (o : Oid) (w : World Pid Oid) : Call Pid Oid → Prop
  | .grant q pid srcH _ _ => q = p → pid = p → ∀ e, (w.kernel.table p)[srcH]? = some (some e) →
    e.object = o → e.rights.has handleRightDuplicate
  | .ipcPass src dst handles => src = p → dst = p → ∀ h ∈ handles, ∀ e,
    (w.kernel.table p)[h]? = some (some e) → e.object = o → e.rights.has handleRightDuplicate
  | _ => True

/-- The calls by which another process, or the parent of a new one, gives `p` handles. -/
def Call.Gives (p : Pid) : Call Pid Oid → Prop
  | .grant q pid _ _ _ => q ≠ p ∧ pid = p
  | .ipcPass src dst _ => src ≠ p ∧ dst = p
  | .exec _ child _ _ _ => child = p
  | _ => False

end Sole

section Edits
variable {k k' k'' : Kernel Pid Oid} [DecidableEq Oid]

/-- The entries of `p` naming `o` in `k'` were there in `k`. -/
structure NoNew (p : Pid) (o : Oid) (k k' : Kernel Pid Oid) : Prop where
  count : (k'.table p).countP (namesObject o) ≤ (k.table p).countP (namesObject o)
  old : ∀ (i : ℕ) (e : HandleEntry Oid), (k'.table p)[i]? = some (some e) → e.object = o →
    (k.table p)[i]? = some (some e)

theorem NoNew.of_eq (h : k'.table p = k.table p) : NoNew p o k k' :=
    ⟨by rw [h], fun i e he _ => h ▸ he⟩

theorem NoNew.trans (h : NoNew p o k k') (h' : NoNew p o k' k'') : NoNew p o k k'' :=
  ⟨h'.count.trans h.count, fun i e he heo => h.old i e (h'.old i e he heo) heo⟩

theorem Sole.of_noNew (hs : Sole k p o) (h : NoNew p o k k') : Sole k' p o :=
  ⟨h.count.trans hs.one, fun i e he heo => hs.unduplicable i e (h.old i e he heo) heo⟩

variable [DecidableEq Pid]

theorem NoNew.of_update {q : Pid} (htab : k'.table = update k.table q t)
    (hcount : q = p → t.countP (namesObject o) ≤ (k.table q).countP (namesObject o))
    (hold : q = p → ∀ (i : ℕ) (e : HandleEntry Oid), t[i]? = some (some e) → e.object = o →
      (k.table q)[i]? = some (some e)) : NoNew p o k k' := by
  by_cases hq : q = p
  · subst hq
    have ht : k'.table q = t := by rw [htab, update_self]
    exact ⟨ht ▸ hcount rfl, fun i e he => hold rfl i e (ht ▸ he)⟩
  · exact .of_eq (by rw [htab, update_of_ne (Ne.symm hq)])

theorem NoNew.of_alloc {e : HandleEntry Oid} {q : Pid} {h : ℕ}
    (hne : q = p → e.object ≠ o) (ha : Allocated (k.table q) e t (.at h))
    (htab : k'.table = update k.table q t) : NoNew p o k k' := by
  refine .of_update htab (fun hq => ?_) fun hq i v hv hvo => ?_
  · have hcount := ha.countP (p := namesObject o) rfl
    rw [if_neg (by simpa [namesObject] using hne hq)] at hcount
    omega
  · rcases ha.getElem?.mp hv with ⟨-, rfl⟩ | ⟨-, hv⟩
    · exact absurd hvo (hne hq)
    · exact hv

theorem NoNew.transfer {src dst : Pid} {srcH hint : ℕ} {rights : Rights}
    (h : Transferred k src srcH dst hint rights k')
    (hne : dst = p → ∀ e, (k.table src)[srcH]? = some (some e) → e.object ≠ o) :
    NoNew p o k k' := by
  cases h with
  | refused htab _ => exact .of_eq (by rw [htab])
  | @placed e e' t' h he _ hhold _ ha htab _ =>
    have hobj : e'.object = e.object := congrArg Prod.snd hhold
    exact .of_alloc (fun hd => hobj ▸ hne hd e he) ha htab
  | stray _ _ _ _ hext _ htab _ _ =>
    refine .of_update htab (fun _ => (hext.countP rfl).le) fun _ i e he _ => ?_
    exact hext.getElem?.mp he

theorem NoNew.edit {x : Edit Pid Oid} (h : EditStep k x k') (hfresh : x ≠ .fresh p o)
    (hne : ∀ src srcH hint rights, x = .transfer src srcH p hint rights →
      ∀ e, (k.table src)[srcH]? = some (some e) → e.object ≠ o) : NoNew p o k k' := by
  cases h with
  | other htab _ => exact .of_eq (by rw [htab])
  | @fresh _ q e t' h _ ha htab _ =>
    refine .of_alloc (fun hq heo => hfresh ?_) ha htab
    rw [hq, heo]
  | @transfer _ src dst srcH hint rights h =>
    exact .transfer h fun hd => hne src srcH hint rights (by rw [hd])
  | clear htab _ =>
    exact .of_update htab (fun _ => Lib.countP_set_le _ _ _ _ rfl)
      fun _ i e he _ => getElem?_of_set_none he
  | drop htab _ => exact .of_update htab (fun _ => by simp) fun _ i e he => by simp at he
  | make _ htab _ =>
    refine .of_update htab (fun _ => ?_) fun _ i e he _ => ?_
    · rw [handleTableCreate, List.countP_replicate]
      simp [namesObject]
    · cases List.eq_of_mem_replicate (List.mem_of_getElem? he)

end Edits

section Runs
variable {w w' : World Pid Oid} {c : Call Pid Oid}

/-- What is transferred to `p`, when nobody else gives it anything, comes from `p` and has
`HANDLE_RIGHT_DUPLICATE` if it names `o`. -/
theorem allows_transfer (hc : SelfPassSafe p o w c) (hg : ¬ c.Gives p) {src : Pid} {srcH hint : ℕ}
    {rights : Rights} (h : c.Allows w (.transfer src srcH p hint rights)) :
    src = p ∧ ∀ e, (w.kernel.table p)[srcH]? = some (some e) → e.object = o →
    e.rights.has handleRightDuplicate := by
  cases c with
  | duplicate q i x n =>
    obtain ⟨rfl, rfl, rfl, -, e, he, hd⟩ := h
    refine ⟨rfl, fun e' he' _ => ?_⟩
    cases he.symm.trans he'
    exact hd
  | grant q pid i n r =>
    obtain ⟨rfl, rfl, rfl, -⟩ := h
    have hq : src = p := by
      by_contra hne
      exact hg ⟨hne, rfl⟩
    exact ⟨hq, hc hq rfl⟩
  | ipcPass s d hs =>
    obtain ⟨rfl, hi, rfl, -⟩ := h
    have hq : src = p := by
      by_contra hne
      exact hg ⟨hne, rfl⟩
    exact ⟨hq, hc hq rfl srcH hi⟩
  | exec q child hs fl ld =>
    obtain ⟨-, rfl, -⟩ := h
    exact absurd rfl hg
  | _ => exact h.elim

theorem allows_fresh (ho : (w.kernel.obj o).isSome) (h : c.Allows w (.fresh p o)) : False := by
  have hn : w.kernel.obj o = none := by
    cases c with
    | endpointCreate _ _ _ | eventCreate _ _ | pipeCreate _ _ _ | shmCreate _ _ _
    | physmemCreate _ _ _ _ | procWatch _ _ _ _ _ =>
      obtain ⟨-, rfl, hn⟩ := h
      exact hn
    | _ => exact h.elim
  rw [hn] at ho
  cases ho

variable [DecidableEq Pid] [DecidableEq Oid]

theorem Sole.step (hs : Sole w.kernel p o) (hc : SelfPassSafe p o w c) (hg : ¬ c.Gives p)
    (ho : (w.kernel.obj o).isSome) (h : step w c = some w') : Sole w'.kernel p o := by
  refine hs.of_noNew ((step_edits h).invariant
    (fun k x k' hx hk hedit => hk.trans (.edit hedit ?_ ?_)) (.of_eq rfl))
  · rintro rfl
    exact allows_fresh ho hx
  · rintro src srcH hint rights rfl e he heo
    obtain ⟨rfl, hdup⟩ := allows_transfer hc hg hx
    have hw := hk.old srcH e he heo
    exact hs.unduplicable srcH e hw heo (hdup e hw heo)

variable [Fintype Pid] [Fintype Oid]

end Runs

/-- A process that keeps one handle to an event, with only `HANDLE_RIGHT_TRANSFER`. -/
def soleRun : List (Call (Fin 1) (Fin 1)) :=
  [.eventCreate 0 0, .grant 0 0 0 .null handleRightTransfer, .close 0 0]

/-- The entries of the process after `soleRun` and further calls, with two counts of the event. -/
def soleEntries (more : List (Call (Fin 1) (Fin 1))) :
    Option (List (HandleEntry (Fin 1)) × ℕ × Option ℕ) :=
  (Lib.run step (bootWorld (Fin 1) (Fin 1)) (soleRun ++ more)).map fun w =>
    ((w.kernel.table 0).filterMap id, (w.kernel.table 0).countP (namesObject 0),
      (w.kernel.obj 0).map Object.refcount)

theorem sole_after_soleRun : ∃ w, Lib.run step (bootWorld (Fin 1) (Fin 1)) soleRun = some w ∧
    Lib.Reach step Boot HintSafe w ∧ (w.kernel.table 0).countP (namesObject 0) = 1 ∧
    (w.kernel.obj 0).isSome ∧ Sole w.kernel 0 0 := by
  have hrun : soleEntries [] = some ([⟨.event, 0, handleRightTransfer, []⟩], 1, some 1) := by
    decide +kernel
  obtain ⟨w, hw, heq⟩ := Option.map_eq_some_iff.mp hrun
  simp only [Prod.mk.injEq] at heq
  obtain ⟨hent, hcount, hobj⟩ := heq
  refine ⟨w, hw, .of_run soleRun (.init (boot_bootWorld _ _)) (by simp [soleRun, HintSafe]) hw,
    hcount, by rw [← Option.isSome_map, hobj]; rfl, hcount.le, fun i e he _ => ?_⟩
  have hmem : e ∈ (w.kernel.table 0).filterMap id :=
    List.mem_filterMap.mpr ⟨some e, List.mem_of_getElem? he, rfl⟩
  rw [hent, List.mem_singleton] at hmem
  subst hmem
  decide

end Xnix
