import Xnix.Proofs.Transfer

/-!
# What a system call does to the tables

Every system call is a path of edits: an entry for a new object, a transfer, a slot cleared, a table
dropped or made. `step_edits` says which edits each call can make; the invariants of tables and
trails are then proved edit by edit.
-/

namespace Xnix

open Function Option Untouched

variable {Pid Oid : Type} {type : HandleType}

inductive Edit (Pid Oid : Type)
  | other
  | fresh (p : Pid) (o : Oid)
  | transfer (src : Pid) (srcH : ℕ) (dst : Pid) (hint : ℕ) (rights : Rights)
  | clear (p : Pid) (h : ℕ)
  | drop (p : Pid)
  | make (p : Pid)

section EditStep
variable [DecidableEq Pid]

inductive EditStep : Kernel Pid Oid → Edit Pid Oid → Kernel Pid Oid → Prop
  | other {k k' : Kernel Pid Oid} : k'.table = k.table → k'.trail = k.trail →
      EditStep k .other k'
  | fresh {k k' : Kernel Pid Oid} {p : Pid} {e : HandleEntry Oid} {t' : HandleTable Oid} {h : ℕ} :
      e.rights = handleRightAll → Allocated (k.table p) e t' (.at h) →
      k'.table = update k.table p t' → k'.trail = .fresh p (.at h) e :: k.trail →
      EditStep k (.fresh p e.object) k'
  | transfer {k k' : Kernel Pid Oid} {src dst : Pid} {srcH hint : ℕ} {rights : Rights} :
      Transferred k src srcH dst hint rights k' →
      EditStep k (.transfer src srcH dst hint rights) k'
  | clear {k k' : Kernel Pid Oid} {p : Pid} {h : ℕ} :
      k'.table = update k.table p ((k.table p).set h none) → k'.trail = k.trail →
      EditStep k (.clear p h) k'
  | drop {k k' : Kernel Pid Oid} {p : Pid} :
      k'.table = update k.table p [] → k'.trail = k.trail → EditStep k (.drop p) k'
  | make {k k' : Kernel Pid Oid} {p : Pid} : k.table p = [] →
      k'.table = update k.table p handleTableCreate → k'.trail = k.trail →
      EditStep k (.make p) k'

/-- The kernel `k'` is reached from `k` by edits that all meet `allowed`. -/
def Edited (allowed : Edit Pid Oid → Prop) (k k' : Kernel Pid Oid) : Prop :=
  ∃ l, Lib.Path EditStep k l k' ∧ ∀ x ∈ l, allowed x

variable {allowed : Edit Pid Oid → Prop} {k k' k'' : Kernel Pid Oid}

theorem Edited.refl (k : Kernel Pid Oid) : Edited allowed k k := ⟨[], .nil, by simp⟩

theorem Edited.single {x : Edit Pid Oid} (h : EditStep k x k') (hx : allowed x) :
    Edited allowed k k' := ⟨[x], .single h, by simpa using hx⟩

theorem Edited.trans (h : Edited allowed k k') (h' : Edited allowed k' k'') :
    Edited allowed k k'' := by
  obtain ⟨l, hl, ha⟩ := h
  obtain ⟨l', hl', ha'⟩ := h'
  refine ⟨l ++ l', hl.append hl', fun x hx => ?_⟩
  rcases List.mem_append.mp hx with hx | hx
  · exact ha x hx
  · exact ha' x hx

theorem Edited.invariant {P : Kernel Pid Oid → Prop}
    (hstep : ∀ k x k', allowed x → P k → EditStep k x k' → P k') (h : Edited allowed k k')
    (hk : P k) : P k' := by
  obtain ⟨l, hl, ha⟩ := h
  exact hl.invariant hstep ha hk

theorem Untouched.edited (h : Untouched k k') (hx : allowed .other) : Edited allowed k k' :=
  .single (.other (table_congr h.1) h.2) hx

end EditStep

section Functions
variable {allowed : Edit Pid Oid → Prop} {k k' : Kernel Pid Oid} {p src dst : Pid} {o : Oid}
  [DecidableEq Oid] {notif : Option Oid}

theorem handleTableDestroy_untouched : ∀ (t : HandleTable Oid) {k k' : Kernel Pid Oid},
    handleTableDestroy k t = some k' → Untouched k k'
  | [], k, k', h => by
    cases h
    exact .refl k
  | none :: t, k, k', h => handleTableDestroy_untouched t h
  | some e :: t, k, k', h => by
    simp only [handleTableDestroy, bind_eq_bind, bind_eq_some_iff] at h
    obtain ⟨k1, hk1, h⟩ := h
    exact (handleObjectDestroy_untouched hk1).trans (handleTableDestroy_untouched t h)

theorem kfreeObj_untouched : ∀ k k' : Kernel Pid Oid, kfreeObj o k = some k' → Untouched k k' := by
  intro k k' h
  cases h
  exact ⟨rfl, rfl⟩

theorem peekEntry_untouched {h : ℕ} {r : Option (HandleEntry Oid)}
    (hp : peekEntry k p h = some (k', r)) :
    Untouched k k' ∧ ∀ e, r = some e → (k.table p)[h]? = some (some e) := by
  unfold peekEntry at hp
  simp only [bind_eq_bind, bind_eq_some_iff] at hp
  obtain ⟨⟨k1, r1⟩, hk1, hp⟩ := hp
  obtain ⟨hu, he⟩ := handleAcquire_cases hk1
  rcases r1 with _ | e
  · cases hp
    exact ⟨hu, fun _ h => by cases h⟩
  · simp only [bind_eq_some_iff] at hp
    obtain ⟨k2, hk2, hp⟩ := hp
    cases hp
    exact ⟨hu.trans (handleObjectPut_untouched hk2), he⟩

theorem refEvent_untouched (h : refEvent k notif = some k') : Untouched k k' := by
  rcases notif with _ | o
  · cases h
    exact .refl k
  · exact handleObjectGet_untouched h

theorem unrefEvent_untouched (h : unrefEvent k notif = some k') : Untouched k k' := by
  rcases notif with _ | o
  · cases h
    exact .refl k
  · exact handleObjectPut_untouched h

variable [DecidableEq Pid] {r : ℤ} {flags : InheritFlags} {bits : BitVec 32} {srcH hint : ℕ}
  {name : UserName} {hs : List SpawnHandle}

omit [DecidableEq Oid] in
theorem handleAlloc_edited {name : CString} {r : Option ℕ}
    (h : handleAlloc k p type o name = some (k', r)) (hother : allowed .other)
    (hfresh : allowed (.fresh p o)) : Edited allowed k k' := by
  unfold handleAlloc at h
  rw [map_eq_some_iff] at h
  obtain ⟨⟨k1, s⟩, hs, h⟩ := h
  rcases allocSlot_cases hs with ⟨-, rfl, rfl⟩ | ⟨pr, t', hpr, rfl, ha, -, hns⟩
  · cases h
    exact .refl _
  have htab : (k.advance.setTable p t').table = update k.table p t' :=
    table_setTable k.advance t' hpr
  have htrail : (k.advance.setTable p t').trail = k.trail := setTable_trail k.advance p t'
  rcases s with _ | i | i
  · cases h
    cases ha
    refine .single (.other ?_ htrail) hother
    rw [htab, update_eq_self]
  · cases h
    refine .single (EditStep.fresh rfl ha htab ?_) hfresh
    show _ :: (k.advance.setTable p t').trail = _
    rw [htrail]
  · exact absurd rfl (hns (fun h => absurd rfl h) (hintOk_invalid _) i)

theorem handleFree_edited {h : ℕ} (hf : handleFree k p h = some k')
    (hclear : allowed (.clear p h)) : Edited allowed k k' := by
  unfold handleFree at hf
  split at hf
  · rename_i e he
    rw [map_eq_some_iff] at hf
    obtain ⟨k1, hd, rfl⟩ := hf
    have hu := handleObjectDestroy_untouched hd
    have hpr : ∃ pr, k1.proc p = some pr := by
      rw [hu.1]
      rcases hp : k.proc p with _ | pr
      · rw [table_of_proc_none k hp] at he
        simp at he
      · exact ⟨pr, rfl⟩
    obtain ⟨pr, hpr⟩ := hpr
    refine .single (.clear ?_ ?_) hclear
    · rw [table_setTable k1 _ hpr, table_congr hu.1]
    · rw [setTable_trail, hu.2]
  · cases hf
    exact .refl k

theorem handleTransfer_edited {name : Option CString} {rights : Rights} {r : Option ℕ}
    (h : handleTransfer k src srcH dst name hint rights = some (k', r))
    (hx : allowed (.transfer src srcH dst hint rights)) : Edited allowed k k' :=
  .single (.transfer (handleTransfer_cases h)) hx

theorem processDestroy_edited (h : processDestroy k p = some k') (hdrop : allowed (.drop p)) :
    Edited allowed k k' := by
  unfold processDestroy at h
  rw [map_eq_some_iff] at h
  obtain ⟨k1, hk1, rfl⟩ := h
  have hu := handleTableDestroy_untouched _ hk1
  refine .single (.drop ?_ hu.2) hdrop
  rw [table_setProc, table_congr hu.1]

theorem createWith_edited {ob : Object Pid Oid} {name : CString}
    {undo : Kernel Pid Oid → Option (Kernel Pid Oid)} {r : Option ℕ}
    (hundo : ∀ k k', undo k = some k' → Untouched k k')
    (h : createWith k p type o ob name undo = some (k', r)) (hother : allowed .other)
    (hfresh : allowed (.fresh p o)) : Edited allowed k k' := by
  unfold createWith at h
  split_ifs at h
  · simp only [bind_eq_bind, bind_eq_some_iff] at h
    obtain ⟨⟨k1, r1⟩, hk1, h⟩ := h
    have h0 : Edited allowed k (k.advance.setObj o (some ob)) := edited ⟨rfl, rfl⟩ hother
    have h1 := h0.trans (handleAlloc_edited hk1 hother hfresh)
    rcases r1 with _ | i
    · simp only [bind_eq_some_iff] at h
      obtain ⟨k2, hk2, h⟩ := h
      cases h
      exact h1.trans ((hundo _ _ hk2).edited hother)
    · cases h
      exact h1
  · cases h
    exact edited ⟨rfl, rfl⟩ hother

theorem pipeCreate_edited {r : Option (ℕ × ℕ)} (h : pipeCreate k p o = some (k', r))
    (hother : allowed .other) (hfresh : allowed (.fresh p o)) (hclear : ∀ i, allowed (.clear p i)) :
    Edited allowed k k' := by
  unfold pipeCreate at h
  split_ifs at h
  · simp only [bind_eq_bind, bind_eq_some_iff] at h
    obtain ⟨⟨k1, r1⟩, hk1, h⟩ := h
    have h0 : Edited allowed k (k.advance.setObj o (some ⟨.pipe 1 1, 2, Nat.two_pos⟩)) :=
      edited ⟨rfl, rfl⟩ hother
    have h1 := h0.trans (handleAlloc_edited hk1 hother hfresh)
    rcases r1 with _ | rh
    · simp only [bind_eq_some_iff] at h
      obtain ⟨k2, hk2, h⟩ := h
      cases h
      exact h1.trans ((kfreeObj_untouched _ _ hk2).edited hother)
    · simp only [bind_eq_some_iff] at h
      obtain ⟨⟨k2, r2⟩, hk2, h⟩ := h
      have h2 := h1.trans (handleAlloc_edited hk2 hother hfresh)
      rcases r2 with _ | wh
      · simp only [bind_eq_some_iff] at h
        obtain ⟨k3, hk3, k4, hk4, h⟩ := h
        cases h
        exact (h2.trans (handleFree_edited hk3 (hclear rh))).trans
          ((handleObjectDestroy_untouched hk4).edited hother)
      · cases h
        exact h2
  · cases h
    exact edited ⟨rfl, rfl⟩ hother

theorem sysPipeCreate_edited {copied : Bool} (h : sysPipeCreate k p o copied = some (k', r))
    (hother : allowed .other) (hfresh : allowed (.fresh p o)) (hclear : ∀ i, allowed (.clear p i)) :
    Edited allowed k k' := by
  unfold sysPipeCreate at h
  simp only [bind_eq_bind, bind_eq_some_iff] at h
  obtain ⟨⟨k1, r1⟩, hk1, h⟩ := h
  have h1 := pipeCreate_edited hk1 hother hfresh hclear
  rcases r1 with _ | ⟨rh, wh⟩
  · cases h
    exact h1
  · simp only at h
    split_ifs at h
    · cases h
      exact h1
    · simp only [bind_eq_some_iff] at h
      obtain ⟨k2, hk2, k3, hk3, h⟩ := h
      cases h
      exact (h1.trans (handleFree_edited hk2 (hclear rh))).trans
        (handleFree_edited hk3 (hclear wh))

theorem sysHandleDuplicate_cases (h : sysHandleDuplicate k p srcH hint name = some (k', r)) :
    ∃ k1, Untouched k k1 ∧ (k' = k1 ∨ (Transferred k1 p srcH p hint 0#32 k' ∧
      ∃ e, (k.table p)[srcH]? = some (some e) ∧ e.rights.has handleRightDuplicate)) := by
  unfold sysHandleDuplicate at h
  simp only [bind_eq_bind, bind_eq_some_iff] at h
  obtain ⟨⟨k1, r1⟩, hk1, h⟩ := h
  obtain ⟨hu, he⟩ := peekEntry_untouched hk1
  refine ⟨k1, hu, ?_⟩
  rcases r1 with _ | e
  · cases h
    exact .inl rfl
  simp only at h
  split_ifs at h with hdup
  · cases h
    exact .inl rfl
  have hdup : e.rights.has handleRightDuplicate := by simpa using hdup
  split at h
  · cases h
    exact .inl rfl
  · rw [map_eq_some_iff] at h
    obtain ⟨⟨k2, r2⟩, hk2, h⟩ := h
    cases h
    exact .inr ⟨handleTransfer_cases hk2, e, he e rfl, hdup⟩

theorem sysHandleDuplicate_edited (h : sysHandleDuplicate k p srcH hint name = some (k', r))
    (hother : allowed .other)
    (hx : ∀ e, (k.table p)[srcH]? = some (some e) → e.rights.has handleRightDuplicate →
      allowed (.transfer p srcH p hint 0#32)) : Edited allowed k k' := by
  obtain ⟨k1, hu, rfl | ⟨ht, e, he, hdup⟩⟩ := sysHandleDuplicate_cases h
  · exact hu.edited hother
  · exact (hu.edited hother).trans (.single (.transfer ht) (hx e he hdup))

theorem sysHandleGrant_edited {pid : Pid} {rights : Rights}
    (h : sysHandleGrant k p pid srcH name rights = some (k', r)) (hother : allowed .other)
    (hx : allowed (.transfer p srcH pid handleInvalid rights)) : Edited allowed k k' := by
  unfold sysHandleGrant at h
  split at h
  · cases h
    exact .refl _
  split_ifs at h
  · cases h
    exact .refl _
  simp only [bind_eq_bind, bind_eq_some_iff] at h
  obtain ⟨⟨k1, r1⟩, hk1, h⟩ := h
  have h1 : Edited allowed k k1 := (peekEntry_untouched hk1).1.edited hother
  rcases r1 with _ | e
  · cases h
    exact h1
  simp only at h
  split_ifs at h
  · cases h
    exact h1
  · cases h
    exact h1
  · split at h
    · cases h
      exact h1
    · rw [map_eq_some_iff] at h
      obtain ⟨⟨k2, r2⟩, hk2, h⟩ := h
      cases h
      exact h1.trans (handleTransfer_edited hk2 hx)

theorem ipcTransferHandles_edited : ∀ (hs : List ℕ) {k k' : Kernel Pid Oid} {got : List ℕ},
    ipcTransferHandles k src dst hs = some (k', got) →
    (∀ h ∈ hs, allowed (.transfer src h dst handleInvalid 0#32)) → Edited allowed k k'
  | [], k, k', got, h, _ => by
    cases h
    exact .refl k
  | i :: hs, k, k', got, h, hx => by
    simp only [ipcTransferHandles, bind_eq_bind, bind_eq_some_iff] at h
    obtain ⟨⟨k1, r1⟩, hk1, ⟨k2, got₂⟩, hk2, h⟩ := h
    cases h
    exact (handleTransfer_edited hk1 (hx i (List.mem_cons_self ..))).trans
      (ipcTransferHandles_edited hs hk2 fun h hh => hx h (List.mem_cons_of_mem _ hh))

theorem ipcCopyHandles_edited {hs got : List ℕ} (h : ipcCopyHandles k src dst hs = some (k', got))
    (hx : ∀ h ∈ hs, allowed (.transfer src h dst handleInvalid 0#32)) : Edited allowed k k' := by
  unfold ipcCopyHandles at h
  split_ifs at h
  · split at h
    · split_ifs at h
      · exact ipcTransferHandles_edited hs h hx
      · cases h
        exact .refl _
    · cases h
      exact .refl _
  · cases h
    exact .refl _

theorem processWatchCreate_edited {target : Pid} {h : ℕ} {r : Option ℕ}
    (hw : processWatchCreate k p target h bits o = some (k', r)) (hother : allowed .other)
    (hfresh : allowed (.fresh p o)) : Edited allowed k k' := by
  unfold processWatchCreate at hw
  split at hw
  · cases hw
    exact .refl _
  rename_i pr _
  split_ifs at hw
  · cases hw
    exact .refl _
  simp only [bind_eq_bind, bind_eq_some_iff] at hw
  obtain ⟨⟨k1, r1⟩, hk1, hw⟩ := hw
  have h1 : Edited allowed k k1 := (handleAcquire_cases hk1).1.edited hother
  rcases r1 with _ | e
  · cases hw
    exact h1
  simp only at hw
  split_ifs at hw
  · simp only [bind_eq_some_iff] at hw
    obtain ⟨⟨k2, r2⟩, hk2, hw⟩ := hw
    have hnew : Edited allowed k1 (k1.advance.setObj o
        (some (oneRef (.watch (newWatch target pr.zombie e.object bits))))) :=
      edited ⟨rfl, rfl⟩ hother
    have h2 := (h1.trans hnew).trans (handleAlloc_edited hk2 hother hfresh)
    rcases r2 with _ | wh
    · simp only [bind_eq_some_iff] at hw
      obtain ⟨k3, hk3, hw⟩ := hw
      cases hw
      exact h2.trans ((handleObjectPut_untouched hk3).edited hother)
    · cases hw
      exact h2
  · simp only [bind_eq_some_iff] at hw
    obtain ⟨k2, hk2, hw⟩ := hw
    cases hw
    have hadv : Edited allowed k1 k1.advance := edited ⟨rfl, rfl⟩ hother
    exact (h1.trans hadv).trans ((handleObjectPut_untouched hk2).edited hother)

theorem irqBindEvent_untouched {irq : ℕ} (h : irqBindEvent k irq p notif bits = some (k', r)) :
    Untouched k k' := by
  unfold irqBindEvent at h
  split_ifs at h
  · split at h
    · cases h
      exact .refl _
    · simp only [bind_eq_bind, bind_eq_some_iff] at h
      obtain ⟨k1, hk1, h⟩ := h
      cases h
      have hu := refEvent_untouched hk1
      exact ⟨hu.1, hu.2⟩
  · cases h
    exact .refl _

theorem sysIrqBind_untouched {irq h : ℕ} (hb : sysIrqBind k p irq h bits = some (k', r)) :
    Untouched k k' := by
  unfold sysIrqBind at hb
  split at hb
  · cases hb
    exact .refl _
  split_ifs at hb
  · cases hb
    exact .refl _
  · exact irqBindEvent_untouched hb
  · simp only [bind_eq_bind, bind_eq_some_iff] at hb
    obtain ⟨⟨k1, r1⟩, hk1, hb⟩ := hb
    have h1 := (handleAcquire_cases hk1).1
    rcases r1 with _ | e
    · cases hb
      exact h1
    · simp only [bind_eq_some_iff] at hb
      obtain ⟨⟨k2, r2⟩, hk2, k3, hk3, hb⟩ := hb
      cases hb
      exact (h1.trans (irqBindEvent_untouched hk2)).trans (handleObjectPut_untouched hk3)

theorem irqUnbindEvent_untouched {irq : ℕ} (h : irqUnbindEvent k irq p = some (k', r)) :
    Untouched k k' := by
  unfold irqUnbindEvent at h
  split_ifs at h
  · split at h
    · cases h
      exact .refl _
    · simp only [bind_eq_bind, bind_eq_some_iff] at h
      obtain ⟨k1, hk1, h⟩ := h
      cases h
      have hu := unrefEvent_untouched hk1
      exact ⟨hu.1, hu.2⟩
  · cases h
    exact .refl _

theorem spawnTransferHandles_edited : ∀ (hs : List SpawnHandle) {k k' : Kernel Pid Oid},
    spawnTransferHandles k dst src hs = some k' →
    (∀ h r, allowed (.transfer src h dst handleInvalid r)) → Edited allowed k k'
  | [], k, k', h, _ => by
    cases h
    exact .refl k
  | s :: hs, k, k', h, hx => by
    simp only [spawnTransferHandles, bind_eq_bind, bind_eq_some_iff] at h
    obtain ⟨⟨k1, r1⟩, hk1, h⟩ := h
    exact (handleTransfer_edited hk1 (hx s.src s.rights)).trans
      (spawnTransferHandles_edited hs h hx)

theorem spawnInheritByNames_edited : ∀ (ns : List CString) {k k' : Kernel Pid Oid},
    spawnInheritByNames k dst src ns = some k' →
    (∀ h r, allowed (.transfer src h dst handleInvalid r)) → Edited allowed k k'
  | [], k, k', h, _ => by
    cases h
    exact .refl k
  | n :: ns, k, k', h, hx => by
    unfold spawnInheritByNames at h
    split at h
    · exact spawnInheritByNames_edited ns h hx
    · split_ifs at h
      · simp only [bind_eq_bind, bind_eq_some_iff] at h
        obtain ⟨⟨k1, r1⟩, hk1, h⟩ := h
        exact (handleTransfer_edited hk1 (hx _ _)).trans (spawnInheritByNames_edited ns h hx)
      · exact spawnInheritByNames_edited ns h hx

theorem spawnInheritSlot_edited {needName : Bool} {i : ℕ}
    (h : spawnInheritSlot k dst src needName i = some k')
    (hx : ∀ h r, allowed (.transfer src h dst handleInvalid r)) : Edited allowed k k' := by
  unfold spawnInheritSlot at h
  split at h
  · split_ifs at h
    · cases h
      exact .refl k
    · rw [map_eq_some_iff] at h
      obtain ⟨⟨k1, r1⟩, hk1, rfl⟩ := h
      exact handleTransfer_edited hk1 (hx _ _)
    · rw [map_eq_some_iff] at h
      obtain ⟨⟨k1, r1⟩, hk1, rfl⟩ := h
      exact handleTransfer_edited hk1 (hx _ _)
    · cases h
      exact .refl k
  · cases h
    exact .refl k

theorem spawnInheritSlots_edited {needName : Bool} : ∀ (is : List ℕ) {k k' : Kernel Pid Oid},
    spawnInheritSlots k dst src needName is = some k' →
    (∀ h r, allowed (.transfer src h dst handleInvalid r)) → Edited allowed k k'
  | [], k, k', h, _ => by
    cases h
    exact .refl k
  | i :: is, k, k', h, hx => by
    simp only [spawnInheritSlots, bind_eq_bind, bind_eq_some_iff] at h
    obtain ⟨k1, hk1, h⟩ := h
    exact (spawnInheritSlot_edited hk1 hx).trans (spawnInheritSlots_edited is h hx)

theorem spawnInherit_edited (h : spawnInherit k dst src flags = some k')
    (hx : ∀ h r, allowed (.transfer src h dst handleInvalid r)) : Edited allowed k k' := by
  have hrest : ∀ {k1 : Kernel Pid Oid}, (if flags.all then spawnInheritAllHandles k1 dst src
      else if flags.named then spawnInheritNamedHandles k1 dst src else some k1) = some k' →
      Edited allowed k1 k' := by
    intro k1 h
    split_ifs at h
    · exact spawnInheritSlots_edited _ h hx
    · exact spawnInheritSlots_edited _ h hx
    · cases h
      exact .refl _
  unfold spawnInherit at h
  rcases hstdio : flags.stdio with _ | _
  · simp only [hstdio, Bool.false_eq_true, if_false] at h
    exact hrest h
  · simp only [hstdio, if_true, bind_eq_bind, bind_eq_some_iff] at h
    obtain ⟨k1, hk1, h⟩ := h
    exact (spawnInheritByNames_edited _ hk1 hx).trans (hrest h)

theorem spawnCore_edited {child : Pid} {loads : Bool}
    (h : spawnCore k p child hs flags loads = some (k', r)) (hdrop : allowed (.drop child))
    (hx : ∀ h r, allowed (.transfer p h child handleInvalid r)) : Edited allowed k k' := by
  unfold spawnCore at h
  simp only [bind_eq_bind, bind_eq_some_iff] at h
  obtain ⟨k1, hk1, k2, hk2, h⟩ := h
  have h2 := (spawnTransferHandles_edited _ hk1 hx).trans (spawnInherit_edited hk2 hx)
  split_ifs at h
  · cases h
    exact h2
  · simp only [bind_eq_some_iff] at h
    obtain ⟨k3, hk3, h⟩ := h
    cases h
    exact h2.trans (processDestroy_edited hk3 hdrop)

theorem sysExec_edited {child : Pid} {loads : Bool}
    (h : sysExec k p child hs flags loads = some (k', r)) (hchild : k.proc child = none)
    (hother : allowed .other) (hmake : allowed (.make child)) (hdrop : allowed (.drop child))
    (hx : ∀ h r, allowed (.transfer p h child handleInvalid r)) : Edited allowed k k' := by
  unfold sysExec at h
  split at h
  · cases h
    exact .refl _
  split_ifs at h
  · cases h
    exact .refl _
  · have h0 : ∀ pr, pr.handles = handleTableCreate →
        Edited allowed k (k.advance.setProc child (some pr)) := fun pr hpr => by
      refine .single (.make (table_of_proc_none k hchild) ?_ rfl) hmake
      rw [table_setProc, ← hpr]
      rfl
    exact (h0 _ rfl).trans (spawnCore_edited h hdrop hx)
  · cases h
    exact edited ⟨rfl, rfl⟩ hother

theorem sysShmCreate_edited {size : ℕ} (h : sysShmCreate k p o size = some (k', r))
    (hother : allowed .other) (hfresh : allowed (.fresh p o)) : Edited allowed k k' := by
  unfold sysShmCreate at h
  split at h
  · cases h
    exact .refl _
  split_ifs at h
  · cases h
    exact .refl _
  · cases h
    exact .refl _
  · rw [map_eq_some_iff] at h
    obtain ⟨⟨k1, r1⟩, hk1, heq⟩ := h
    have h1 : Edited allowed k k1 :=
      createWith_edited (fun _ _ => handleObjectPut_untouched) hk1 hother hfresh
    rcases r1 with _ | i <;> cases heq <;> exact h1

omit [DecidableEq Oid] in
theorem processExit_edited (k : Kernel Pid Oid) (p : Pid) (hother : allowed .other) :
    Edited allowed k (processExit k p) := by
  unfold processExit
  split
  · exact .refl k
  · rename_i pr hpr
    refine .single (.other ?_ rfl) hother
    show (k.setProc p (some { pr with zombie := true })).table = k.table
    rw [table_setProc]
    rw [← table_of_proc k hpr, update_eq_self]

end Functions

section Step
variable {w w' : World Pid Oid}

theorem after_eq_some {α : Type} {r : Option (Kernel Pid Oid × α)} (h : w.after r = some w') :
    ∃ a, r = some (w'.kernel, a) ∧ w'.ops = w.ops := by
  unfold World.after at h
  rw [map_eq_some_iff] at h
  obtain ⟨⟨k, a⟩, hr, rfl⟩ := h
  exact ⟨a, hr, rfl⟩

theorem atFresh_eq_some {o : Oid} {r : Option (World Pid Oid)} (h : w.atFresh o r = some w') :
    w' = w ∨ (w.kernel.obj o = none ∧ r = some w') := by
  unfold World.atFresh at h
  split_ifs at h with ho
  · exact .inl (some.inj h).symm
  · exact .inr ⟨by simpa using ho, h⟩

variable [DecidableEq Pid] [DecidableEq Oid]

def Call.Allows (w : World Pid Oid) : Call Pid Oid → Edit Pid Oid → Prop
  | _, .other => True
  | .endpointCreate p o _, .fresh q o' | .eventCreate p o, .fresh q o'
  | .pipeCreate p o _, .fresh q o' | .shmCreate p o _, .fresh q o'
  | .physmemCreate p o _ _, .fresh q o' | .procWatch p _ _ _ o, .fresh q o' =>
    q = p ∧ o' = o ∧ w.kernel.obj o = none
  | .pipeCreate p _ _, .clear q _ => q = p
  | .close p h, .clear q i => q = p ∧ i = h
  | .duplicate p srcH hint _, .transfer s i d x _ => s = p ∧ i = srcH ∧ d = p ∧ x = hint ∧
    ∃ e, (w.kernel.table p)[srcH]? = some (some e) ∧ e.rights.has handleRightDuplicate
  | .grant p pid srcH _ _, .transfer s i d x _ => s = p ∧ i = srcH ∧ d = pid ∧ x = handleInvalid
  | .ipcPass src dst hs, .transfer s i d x r =>
    s = src ∧ i ∈ hs ∧ d = dst ∧ x = handleInvalid ∧ r = 0#32
  | .exec p child _ _ _, .transfer s _ d x _ =>
    s = p ∧ d = child ∧ x = handleInvalid ∧ w.kernel.proc child = none
  | .exec _ child _ _ _, .make q | .exec _ child _ _ _, .drop q =>
    q = child ∧ w.kernel.proc child = none
  | .destroy p, .drop q => q = p
  | _, _ => False

theorem step_edits {c : Call Pid Oid} (h : step w c = some w') :
    Edited (c.Allows w) w.kernel w'.kernel := by
  cases c with
  | endpointCreate p o name =>
    rcases atFresh_eq_some h with rfl | ⟨ho, h⟩
    · exact .refl _
    · obtain ⟨a, hk, -⟩ := after_eq_some h
      exact createWith_edited kfreeObj_untouched hk trivial ⟨rfl, rfl, ho⟩
  | eventCreate p o =>
    rcases atFresh_eq_some h with rfl | ⟨ho, h⟩
    · exact .refl _
    · obtain ⟨a, hk, -⟩ := after_eq_some h
      exact createWith_edited kfreeObj_untouched hk trivial ⟨rfl, rfl, ho⟩
  | pipeCreate p o copied =>
    rcases atFresh_eq_some h with rfl | ⟨ho, h⟩
    · exact .refl _
    · obtain ⟨a, hk, -⟩ := after_eq_some h
      exact sysPipeCreate_edited hk trivial ⟨rfl, rfl, ho⟩ fun _ => rfl
  | shmCreate p o size =>
    rcases atFresh_eq_some h with rfl | ⟨ho, h⟩
    · exact .refl _
    · obtain ⟨a, hk, -⟩ := after_eq_some h
      exact sysShmCreate_edited hk trivial ⟨rfl, rfl, ho⟩
  | physmemCreate p o region name =>
    rcases atFresh_eq_some h with rfl | ⟨ho, h⟩
    · exact .refl _
    · obtain ⟨a, hk, -⟩ := after_eq_some h
      exact createWith_edited (fun _ _ => handleObjectPut_untouched) hk trivial ⟨rfl, rfl, ho⟩
  | procWatch p target i bits o =>
    rcases atFresh_eq_some h with rfl | ⟨ho, h⟩
    · exact .refl _
    · obtain ⟨a, hk, -⟩ := after_eq_some h
      exact processWatchCreate_edited hk trivial ⟨rfl, rfl, ho⟩
  | irqBind p irq i bits =>
    obtain ⟨a, hk, -⟩ := after_eq_some h
    exact (sysIrqBind_untouched hk).edited trivial
  | irqUnbind p irq =>
    obtain ⟨a, hk, -⟩ := after_eq_some h
    exact (irqUnbindEvent_untouched hk).edited trivial
  | close p i =>
    obtain ⟨a, hk, -⟩ := after_eq_some h
    unfold sysHandleClose at hk
    rw [map_eq_some_iff] at hk
    obtain ⟨k1, hk1, heq⟩ := hk
    cases heq
    exact handleFree_edited hk1 ⟨rfl, rfl⟩
  | duplicate p srcH hint name =>
    obtain ⟨a, hk, -⟩ := after_eq_some h
    exact sysHandleDuplicate_edited hk trivial fun e he hd => ⟨rfl, rfl, rfl, rfl, e, he, hd⟩
  | grant p pid srcH name rights =>
    obtain ⟨a, hk, -⟩ := after_eq_some h
    exact sysHandleGrant_edited hk trivial ⟨rfl, rfl, rfl, rfl⟩
  | ipcPass src dst handles =>
    obtain ⟨a, hk, -⟩ := after_eq_some h
    exact ipcCopyHandles_edited hk fun i hi => ⟨rfl, hi, rfl, rfl, rfl⟩
  | exec p child handles flags loads =>
    simp only [step] at h
    split_ifs at h with hc
    · cases h
      exact .refl _
    · obtain ⟨a, hk, -⟩ := after_eq_some h
      have hc : w.kernel.proc child = none := by simpa using hc
      exact sysExec_edited hk hc trivial ⟨rfl, hc⟩ ⟨rfl, hc⟩ fun _ _ => ⟨rfl, rfl, rfl, hc⟩
  | exit p =>
    cases h
    exact processExit_edited w.kernel p trivial
  | destroy p =>
    simp only [step, map_eq_some_iff] at h
    obtain ⟨k1, hk1, rfl⟩ := h
    exact processDestroy_edited hk1 rfl
  | opBegin p i type =>
    simp only [step, map_eq_some_iff] at h
    obtain ⟨⟨k1, r⟩, hk1, heq⟩ := h
    have hu := (handleAcquire_cases hk1).1
    rcases r with _ | e <;> cases heq <;> exact hu.edited trivial
  | opEnd i =>
    simp only [step] at h
    split at h
    · cases h
      exact .refl _
    · rw [map_eq_some_iff] at h
      obtain ⟨k1, hk1, rfl⟩ := h
      exact (handleObjectPut_untouched hk1).edited trivial

end Step

end Xnix
