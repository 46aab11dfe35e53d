import Xnix.Proofs.Edits
import Xnix.Proofs.Lifetime

/-!
# Every system call keeps the balance

One lemma for each system call of `Xnix.Syscall`: from a balanced kernel it has a next state, which
is balanced with the same external references. Allocation failures are covered: memory may refuse
at every point where the source asks for it.
-/

namespace Xnix

open Function List Option Kernel

variable {Pid Oid : Type} {type : HandleType} {v : Option (Object Pid Oid)} {e : HandleEntry Oid}
  {o : Oid} {k k' : Kernel Pid Oid}

/-- An object that was there and still is has not changed what it is. -/
def LiveKept (k k' : Kernel Pid Oid) : Prop :=
  ∀ o, k.obj o ≠ none → k'.shape o = none ∨ k'.shape o = k.shape o

theorem ShapeKept.live (h : ShapeKept k k') : LiveKept k k' :=
  fun o _ => h o

theorem LiveKept.typed (h : LiveKept k k') (ht : (k.typed type o).isSome)
    (ho : k'.obj o ≠ none) : (k'.typed type o).isSome := by
  have hk : k.obj o ≠ none := fun hn => by
    obtain ⟨sh, hsh, -⟩ := typed_isSome_iff.mp ht
    simp [shape, hn] at hsh
  exact typed_of_shape (h o hk) ht ho

theorem ShapeKept.after_create [DecidableEq Oid] (h : ShapeKept (k.setObj o v) k')
    (ho : k.obj o = none) : LiveKept k k' := by
  intro x hx
  have hxo : x ≠ o := fun he => hx (he ▸ ho)
  have := h x
  unfold shape at this ⊢
  rw [setObj_obj_of_ne k _ hxo] at this
  exact this

section Calls
variable {ext : Oid → ℕ} {loose : List (Hold Oid)} {p src dst : Pid}

theorem shapeKept_of_obj (h : k'.obj = k.obj) : ShapeKept k k' := .of_eq (shape_congr h)

variable [DecidableEq Oid]

theorem setObj_none_obj (ho : k.obj o = none) (hobj : k'.obj = (k.setObj o v).obj) :
    (k'.setObj o none).obj = k.obj := by
  funext x
  by_cases hx : x = o
  · subst hx
    rw [setObj_obj_self, ho]
  · rw [setObj_obj_of_ne _ _ hx, hobj, setObj_obj_of_ne _ _ hx]

theorem handleObjectDestroy_eq_put (h : ∀ kd : Kind Pid Oid, kd.closeEnd type = kd)
    (k : Kernel Pid Oid) (o : Oid) : handleObjectDestroy k type o = handleObjectPut k type o := by
  unfold handleObjectDestroy handleObjectPut Object.withKind
  simp only [h]

variable [Fintype Pid] [Fintype Oid]

abbrev Through {α : Type} (R : Kernel Pid Oid → Prop) (ext : Oid → ℕ) (loose : List (Hold Oid))
    (x : Option (Kernel Pid Oid × α)) : Prop :=
  ∃ k' r, x = some (k', r) ∧ R k' ∧ Balanced k' ext loose

theorem Balanced.stop {α : Type} {r : α} (hb : Balanced k ext loose) :
    Through (ShapeKept k) ext loose (some (k, r)) :=
  ⟨_, _, rfl, .of_eq rfl, hb⟩

theorem Balanced.stop_live {α : Type} {r : α} (hb : Balanced k ext loose) :
    Through (LiveKept k) ext loose (some (k, r)) :=
  ⟨_, _, rfl, (ShapeKept.of_eq rfl).live, hb⟩

theorem Balanced.advance (hb : Balanced k ext loose) : Balanced k.advance ext loose :=
    hb.congr rfl rfl rfl

theorem Balanced.create_one (hb : Balanced k ext loose) (ho : k.obj o = none) {kind : Kind Pid Oid}
    (hfit : type.fits kind) (hpipe : ∀ r w, kind ≠ .pipe r w) (hwatch : ∀ wt, kind ≠ .watch wt) :
    Balanced (k.setObj o (some (oneRef kind))) ext ((type, o) :: loose) := by
  have hweight : ∀ x, watchWeight x (some (oneRef kind)) = 0 := fun x => by
    rcases kind with _ | _ | _ | _ | wt
    · rfl
    · rfl
    · rfl
    · rfl
    · exact absurd rfl (hwatch wt)
  have hext : ext o = 0 := hb.freed o ho
  have hb' : Balanced k (fun x => ext x + watchWeight x (some (oneRef kind))) loose := by
    simpa only [hweight, add_zero] using hb
  refine Balanced.create [(type, o)] hb' ho (fun x hx => ?_) ?_
    (fun r w h => absurd h (hpipe r w)) fun wt h => absurd h (hwatch wt)
  · rw [mem_singleton.mp hx]
    exact ⟨rfl, hfit⟩
  · rw [hext]
    rfl

/-- What a creator does when no slot is left, seen from the state before the object was made. -/
def Undoes (k : Kernel Pid Oid) (ext : Oid → ℕ) (loose : List (Hold Oid)) (type : HandleType)
    (o : Oid) (ob : Object Pid Oid) (undo : Kernel Pid Oid → Option (Kernel Pid Oid)) : Prop :=
  ∀ k', k'.obj = (k.setObj o (some ob)).obj → k'.proc = k.proc → k'.irq = k.irq →
    Balanced k' ext ((type, o) :: loose) →
    ∃ k'', undo k' = some k'' ∧ ShapeKept k' k'' ∧ Balanced k'' ext loose

theorem undoes_kfreeObj (hb : Balanced k ext loose) (ho : k.obj o = none) (type : HandleType)
    (ob : Object Pid Oid) : Undoes k ext loose type o ob (kfreeObj o) := by
  intro k' hobj hproc hirq _
  exact ⟨_, rfl, (sameButObj_free k' o).kept, hb.congr hproc (setObj_none_obj ho hobj) hirq⟩

theorem undoes_put (k : Kernel Pid Oid) (ext : Oid → ℕ) (loose : List (Hold Oid))
    (h : ∀ kd : Kind Pid Oid, kd.closeEnd type = kd) (o : Oid) (ob : Object Pid Oid) :
    Undoes k ext loose type o ob fun k => handleObjectPut k type o := by
  intro k' _ _ _ hb
  obtain ⟨k'', hk'', hs, hb''⟩ := hb.destroy
  rw [handleObjectDestroy_eq_put h] at hk''
  exact ⟨k'', hk'', hs.kept, hb''⟩

theorem Balanced.create_pipe (hb : Balanced k ext loose) (ho : k.obj o = none) :
    Balanced (k.setObj o (some ⟨.pipe 1 1, 2, Nat.two_pos⟩)) ext
      ((.pipeRead, o) :: (.pipeWrite, o) :: loose) := by
  have hext : ext o = 0 := hb.freed o ho
  refine Balanced.create [(.pipeRead, o), (.pipeWrite, o)] hb ho (fun x hx => ?_) ?_
    (fun r w h => ?_) fun wt h => by cases h
  · simp only [mem_cons, not_mem_nil, or_false] at hx
    rcases hx with rfl | rfl
    · exact ⟨rfl, rfl⟩
    · exact ⟨rfl, rfl⟩
  · rw [hext]
    rfl
  · cases h
    constructor
    · rw [count_cons_self, count_cons_of_ne (by simp)]
      rfl
    · rw [count_cons_of_ne (by simp), count_cons_self]
      rfl

theorem Balanced.close_last {t : HandleType} {r w : ℕ}
    (hb : Balanced k ext ((type, o) :: loose)) (ho : k.obj o = some ⟨.pipe r w, 1, Nat.one_pos⟩)
    (hf : type.fits (.pipe r w : Kind Pid Oid)) (hf' : t.fits (.pipe r w : Kind Pid Oid)) :
    ∃ k', handleObjectDestroy k t o = some k' ∧ ShapeKept k k' ∧ Balanced k' ext loose := by
  have hc := hb.closed ho hf
  have hfree := hc.free_plain (setObj_obj_self k o _) rfl fun x => by
    cases type <;> rfl
  have hset : (k.setObj o (some (Object.withKind ⟨.pipe r w, 1, Nat.one_pos⟩
      (Kind.closeEnd type)))).setObj o none = k.setObj o none := by
    unfold setObj
    simp
  rw [hset] at hfree
  refine ⟨_, ?_, (sameButObj_free k o).kept, hfree⟩
  have ht : k.typed t o = some ⟨.pipe r w, 1, Nat.one_pos⟩ := typed_eq_some_iff.mpr ⟨ho, hf'⟩
  unfold handleObjectDestroy
  rw [not_uncounted_of_fits hf', ht]
  cases t <;> rfl

theorem Balanced.acquire_put (hb : Balanced k ext loose) {h : ℕ}
    (he : (k.table p)[h]? = some (some e)) (hshape : k'.shape = k.shape)
    (hb' : Balanced k' (plus ext e.object) loose) :
    ∃ k'', handleObjectPut k' e.type e.object = some k'' ∧ SameButObj k' k'' ∧
    Balanced k'' ext loose := by
  refine hb'.put ?_
  rw [typed_isSome_iff, hshape, ← typed_isSome_iff]
  exact hb.entryTyped p h e he

theorem Balanced.event_of_entry (hb : Balanced k ext loose) {h : ℕ}
    (he : (k.table p)[h]? = some (some e)) (htype : e.type = .event) (hshape : k'.shape = k.shape) :
    ∃ ob, k'.obj e.object = some ob ∧ ob.kind = .event := by
  have ht := hb.entryTyped p h e he
  rw [htype, typed_isSome_iff] at ht
  obtain ⟨sh, hsh, hf⟩ := ht
  rw [exists_event_iff, hshape, hsh]
  cases sh <;> first | rfl | cases hf

theorem Balanced.peekEntry (hb : Balanced k ext loose) (p : Pid) (h : ℕ) :
    ∃ k' r, peekEntry k p h = some (k', r) ∧ SameButObj k k' ∧ Balanced k' ext loose := by
  obtain ⟨k1, r, hk1, hs1, hsh1, hr⟩ := hb.acquire p h none
  unfold Xnix.peekEntry
  simp only [hk1, bind_eq_bind, bind_some]
  rcases hr with ⟨rfl, rfl⟩ | ⟨e, rfl, he, -, hb1⟩
  · exact ⟨_, _, rfl, .refl _, hb⟩
  · obtain ⟨k2, hk2, hs2, hb2⟩ := hb.acquire_put he hsh1 hb1
    simp only [hk2, bind_some]
    exact ⟨_, _, rfl, hs1.trans hs2, hb2⟩

theorem Balanced.create_watch (wt : ProcessWatch Pid Oid)
    (hb : Balanced k (plus ext wt.notif) loose) (ho : k.obj o = none)
    (hev : ∃ ob, k.obj wt.notif = some ob ∧ ob.kind = .event) :
    Balanced (k.setObj o (some (oneRef (.watch wt)))) ext ((.procWatch, o) :: loose) := by
  have hweight : (fun x => ext x + watchWeight x (some (oneRef (.watch wt)))) =
    plus ext wt.notif := by
    funext x
    simp only [oneRef, watchWeight, plus, eq_comm]
  have hne : o ≠ wt.notif := fun h => by
    obtain ⟨ob, hob, -⟩ := hev
    rw [← h, ho] at hob
    cases hob
  have hext : ext o = 0 := by
    have := hb.freed o ho
    rw [plus_of_ne ext hne] at this
    exact this
  rw [← hweight] at hb
  refine Balanced.create [(.procWatch, o)] hb ho (fun x hx => ?_) ?_
    (fun r w h => by cases h) fun wt' h => ?_
  · rw [mem_singleton.mp hx]
    exact ⟨rfl, rfl⟩
  · rw [hext]
    rfl
  · cases h
    exact hev

theorem Balanced.reirq {ext' : Oid → ℕ} {j : Fin archNrIrqs}
    {slots : List (Option (IrqBinding Pid Oid))} (hb : Balanced k ext loose)
    (hev : ∀ b o, some b ∈ slots → b.notif = some o → ∃ ob, k.obj o = some ob ∧ ob.kind = .event)
    (hcount : ∀ x, slots.countP (bindsEvent x) + ext' x
      = (k.irq j).countP (bindsEvent x) + ext x) :
    Balanced { k with irq := update k.irq j slots } ext' loose := by
  have hirq : ∀ x, irqRefs { k with irq := update k.irq j slots } x
      + (k.irq j).countP (bindsEvent x) = k.irqRefs x + slots.countP (bindsEvent x) := fun x =>
    Lib.sum_weight_update k.irq (countP (bindsEvent x)) j slots
  refine ⟨hb.tableFits, hb.entryTyped, hb.looseTyped, hb.watchTyped, fun i b o hbm hn => ?_,
    fun x ob hx => ?_, fun x hx => ?_, hb.pipes⟩
  · by_cases hij : i = j
    · subst hij
      simp only [update_self] at hbm
      exact hev b o hbm hn
    · simp only [update_of_ne hij] at hbm
      exact hb.irqTyped i b o hbm hn
  · have hr := hb.refs x ob hx
    have := hirq x
    have := hcount x
    show ob.refcount = k.entries x + loose.countP (·.2 = x) + k.watchRefs x
      + irqRefs { k with irq := update k.irq j slots } x + ext' x
    omega
  · obtain ⟨-, -, -, hz, hext⟩ := hb.no_holders hx
    have hle := Lib.single_le_sum_weight k.irq (countP (bindsEvent x)) j
    have hz : ∑ i, (k.irq i).countP (bindsEvent x) = 0 := hz
    have := hcount x
    omega

variable [DecidableEq Pid]

section
variable (hb : Balanced k ext loose) (ho : k.obj o = none)
include hb ho

theorem Balanced.createWith {ob : Object Pid Oid} {undo : Kernel Pid Oid → Option (Kernel Pid Oid)}
    (hnew : Balanced (k.advance.setObj o (some ob)) ext ((type, o) :: loose))
    (hundo : Undoes k.advance ext loose type o ob undo) (p : Pid) (name : CString) :
    ∃ k' r, createWith k p type o ob name undo = some (k', r) ∧ LiveKept k k' ∧
    Balanced k' ext loose := by
  unfold Xnix.createWith
  split
  · obtain ⟨k1, r, hk1, hobj, hirq, hr⟩ := hnew.alloc p name
    have hkept : ShapeKept (k.advance.setObj o (some ob)) k1 := shapeKept_of_obj hobj
    rw [hk1]
    rcases hr with ⟨rfl, hproc, hb1⟩ | ⟨h, rfl, -, hb1⟩
    · obtain ⟨k2, hk2, hs, hb2⟩ := hundo k1 hobj hproc hirq hb1
      simp only [hk2, bind_eq_bind, bind_some]
      exact ⟨_, _, rfl, (hkept.trans hs).after_create ho, hb2⟩
    · exact ⟨_, _, rfl, hkept.after_create ho, hb1⟩
  · exact ⟨_, _, rfl, (ShapeKept.of_eq rfl).live, hb.advance⟩

theorem Balanced.endpointCreate (p : Pid) (name : CString) :
    Through (LiveKept k) ext loose (endpointCreate k p o name) :=
  hb.createWith ho (hb.advance.create_one ho rfl (by simp) (by simp))
    (undoes_kfreeObj hb.advance ho _ _) p name

theorem Balanced.eventCreate (p : Pid) : Through (LiveKept k) ext loose (eventCreate k p o) :=
  hb.createWith ho (hb.advance.create_one ho rfl (by simp) (by simp))
    (undoes_kfreeObj hb.advance ho _ _) p []

theorem Balanced.physmemCreateHandleForProc (p : Pid) (region : PhysmemRegion) (name : CString) :
    Through (LiveKept k) ext loose (physmemCreateHandleForProc k p o region name) :=
  hb.createWith ho (hb.advance.create_one ho rfl (by simp) (by simp))
    (undoes_put _ _ _ (fun kd => by cases kd <;> rfl) o _) p name

theorem Balanced.sysShmCreate (p : Pid) (size : ℕ) :
    Through (LiveKept k) ext loose (sysShmCreate k p o size) := by
  unfold Xnix.sysShmCreate
  split
  · exact hb.stop_live
  split_ifs
  · exact hb.stop_live
  · exact hb.stop_live
  · obtain ⟨k', r, hk', hkept, hb'⟩ := hb.physmemCreateHandleForProc ho p (shmRegion size) []
    rw [hk']
    rcases r with _ | h
    · exact ⟨_, _, rfl, hkept, hb'⟩
    · exact ⟨_, _, rfl, hkept, hb'⟩

end

omit [Fintype Pid] [Fintype Oid] in
theorem handleFree_newPipe {h : ℕ} (he : (k.table p)[h]? = some (some (freshEntry .pipeRead o [])))
    (ho : k.obj o = some ⟨.pipe 1 1, 2, Nat.two_pos⟩) (hf : handleFree k p h = some k') :
    k'.obj o = some ⟨.pipe 0 1, 1, Nat.one_pos⟩ := by
  have ht : k.typed .pipeRead o = some ⟨.pipe 1 1, 2, Nat.two_pos⟩ :=
    typed_eq_some_iff.mpr ⟨ho, rfl⟩
  unfold handleFree handleObjectDestroy at hf
  simp only [he, freshEntry, HandleType.uncounted, Bool.false_eq_true, if_false, ht, bind_some,
    map_eq_some_iff] at hf
  obtain ⟨k1, hk1, rfl⟩ := hf
  have hk1 : some (k.setObj o (some ⟨.pipe 0 1, 1, Nat.one_pos⟩)) = some k1 := hk1
  cases hk1
  rw [setTable_obj, setObj_obj_self]

section
variable (hb : Balanced k ext loose)
include hb

theorem Balanced.pipeCreate (ho : k.obj o = none) (p : Pid) :
    Through (LiveKept k) ext loose (pipeCreate k p o) := by
  unfold Xnix.pipeCreate
  split
  · set k0 := k.advance.setObj o (some ⟨.pipe 1 1, 2, Nat.two_pos⟩) with hk0
    have hnew : Balanced k0 ext ((.pipeRead, o) :: (.pipeWrite, o) :: loose) :=
      hb.advance.create_pipe ho
    obtain ⟨k1, r1, hk1, hobj1, hirq1, hr1⟩ := hnew.alloc p []
    have hkept1 : ShapeKept k0 k1 := shapeKept_of_obj hobj1
    rw [hk1]
    rcases hr1 with ⟨rfl, hproc1, -⟩ | ⟨rh, rfl, hrh, hb1⟩
    · refine ⟨_, _, rfl, (hkept1.trans (sameButObj_free k1 o).kept).after_create ho,
        hb.advance.congr hproc1 (setObj_none_obj ho hobj1) hirq1⟩
    · obtain ⟨k2, r2, hk2, hobj2, hirq2, hr2⟩ := hb1.alloc p []
      have hkept2 : ShapeKept k0 k2 := hkept1.trans (shapeKept_of_obj hobj2)
      simp only [hk2, bind_eq_bind, bind_some]
      rcases hr2 with ⟨rfl, hproc2, hb2⟩ | ⟨wh, rfl, -, hb2⟩
      · obtain ⟨k3, hk3, hkept3, hb3⟩ := hb2.handleFree p rh
        have hrh2 : (k2.table p)[rh]? = some (some (freshEntry .pipeRead o [])) := by
          rw [table_congr hproc2]
          exact hrh
        have ho2 : k2.obj o = some ⟨.pipe 1 1, 2, Nat.two_pos⟩ := by
          rw [hobj2, hobj1, hk0, setObj_obj_self]
        have hlast := handleFree_newPipe hrh2 ho2 hk3
        obtain ⟨k4, hk4, hkept4, hb4⟩ := hb3.close_last (t := .pipeRead) hlast rfl rfl
        simp only [hk3, hk4, bind_some]
        have hkept := (hkept2.trans hkept3).trans hkept4
        exact ⟨_, _, rfl, hkept.after_create ho, hb4⟩
      · exact ⟨_, _, rfl, hkept2.after_create ho, hb2⟩
  · exact ⟨_, _, rfl, (ShapeKept.of_eq rfl).live, hb.advance⟩

theorem Balanced.sysPipeCreate (ho : k.obj o = none) (p : Pid) (copied : Bool) :
    Through (LiveKept k) ext loose (sysPipeCreate k p o copied) := by
  obtain ⟨k1, r, hk1, hkept1, hb1⟩ := hb.pipeCreate ho p
  unfold Xnix.sysPipeCreate
  simp only [hk1, bind_eq_bind, bind_some]
  rcases r with _ | ⟨rh, wh⟩
  · exact ⟨_, _, rfl, hkept1, hb1⟩
  rcases copied with _ | _
  · obtain ⟨k2, hk2, hkept2, hb2⟩ := hb1.handleFree p rh
    obtain ⟨k3, hk3, hkept3, hb3⟩ := hb2.handleFree p wh
    simp only [Bool.false_eq_true, if_false, hk2, hk3, bind_some]
    refine ⟨_, _, rfl, fun x hx => ?_, hb3⟩
    rcases (hkept2.trans hkept3) x with h | h
    · exact .inl h
    · rw [h]
      exact hkept1 x hx
  · exact ⟨_, _, rfl, hkept1, hb1⟩

theorem Balanced.sysHandleClose (p : Pid) (h : ℕ) :
    Through (ShapeKept k) ext loose (sysHandleClose k p h) := by
  obtain ⟨k', hk', hkept, hb'⟩ := hb.handleFree p h
  unfold Xnix.sysHandleClose
  rw [hk']
  exact ⟨_, _, rfl, hkept, hb'⟩

/-- `sys_handle_duplicate` is the one call that passes a hint of the caller's. -/
theorem Balanced.sysHandleDuplicate (p : Pid) (srcH hint : ℕ) (name : UserName)
    (hok : ∀ e, (k.table p)[srcH]? = some (some e) → e.rights.has handleRightDuplicate →
    HintOk (k.table p) hint) :
    Through (ShapeKept k) ext loose (sysHandleDuplicate k p srcH hint name) := by
  obtain ⟨k1, r, hk1, hs1, hb1⟩ := hb.peekEntry p srcH
  unfold Xnix.sysHandleDuplicate
  simp only [hk1, bind_eq_bind, bind_some]
  rcases r with _ | e
  · exact ⟨_, _, rfl, hs1.kept, hb1⟩
  simp only
  split_ifs with hdup
  · exact ⟨_, _, rfl, hs1.kept, hb1⟩
  have he := (peekEntry_untouched hk1).2 e rfl
  have hok1 : HintOk (k1.table p) hint := by
    rw [table_congr hs1.proc]
    exact hok e he (by simpa using hdup)
  split
  · exact ⟨_, _, rfl, hs1.kept, hb1⟩
  · obtain ⟨k2, r2, hk2, hkept, hb2⟩ := hb1.transfer hok1 p srcH name.arg 0#32
    rw [hk2]
    exact ⟨_, _, rfl, hs1.kept.trans hkept, hb2⟩

/-- With a hint that wraps, the entry written outside the table stays loose. -/
theorem Balanced.sysHandleDuplicate_some {srcH hint : ℕ} {name : UserName} {r : ℤ}
    (h : Xnix.sysHandleDuplicate k p srcH hint name = some (k', r)) :
    ∃ loose', ShapeKept k k' ∧ Balanced k' ext loose' := by
  obtain ⟨k1, r1, hk1, hs1, hb1⟩ := hb.peekEntry p srcH
  unfold Xnix.sysHandleDuplicate at h
  simp only [hk1, bind_eq_bind, bind_some] at h
  rcases r1 with _ | e
  · cases h
    exact ⟨loose, hs1.kept, hb1⟩
  simp only at h
  split_ifs at h
  · cases h
    exact ⟨loose, hs1.kept, hb1⟩
  split at h
  · cases h
    exact ⟨loose, hs1.kept, hb1⟩
  · rw [map_eq_some_iff] at h
    obtain ⟨⟨k2, r2⟩, hk2, h⟩ := h
    cases h
    rcases hb1.transfer_cases p srcH p name.arg hint 0#32 with
      ⟨hnone, -⟩ | ⟨k3, r3, loose', hk3, hkept, hb3, -⟩
    · rw [hnone] at hk2
      cases hk2
    · rw [hk2] at hk3
      cases hk3
      exact ⟨loose', hs1.kept.trans hkept, hb3⟩

theorem Balanced.sysHandleGrant (p pid : Pid) (srcH : ℕ) (name : UserName) (rights : Rights) :
    Through (ShapeKept k) ext loose (sysHandleGrant k p pid srcH name rights) := by
  unfold Xnix.sysHandleGrant
  split
  · exact hb.stop
  split_ifs
  · exact hb.stop
  obtain ⟨k1, r, hk1, hs1, hb1⟩ := hb.peekEntry p srcH
  simp only [hk1, bind_eq_bind, bind_some]
  rcases r with _ | e
  · exact ⟨_, _, rfl, hs1.kept, hb1⟩
  simp only
  split_ifs
  · exact ⟨_, _, rfl, hs1.kept, hb1⟩
  · exact ⟨_, _, rfl, hs1.kept, hb1⟩
  · split
    · exact ⟨_, _, rfl, hs1.kept, hb1⟩
    · obtain ⟨k2, r2, hk2, hkept, hb2⟩ :=
        hb1.transfer (hintOk_invalid (k1.table pid)) p srcH name.arg rights
      rw [hk2]
      exact ⟨_, _, rfl, hs1.kept.trans hkept, hb2⟩

end

theorem Balanced.ipcTransferHandles : ∀ (hs : List ℕ) {k : Kernel Pid Oid},
    Balanced k ext loose → Through (ShapeKept k) ext loose (ipcTransferHandles k src dst hs)
  | [], k, hb => ⟨k, [], rfl, .of_eq rfl, hb⟩
  | h :: hs, k, hb => by
    obtain ⟨k1, r, hk1, hkept1, hb1⟩ := hb.transfer (hintOk_invalid (k.table dst)) src h none 0#32
    obtain ⟨k2, got, hk2, hkept2, hb2⟩ := Balanced.ipcTransferHandles hs hb1
    refine ⟨k2, r.toList ++ got, ?_, hkept1.trans hkept2, hb2⟩
    simp only [Xnix.ipcTransferHandles, hk1, hk2, bind_eq_bind, bind_some]

theorem Balanced.ipcCopyHandles (hb : Balanced k ext loose) (src dst : Pid) (hs : List ℕ) :
    Through (ShapeKept k) ext loose (ipcCopyHandles k src dst hs) := by
  unfold Xnix.ipcCopyHandles
  split_ifs
  · split
    · split_ifs
      · exact Balanced.ipcTransferHandles hs hb
      · exact hb.stop
    · exact hb.stop
  · exact hb.stop

theorem Balanced.processWatchCreate (hb : Balanced k ext loose) (ho : k.obj o = none)
    (p target : Pid) (h : ℕ) (bits : BitVec 32) :
    Through (LiveKept k) ext loose (processWatchCreate k p target h bits o) := by
  unfold Xnix.processWatchCreate
  split
  · exact hb.stop_live
  rename_i tpr _
  rcases Decidable.em (bits = 0#32) with hbits | hbits
  · rw [if_pos hbits]
    exact hb.stop_live
  rw [if_neg hbits]
  obtain ⟨k1, r, hk1, hs1, hsh1, hr⟩ := hb.acquire p h (some .event)
  simp only [hk1, bind_eq_bind, bind_some]
  rcases hr with ⟨rfl, rfl⟩ | ⟨e, rfl, he, hexp, hb1⟩
  · exact hb.stop_live
  have hkept1 : ShapeKept k k1 := .of_eq hsh1
  have ho1 : k1.obj o = none := (obj_none_iff hsh1 o).mpr ho
  simp only
  split_ifs
  · have htype : e.type = .event := by simpa [eq_comm] using hexp
    have hev := hb.event_of_entry he htype hsh1
    have hnew := Balanced.create_watch (newWatch target tpr.zombie e.object bits)
      hb1.advance ho1 hev
    obtain ⟨k2, r2, hk2, hobj2, hirq2, hr2⟩ := hnew.alloc p []
    have hkept2 : ShapeKept _ k2 := shapeKept_of_obj hobj2
    simp only [hk2, bind_some]
    have hlive : ∀ {k3 : Kernel Pid Oid}, ShapeKept k2 k3 → LiveKept k k3 := fun hk x hx => by
      rw [← hsh1]
      exact (hkept2.trans hk).after_create ho1 x
        (hx ∘ (obj_none_iff hsh1 x).mp)
    rcases hr2 with ⟨rfl, -, hb2⟩ | ⟨wh, rfl, -, hb2⟩
    · obtain ⟨k3, hk3, hs3, hb3⟩ := hb2.destroy
      rw [handleObjectDestroy_eq_put (fun kd => by cases kd <;> rfl)] at hk3
      simp only [hk3, bind_some]
      exact ⟨_, _, rfl, hlive hs3.kept, hb3⟩
    · exact ⟨_, _, rfl, hlive (.of_eq rfl), hb2⟩
  · obtain ⟨k2, hk2, hs2, hb2⟩ :=
      hb.acquire_put he (show k1.advance.shape = k.shape from hsh1) hb1.advance
    simp only [hk2, bind_some]
    exact ⟨_, _, rfl, (hkept1.trans hs2.kept).live, hb2⟩

omit [Fintype Pid] [Fintype Oid] [DecidableEq Oid] in
theorem bindSlot_free :
    ∀ (l : List (Option (IrqBinding Pid Oid))) {i : ℕ}, bindSlot p l = some i → l[i]? = some none
  | [], i, h => by cases h
  | none :: l, i, h => by
    cases h
    rfl
  | some b :: l, i, h => by
    unfold bindSlot at h
    split_ifs at h
    rw [map_eq_some_iff] at h
    obtain ⟨i', hi', rfl⟩ := h
    exact bindSlot_free l hi'

theorem Balanced.irqBindEvent (hb : Balanced k ext loose) (irq : ℕ) (p : Pid) (notif : Option Oid)
    (bits : BitVec 32) (hev : ∀ o, notif = some o → ∃ ob, k.obj o = some ob ∧ ob.kind = .event) :
    Through (ShapeKept k) ext loose (irqBindEvent k irq p notif bits) := by
  unfold Xnix.irqBindEvent
  split_ifs with hirq
  swap
  · exact hb.stop
  split
  · exact hb.stop
  rename_i i hi
  have hfree := bindSlot_free _ hi
  rcases notif with _ | o
  · simp only [refEvent, bind_eq_bind, bind_some]
    refine ⟨_, _, rfl, .of_eq rfl, hb.reirq (fun b o hbm hn => ?_) fun x => ?_⟩
    · rcases mem_or_eq_of_mem_set hbm with hbm | heq
      · exact hb.irqTyped _ b o hbm hn
      · cases heq
        cases hn
    · have := Lib.countP_set_add (bindsEvent x) _ i (some ⟨p, none, bits⟩) none hfree
      simp only [bindsEvent, reduceCtorEq, decide_false, Bool.false_eq_true, if_false] at this
      omega
  · obtain ⟨ob, hob, hk⟩ := hev o rfl
    have ht : k.typed .event o = some ob := typed_eq_some_iff.mpr ⟨hob, by rw [hk]; rfl⟩
    obtain ⟨k1, hk1, hs1, hsh1, hb1⟩ := hb.get ht
    have hirq1 : k1.irq = k.irq := hs1.irq
    simp only [refEvent, hk1, bind_eq_bind, bind_some]
    refine ⟨_, _, rfl, (ShapeKept.of_eq hsh1).trans (.of_eq rfl),
      hb1.reirq (fun b x hbm hn => ?_) fun x => ?_⟩
    · rcases mem_or_eq_of_mem_set hbm with hbm | heq
      · exact hb1.irqTyped _ b x hbm hn
      · cases heq
        cases hn
        rw [exists_event_iff, hsh1, ← exists_event_iff]
        exact ⟨ob, hob, hk⟩
    · rw [hirq1]
      have := Lib.countP_set_add (bindsEvent x) _ i (some ⟨p, some o, bits⟩) none hfree
      simp only [bindsEvent, some.injEq, decide_eq_true_eq, Bool.false_eq_true,
        if_false] at this
      unfold plus
      simp only [eq_comm (a := o)] at this
      omega

theorem Balanced.sysIrqBind (hb : Balanced k ext loose) (p : Pid) (irq h : ℕ) (bits : BitVec 32) :
    Through (ShapeKept k) ext loose (sysIrqBind k p irq h bits) := by
  unfold Xnix.sysIrqBind
  split
  · exact hb.stop
  split_ifs
  · exact hb.stop
  · exact hb.irqBindEvent irq p none bits fun o ho => by cases ho
  · obtain ⟨k1, r, hk1, hs1, hsh1, hr⟩ := hb.acquire p h (some .event)
    simp only [hk1, bind_eq_bind, bind_some]
    rcases hr with ⟨rfl, rfl⟩ | ⟨e, rfl, he, hexp, hb1⟩
    · exact hb.stop
    have htype : e.type = .event := by simpa [eq_comm] using hexp
    have hev := hb.event_of_entry he htype hsh1
    obtain ⟨k2, r2, hk2, hkept2, hb2⟩ := hb1.irqBindEvent irq p (some e.object) bits fun o ho => by
        cases ho
        exact hev
    have htyped2 : (k2.typed e.type e.object).isSome := by
      rw [htype]
      refine hkept2.typed (typed_isSome_iff.mpr ⟨_, exists_event_iff.mp hev, rfl⟩) fun hn => ?_
      have := hb2.freed e.object hn
      rw [plus_self] at this
      omega
    obtain ⟨k3, hk3, hs3, hb3⟩ := hb2.put htyped2
    simp only [hk2, hk3, bind_some]
    exact ⟨_, _, rfl, ((ShapeKept.of_eq hsh1).trans hkept2).trans hs3.kept, hb3⟩

theorem Balanced.irqUnbindEvent (hb : Balanced k ext loose) (irq : ℕ) (p : Pid) :
    Through (ShapeKept k) ext loose (irqUnbindEvent k irq p) := by
  unfold Xnix.irqUnbindEvent
  split_ifs with hirq
  swap
  · exact hb.stop
  split
  · exact hb.stop
  rename_i i hi
  set j : Fin archNrIrqs := ⟨irq, hirq⟩ with hj
  obtain ⟨hlt, hown, -⟩ := findIdx?_eq_some_iff_getElem.mp hi
  obtain ⟨b, hbi⟩ : ∃ b, (k.irq j)[i]? = some (some b) := by
    rw [getElem?_eq_getElem hlt]
    rcases hx : (k.irq j)[i] with _ | b
    · simp [hx] at hown
    · exact ⟨b, rfl⟩
  have hslots : ∀ b' o, some b' ∈ (k.irq j).set i none → b'.notif = some o →
      ∃ ob, k.obj o = some ob ∧ ob.kind = .event := fun b' o hm hn => by
    rcases mem_or_eq_of_mem_set hm with hm | heq
    · exact hb.irqTyped j b' o hm hn
    · cases heq
  have hcount : ∀ x,
    ((k.irq j).set i none).countP (bindsEvent x) + (if b.notif = some x then 1 else 0)
      = (k.irq j).countP (bindsEvent x) := fun x => by
    have := Lib.countP_set_add (bindsEvent x) _ i none (some b) hbi
    simpa [bindsEvent] using this
  simp only [hbi, join_some, bind_some]
  rcases hnotif : b.notif with _ | o
  · simp only [unrefEvent, bind_eq_bind, bind_some]
    refine ⟨_, _, rfl, .of_eq rfl, hb.reirq hslots fun x => ?_⟩
    have := hcount x
    simp only [hnotif, reduceCtorEq, if_false] at this
    omega
  · have hbr : Balanced { k with irq := update k.irq j ((k.irq j).set i none) }
        (plus ext o) loose := hb.reirq hslots fun x => by
      have := hcount x
      simp only [hnotif, some.injEq, eq_comm (a := o)] at this
      unfold plus
      omega
    have hev : ∃ ob, k.obj o = some ob ∧ ob.kind = .event :=
      hb.irqTyped j b o (mem_of_getElem? hbi) hnotif
    have htyped : (typed { k with irq := update k.irq j ((k.irq j).set i none) }
        .event o).isSome := by
      rw [exists_event_iff] at hev
      exact typed_isSome_iff.mpr ⟨_, hev, rfl⟩
    obtain ⟨k1, hk1, hs1, hb1⟩ := hbr.put htyped
    have hput := handleObjectPut_frame
      (show k.obj = ({ k with irq := update k.irq j ((k.irq j).set i none) } : Kernel Pid Oid).obj
      from rfl) .event o
    rw [hk1, map_some] at hput
    simp only [unrefEvent, hput, bind_eq_bind, bind_some]
    exact ⟨_, _, rfl, hs1.kept, hb1.congr hs1.proc.symm rfl hs1.irq.symm⟩

theorem Balanced.spawnTransferHandles (dst src : Pid) :
    ∀ (hs : List SpawnHandle) {k : Kernel Pid Oid},
    Balanced k ext loose → ∃ k', spawnTransferHandles k dst src hs = some k' ∧ ShapeKept k k' ∧
    Balanced k' ext loose
  | [], k, hb => ⟨k, rfl, .of_eq rfl, hb⟩
  | s :: hs, k, hb => by
    obtain ⟨k1, r, hk1, hkept1, hb1⟩ :=
      hb.transfer (hintOk_invalid (k.table dst)) src s.src (some s.name) s.rights
    obtain ⟨k2, hk2, hkept2, hb2⟩ := Balanced.spawnTransferHandles dst src hs hb1
    refine ⟨k2, ?_, hkept1.trans hkept2, hb2⟩
    simp only [Xnix.spawnTransferHandles, hk1, hk2, bind_eq_bind, bind_some]

theorem Balanced.spawnInheritByNames (dst src : Pid) : ∀ (ns : List CString) {k : Kernel Pid Oid},
    Balanced k ext loose → ∃ k', spawnInheritByNames k dst src ns = some k' ∧ ShapeKept k k' ∧
    Balanced k' ext loose
  | [], k, hb => ⟨k, rfl, .of_eq rfl, hb⟩
  | n :: ns, k, hb => by
    unfold Xnix.spawnInheritByNames
    split
    · exact Balanced.spawnInheritByNames dst src ns hb
    · rename_i i _
      split_ifs
      · obtain ⟨k1, r, hk1, hkept1, hb1⟩ :=
          hb.transfer (hintOk_invalid (k.table dst)) src i (some n) 0#32
        obtain ⟨k2, hk2, hkept2, hb2⟩ := Balanced.spawnInheritByNames dst src ns hb1
        refine ⟨k2, ?_, hkept1.trans hkept2, hb2⟩
        simp only [hk1, hk2, bind_eq_bind, bind_some]
      · exact Balanced.spawnInheritByNames dst src ns hb

theorem Balanced.spawnInheritSlot (hb : Balanced k ext loose) (dst src : Pid)
    (needName : Bool) (i : ℕ) :
    ∃ k', spawnInheritSlot k dst src needName i = some k' ∧ ShapeKept k k' ∧
    Balanced k' ext loose := by
  have hpass : ∀ name, ∃ k', (handleTransfer k src i dst name handleInvalid 0#32).map Prod.fst
      = some k' ∧ ShapeKept k k' ∧ Balanced k' ext loose := fun name => by
    obtain ⟨k1, r, hk1, hkept1, hb1⟩ := hb.transfer (hintOk_invalid (k.table dst)) src i name 0#32
    rw [hk1]
    exact ⟨_, rfl, hkept1, hb1⟩
  unfold Xnix.spawnInheritSlot
  split
  · split_ifs
    · exact ⟨_, rfl, .of_eq rfl, hb⟩
    · exact hpass none
    · exact hpass _
    · exact ⟨_, rfl, .of_eq rfl, hb⟩
  · exact ⟨_, rfl, .of_eq rfl, hb⟩

theorem Balanced.spawnInheritSlots (dst src : Pid) (needName : Bool) :
    ∀ (is : List ℕ) {k : Kernel Pid Oid}, Balanced k ext loose → ∃ k',
      spawnInheritSlots k dst src needName is = some k' ∧ ShapeKept k k' ∧ Balanced k' ext loose
  | [], k, hb => ⟨k, rfl, .of_eq rfl, hb⟩
  | i :: is, k, hb => by
    obtain ⟨k1, hk1, hkept1, hb1⟩ := hb.spawnInheritSlot dst src needName i
    obtain ⟨k2, hk2, hkept2, hb2⟩ := Balanced.spawnInheritSlots dst src needName is hb1
    refine ⟨k2, ?_, hkept1.trans hkept2, hb2⟩
    simp only [Xnix.spawnInheritSlots, hk1, hk2, bind_eq_bind, bind_some]

variable (hb : Balanced k ext loose)
include hb

theorem Balanced.spawnInherit (dst src : Pid) (flags : InheritFlags) :
    ∃ k', spawnInherit k dst src flags = some k' ∧ ShapeKept k k' ∧ Balanced k' ext loose := by
  have hrest : ∀ {k1 : Kernel Pid Oid}, Balanced k1 ext loose → ∃ k',
      (if flags.all then spawnInheritAllHandles k1 dst src
        else if flags.named then spawnInheritNamedHandles k1 dst src else some k1) = some k' ∧
      ShapeKept k1 k' ∧ Balanced k' ext loose := by
    intro k1 hb1
    split_ifs
    · exact Balanced.spawnInheritSlots dst src false _ hb1
    · exact Balanced.spawnInheritSlots dst src true _ hb1
    · exact ⟨_, rfl, .of_eq rfl, hb1⟩
  unfold Xnix.spawnInherit
  rcases hstdio : flags.stdio with _ | _
  · obtain ⟨k2, hk2, hkept2, hb2⟩ := hrest hb
    exact ⟨k2, hk2, hkept2, hb2⟩
  · obtain ⟨k1, hk1, hkept1, hb1⟩ := Balanced.spawnInheritByNames dst src stdioNames hb
    obtain ⟨k2, hk2, hkept2, hb2⟩ := hrest hb1
    refine ⟨k2, ?_, hkept1.trans hkept2, hb2⟩
    simp only [if_true, hk1, bind_eq_bind, bind_some]
    exact hk2

theorem Balanced.spawnCore (p child : Pid) (hs : List SpawnHandle) (flags : InheritFlags)
    (loads : Bool) : Through (ShapeKept k) ext loose (spawnCore k p child hs flags loads) := by
  obtain ⟨k1, hk1, hkept1, hb1⟩ := Balanced.spawnTransferHandles child p hs hb
  obtain ⟨k2, hk2, hkept2, hb2⟩ := hb1.spawnInherit child p flags
  unfold Xnix.spawnCore
  simp only [hk1, hk2, bind_eq_bind, bind_some]
  rcases loads with _ | _
  · obtain ⟨k3, hk3, hkept3, hb3⟩ := hb2.processDestroy child
    simp only [Bool.false_eq_true, if_false, hk3, bind_some]
    exact ⟨_, _, rfl, (hkept1.trans hkept2).trans hkept3, hb3⟩
  · exact ⟨_, _, rfl, hkept1.trans hkept2, hb2⟩

theorem Balanced.newTable {child : Pid} (hc : k.proc child = none) {pr : Process Oid}
    (hpr : pr.handles = handleTableCreate) : Balanced (k.setProc child (some pr)) ext loose := by
  have htab : (k.setProc child (some pr)).table
      = update k.table child handleTableCreate := by
    rw [table_setProc, ← hpr]
  refine hb.extend rfl rfl (fun q prq hq => ?_) htab
    ⟨cfgHandleTableSize, by rw [table_of_proc_none k hc]; rfl⟩
  by_cases hqc : q = child
  · subst hqc
    simp only [setProc, update_self, some.injEq] at hq
    rw [← hq, hpr]
    exact tableFits_handleTableCreate
  · simp only [setProc, update_of_ne hqc] at hq
    exact hb.tableFits q prq hq

theorem Balanced.sysExec (p : Pid) {child : Pid} (hc : k.proc child = none) (hs : List SpawnHandle)
    (flags : InheritFlags) (loads : Bool) :
    Through (ShapeKept k) ext loose (sysExec k p child hs flags loads) := by
  unfold Xnix.sysExec
  split
  · exact hb.stop
  split_ifs
  · exact hb.stop
  · rename_i pr _ _ _
    have hnew : Balanced (k.advance.setProc child
        (some ⟨handleTableCreate, pr.capMask, pr.irqMask, false⟩)) ext loose :=
      hb.advance.newTable hc rfl
    obtain ⟨k', r, hk', hkept, hb'⟩ := hnew.spawnCore p child hs flags loads
    exact ⟨k', r, hk', hkept, hb'⟩
  · exact ⟨_, _, rfl, .of_eq rfl, hb.advance⟩

end Calls

end Xnix
