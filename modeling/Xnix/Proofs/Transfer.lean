import Xnix.Proofs.Balance

/-!
# Entries between tables

The functions that write and remove entries. The source writes the entry first and opens the object
afterwards (and drops the object first and clears the entry afterwards); since the one touches only
a table and the other only an object, the proofs take them in the order in which the kernel stays
balanced.
-/

namespace Xnix

open Function List Option Kernel HandleEntry

variable {Pid Oid : Type} {pr : Process Oid} {p : Option (HandleEntry Oid) → Bool}
  {v : HandleEntry Oid} {t t' : HandleTable Oid} {k k' : Kernel Pid Oid} {o : Oid}
  {type : HandleType} {e e' : HandleEntry Oid} {hint srcH : ℕ} {ext : Oid → ℕ}
  {loose : List (Hold Oid)} {src dst : Pid} {rights : Rights} {slot : Slot}

section Frame

theorem typed_frame (h : k'.obj = k.obj) (type : HandleType) (o : Oid) :
    k'.typed type o = k.typed type o := by
  unfold typed
  rw [h]

variable [DecidableEq Oid] (h : k'.obj = k.obj)
include h

theorem unref_frame (o : Oid) (ob : Object Pid Oid) :
    k'.unref o ob = (k.unref o ob).map fun k1 => { k' with obj := k1.obj } := by
  unfold unref release setObj
  rw [h]
  rcases ob.unref with _ | ob'
  · rcases ob.kind with _ | _ | _ | _ | wt
    · rfl
    · rfl
    · rfl
    · rfl
    · simp only [Option.map_map]
      rfl
  · rfl

theorem handleObjectPut_frame (type : HandleType) (o : Oid) : handleObjectPut k' type o
      = (handleObjectPut k type o).map fun k1 => { k' with obj := k1.obj } := by
  unfold handleObjectPut
  rw [typed_frame h]
  split
  · simp only [map_some, ← h]
  · rcases k.typed type o with _ | ob
    · rfl
    · exact unref_frame h o ob

theorem handleObjectOpen_frame (type : HandleType) (o : Oid) : handleObjectOpen k' type o
      = (handleObjectOpen k type o).map fun k1 => { k' with obj := k1.obj } := by
  unfold handleObjectOpen setObj
  rw [typed_frame h, h]
  split
  · simp only [map_some, ← h]
  · rw [Option.map_map]
    rfl

theorem handleObjectDestroy_frame (type : HandleType) (o : Oid) : handleObjectDestroy k' type o
      = (handleObjectDestroy k type o).map fun k1 => { k' with obj := k1.obj } := by
  unfold handleObjectDestroy
  rw [typed_frame h]
  split
  · simp only [map_some, ← h]
  · rcases k.typed type o with _ | ob
    · rfl
    · exact unref_frame h o _

end Frame

section Slots
variable {h : ℕ}

theorem Allocated.countP (ha : Allocated t e t' (.at h))
    (hp : p none = false) : t'.countP p = t.countP p + if p (some e) then 1 else 0 := by
  cases ha with
  | placed hu hn =>
    have := Lib.countP_set_add p _ h (some e) none hn
    rw [hp] at this
    simp only [Bool.false_eq_true, if_false, add_zero] at this
    rw [this, hu.countP hp]

theorem Allocated.getElem? (ha : Allocated t e t' (.at h)) {i : ℕ} :
    t'[i]? = some (some v) ↔ (i = h ∧ v = e) ∨ (i ≠ h ∧ t[i]? = some (some v)) := by
  cases ha with
  | placed hu hn =>
    obtain ⟨hh, -⟩ := List.getElem?_eq_some_iff.mp hn
    by_cases hi : h = i
    · subst hi
      simp [hh, eq_comm]
    · simp [hi, Ne.symm hi, hu.getElem?]

def holds (t : HandleTable Oid) : List (Option (Hold Oid)) := t.map (Option.map HandleEntry.hold)

theorem countP_of_holds {f : Option (Hold Oid) → Bool}
    (hp : ∀ x, p x = f (x.map hold)) (hh : holds t' = holds t) : t'.countP p = t.countP p := by
  rw [show p = f ∘ Option.map hold from funext hp, ← countP_map, ← countP_map]
  exact congrArg _ hh

theorem countP_namesObject [DecidableEq Oid] (hh : holds t' = holds t) (o : Oid) :
    t'.countP (namesObject o) = t.countP (namesObject o) :=
  countP_of_holds (f := fun x => x.any (·.2 = o))
    (fun x => by cases x <;> simp [namesObject, hold]) hh

theorem countP_namesEnd [DecidableEq Oid] (hh : holds t' = holds t) (type : HandleType) (o : Oid) :
    t'.countP (namesEnd type o) = t.countP (namesEnd type o) :=
  countP_of_holds (f := fun x => x.any (· = (type, o)))
    (fun x => by cases x <;> simp [namesEnd, hold]) hh

theorem holds_getElem? (hh : holds t' = holds t) {i : ℕ} (hv : t'[i]? = some (some v)) :
    ∃ w, t[i]? = some (some w) ∧ w.type = v.type ∧ w.object = v.object := by
  have hi : (holds t')[i]? = some (some v.hold) := by
    unfold holds
    rw [getElem?_map, hv]
    rfl
  rw [hh] at hi
  unfold holds at hi
  rw [getElem?_map] at hi
  rcases hti : t[i]? with _ | _ | w
  · simp [hti] at hi
  · simp [hti] at hi
  · simp only [hti, map_some, some.injEq, hold, Prod.mk.injEq] at hi
    exact ⟨w, rfl, hi⟩

theorem holds_modify_rights (t : HandleTable Oid) (h : ℕ) (r : Rights) :
    holds (t.modify h (Option.map fun e => { e with rights := r })) = holds t := by
  unfold holds
  apply ext_getElem?
  intro i
  rw [getElem?_map, getElem?_map, getElem?_modify]
  rcases t[i]? with _ | _ | e
  · rfl
  · split <;> rfl
  · split <;> rfl

end Slots

section AllocSlot
variable [DecidableEq Pid] {p : Pid} {s : Slot}

theorem allocSlot_cases (h : allocSlot k p e hint = some (k', s)) :
    (k.proc p = none ∧ k' = k ∧ s = .invalid) ∨
      ∃ pr t', k.proc p = some pr ∧ k' = k.advance.setTable p t' ∧ Allocated (k.table p) e t' s ∧
        (TableFits (k.table p) → TableFits t') ∧
        ((hint ≠ handleInvalid → TableFits (k.table p)) → HintOk (k.table p) hint →
        ∀ i, s ≠ .stray i) := by
  unfold allocSlot at h
  rcases hp : k.proc p with _ | pr
  · simp only [hp, some.injEq, Prod.mk.injEq] at h
    exact .inl ⟨rfl, h.1.symm, h.2.symm⟩
  · simp only [hp, map_eq_some_iff, Prod.mk.injEq] at h
    obtain ⟨⟨t', s'⟩, hr, rfl, rfl⟩ := h
    obtain ⟨ha, hf, hs⟩ := handleAllocAtIn_cases hr
    rw [← table_of_proc k hp] at ha hf hs
    exact .inr ⟨pr, t', rfl, rfl, ha, hf, hs⟩

theorem allocSlot_total (hfit : ∀ pr, k.proc p = some pr → TableFits pr.handles)
    (hok : HintOk (k.table p) hint) (e : HandleEntry Oid) :
    ∃ k' s, allocSlot k p e hint = some (k', s) := by
  unfold allocSlot
  rcases hp : k.proc p with _ | pr
  · exact ⟨_, _, rfl⟩
  · rw [table_of_proc k hp] at hok
    obtain ⟨r, hr⟩ := handleAllocAtIn_total (hfit pr hp) hok (k.mem 0) e
    simp only [hr]
    exact ⟨_, _, rfl⟩

theorem hintOk_invalid (t : HandleTable Oid) : HintOk t handleInvalid := .inl rfl

end AllocSlot

section Filing
variable {p : Pid} {h : ℕ} [DecidableEq Oid]

theorem countP_hold_cons (e : HandleEntry Oid) (loose : List (Hold Oid)) (o : Oid) :
    (e.hold :: loose).countP (·.2 = o)
      = loose.countP (·.2 = o) + if e.object = o then 1 else 0 := by
  have hsnd : e.hold.2 = e.object := rfl
  by_cases h : e.object = o
  · rw [countP_cons_of_pos (by rw [hsnd]; exact decide_eq_true h), if_pos h]
  · rw [countP_cons_of_neg (by rw [hsnd, decide_eq_true_eq]; exact h), if_neg h, add_zero]

variable [DecidableEq Pid]

omit [DecidableEq Oid] in
theorem tableFits_setTable (hp : k.proc p = some pr)
    (hfit : ∀ q pr, k.proc q = some pr → TableFits pr.handles) (ht : TableFits t')
    (hproc : k'.proc = (k.setTable p t').proc) :
    ∀ q pr, k'.proc q = some pr → TableFits pr.handles := by
  intro q prq hq
  rw [hproc, setTable_proc_of_some k t' hp] at hq
  by_cases hqp : q = p
  · subst hqp
    simp only [update_self, some.injEq] at hq
    subst hq
    exact ht
  · rw [update_of_ne hqp] at hq
    exact hfit q prq hq

variable [Fintype Pid] [Fintype Oid]

theorem Balanced.retable {loose' : List (Hold Oid)} (hb : Balanced k ext loose)
    (hobj : k'.obj = k.obj) (hirq : k'.irq = k.irq)
    (hfit : ∀ q pr, k'.proc q = some pr → TableFits pr.handles)
    (htab : k'.table = update k.table p t')
    (htyped : ∀ (i : ℕ) (v : HandleEntry Oid), t'[i]? = some (some v) →
    (k.typed v.type v.object).isSome)
    (hloose : ∀ x ∈ loose', (k.typed x.1 x.2).isSome)
    (hentries : ∀ o, t'.countP (namesObject o) + loose'.countP (·.2 = o)
      = (k.table p).countP (namesObject o) + loose.countP (·.2 = o))
    (hends : ∀ type o, t'.countP (namesEnd type o) + loose'.count (type, o)
      = (k.table p).countP (namesEnd type o) + loose.count (type, o)) : Balanced k' ext loose' := by
  have hty : ∀ type o, k'.typed type o = k.typed type o := typed_frame hobj
  have hcount : ∀ type o, k'.ends type o + loose'.count (type, o)
      = k.ends type o + loose.count (type, o) := fun type o => by
    have hu := ends_update htab type o
    have := hends type o
    omega
  refine ⟨hfit, fun q i v hv => ?_, fun x hx => ?_, ?_, ?_, fun o ob ho => ?_, fun o ho => ?_,
    fun o ob r w ho hk => ?_⟩
  · rw [hty]
    rw [htab] at hv
    by_cases hq : q = p
    · subst hq
      rw [update_self] at hv
      exact htyped i v hv
    · rw [update_of_ne hq] at hv
      exact hb.entryTyped q i v hv
  · rw [hty]
    exact hloose x hx
  · rw [hobj]
    exact hb.watchTyped
  · rw [hobj, hirq]
    exact hb.irqTyped
  · rw [hobj] at ho
    have hu := entries_update htab o
    have := hentries o
    rw [hb.refs o ob ho, irqRefs_congr hirq, watchRefs_congr (shape_congr hobj)]
    omega
  · rw [hobj] at ho
    exact hb.freed o ho
  · rw [hobj] at ho
    rw [hcount, hcount]
    exact hb.pipes o ob r w ho hk

theorem Balanced.place (hb : Balanced k ext (e.hold :: loose)) (hobj : k'.obj = k.obj)
    (hirq : k'.irq = k.irq) (hfit : ∀ q pr, k'.proc q = some pr → TableFits pr.handles)
    (htab : k'.table = update k.table p t') (ha : Allocated (k.table p) e t' (.at h)) :
    Balanced k' ext loose := by
  refine hb.retable hobj hirq hfit htab (fun i v hv => ?_)
    (fun x hx => hb.looseTyped x (mem_cons_of_mem _ hx)) (fun o => ?_) fun type o => ?_
  · rcases ha.getElem?.mp hv with ⟨-, rfl⟩ | ⟨-, hv⟩
    · exact hb.looseTyped _ (mem_cons_self ..)
    · exact hb.entryTyped p i v hv
  · rw [ha.countP rfl, countP_hold_cons]
    simp only [namesObject, decide_eq_true_eq]
    omega
  · rw [ha.countP rfl, count_cons]
    simp only [namesEnd, hold, beq_iff_eq, Prod.mk.injEq, Bool.decide_and, Bool.and_eq_true,
      decide_eq_true_eq]
    omega

variable (hb : Balanced k ext loose) (hobj : k'.obj = k.obj) (hirq : k'.irq = k.irq)
  (hfit : ∀ q pr, k'.proc q = some pr → TableFits pr.handles)
include hb hobj hirq hfit

theorem Balanced.remove (htab : k'.table = update k.table p ((k.table p).set h none))
    (he : (k.table p)[h]? = some (some e)) : Balanced k' ext (e.hold :: loose) := by
  refine hb.retable hobj hirq hfit htab (fun i v hv => ?_) (fun x hx => ?_) (fun o => ?_)
    fun type o => ?_
  · rw [getElem?_set] at hv
    split_ifs at hv
    · simp at hv
    · exact hb.entryTyped p i v hv
  · rcases mem_cons.mp hx with rfl | hx
    · exact hb.entryTyped p h e he
    · exact hb.looseTyped x hx
  · have hc := Lib.countP_set_add (namesObject o) _ h none (some e) he
    rw [countP_hold_cons]
    simp only [namesObject, decide_eq_true_eq, Bool.false_eq_true, if_false] at hc ⊢
    omega
  · have hc := Lib.countP_set_add (namesEnd type o) _ h none (some e) he
    rw [count_cons]
    simp only [namesEnd, hold, beq_iff_eq, Prod.mk.injEq, Bool.decide_and,
      Bool.and_eq_true, decide_eq_true_eq, Bool.false_eq_true, if_false] at hc ⊢
    omega

theorem Balanced.retag (htab : k'.table = update k.table p t')
    (hh : holds t' = holds (k.table p)) : Balanced k' ext loose := by
  refine hb.retable hobj hirq hfit htab (fun i v hv => ?_) hb.looseTyped (fun o => ?_)
    fun type o => ?_
  · obtain ⟨w, hw, hty, hob⟩ := holds_getElem? hh hv
    rw [← hty, ← hob]
    exact hb.entryTyped p i w hw
  · rw [countP_namesObject hh]
  · rw [countP_namesEnd hh]

theorem Balanced.extend (htab : k'.table = update k.table p t')
    (he : Extends (k.table p) t') : Balanced k' ext loose := by
  refine hb.retable hobj hirq hfit htab (fun i v hv => ?_) hb.looseTyped (fun o => ?_)
    fun type o => ?_
  · rw [he.getElem?] at hv
    exact hb.entryTyped p i v hv
  · rw [he.countP rfl]
  · rw [he.countP rfl]

end Filing

section Operations
variable {p : Pid} [Fintype Pid] [Fintype Oid] [DecidableEq Oid]

theorem Balanced.acquire (hb : Balanced k ext loose) (p : Pid) (h : ℕ)
    (expected : Option HandleType) :
    ∃ k' r, handleAcquire k p h expected = some (k', r) ∧ SameButObj k k' ∧ k'.shape = k.shape ∧
      ((r = none ∧ k' = k) ∨ ∃ e, r = some e ∧ (k.table p)[h]? = some (some e) ∧
          expected.all (· = e.type) ∧ Balanced k' (plus ext e.object) loose) := by
  unfold handleAcquire
  rcases he : (k.table p)[h]? with _ | _ | e
  · exact ⟨_, _, rfl, .refl k, rfl, .inl ⟨rfl, rfl⟩⟩
  · exact ⟨_, _, rfl, .refl k, rfl, .inl ⟨rfl, rfl⟩⟩
  · simp only
    split
    · rename_i hexp
      obtain ⟨ob, hob⟩ := isSome_iff_exists.mp (hb.entryTyped p h e he)
      obtain ⟨k', hk', hs, hsh, hb'⟩ := hb.get hob
      rw [hk']
      exact ⟨_, _, rfl, hs, hsh, .inr ⟨e, rfl, rfl, hexp, hb'⟩⟩
    · exact ⟨_, _, rfl, .refl k, rfl, .inl ⟨rfl, rfl⟩⟩

variable [DecidableEq Pid]

theorem Balanced.alloc (hb : Balanced k ext ((type, o) :: loose)) (p : Pid) (name : CString) :
    ∃ k' r, handleAlloc k p type o name = some (k', r) ∧ k'.obj = k.obj ∧ k'.irq = k.irq ∧
      ((r = none ∧ k'.proc = k.proc ∧ Balanced k' ext ((type, o) :: loose)) ∨
        ∃ h, r = some h ∧ (k'.table p)[h]? = some (some (freshEntry type o name)) ∧
        Balanced k' ext loose) := by
  obtain ⟨k1, s, hk1⟩ := allocSlot_total (hb.tableFits p) (hintOk_invalid (k.table p))
    (freshEntry type o name)
  unfold handleAlloc
  rw [hk1]
  rcases allocSlot_cases hk1 with ⟨-, rfl, rfl⟩ | ⟨pr, t', hpr, rfl, ha, hf, hns⟩
  · exact ⟨_, _, rfl, rfl, rfl, .inl ⟨rfl, rfl, hb⟩⟩
  · have hfit : TableFits (k.table p) := by
      rw [table_of_proc k hpr]
      exact hb.tableFits p pr hpr
    have htab : (k.advance.setTable p t').table = update k.table p t' :=
      table_setTable k.advance t' hpr
    have hfits := tableFits_setTable (k := k.advance) hpr hb.tableFits (hf hfit) rfl
    rcases s with _ | h | h
    · cases ha
      refine ⟨_, _, rfl, setTable_obj _ _ _, setTable_irq _ _ _, .inl ⟨rfl, ?_, ?_⟩⟩
      · rw [setTable_proc_of_some k.advance _ hpr, table_of_proc k hpr]
        show update k.proc p (some pr) = k.proc
        rw [← hpr, update_eq_self]
      · exact hb.retag (setTable_obj _ _ _) (setTable_irq _ _ _) hfits htab rfl
    · refine ⟨_, _, rfl, setTable_obj _ _ _, setTable_irq _ _ _, .inr ⟨h, rfl, ?_, ?_⟩⟩
      · show ((k.advance.setTable p t').table p)[h]? = _
        rw [htab, update_self, ha.getElem?]
        exact .inl ⟨rfl, rfl⟩
      · have hplace : Balanced (k.advance.setTable p t') ext loose :=
          Balanced.place (e := freshEntry type o name) hb (setTable_obj k.advance p t')
            (setTable_irq k.advance p t') hfits htab ha
        exact hplace.congr rfl rfl rfl
    · exact absurd rfl (hns (fun _ => hfit) (hintOk_invalid _) h)

theorem Balanced.handleFree (hb : Balanced k ext loose) (p : Pid) (h : ℕ) :
    ∃ k', handleFree k p h = some k' ∧ ShapeKept k k' ∧ Balanced k' ext loose := by
  unfold Xnix.handleFree
  rcases he : (k.table p)[h]? with _ | _ | e
  · exact ⟨_, rfl, .of_eq rfl, hb⟩
  · exact ⟨_, rfl, .of_eq rfl, hb⟩
  · have hpr : ∃ pr, k.proc p = some pr := by
      rcases hp : k.proc p with _ | pr
      · rw [table_of_proc_none k hp] at he
        simp at he
      · exact ⟨pr, rfl⟩
    obtain ⟨pr, hpr⟩ := hpr
    set kr := k.setTable p ((k.table p).set h none) with hkr
    have htab : kr.table = update k.table p ((k.table p).set h none) := table_setTable k _ hpr
    have hfit : TableFits ((k.table p).set h none) := by
      have := hb.tableFits p pr hpr
      rw [← table_of_proc k hpr] at this
      exact ⟨by rw [length_set]; exact this.pos, by rw [length_set]; exact this.le⟩
    have hbr : Balanced kr ext (e.hold :: loose) :=
      hb.remove (setTable_obj _ _ _) (setTable_irq _ _ _)
        (tableFits_setTable hpr hb.tableFits hfit rfl) htab he
    obtain ⟨k1, hk1, hs, hb1⟩ := Balanced.destroy hbr
    have hobj : k.obj = kr.obj := (setTable_obj k p _).symm
    have hd := handleObjectDestroy_frame hobj e.type e.object
    rw [hk1] at hd
    simp only [hd, map_some]
    refine ⟨_, rfl, fun x => ?_, hb1.congr ?_ ?_ ?_⟩
    · have hx := hs.kept x
      unfold shape at hx ⊢
      rw [setTable_obj]
      rw [setTable_obj] at hx
      exact hx
    · rw [hs.proc, hkr, setTable_proc_of_some k _ hpr,
        setTable_proc_of_some { k with obj := k1.obj } _ hpr]
      rfl
    · rw [setTable_obj]
    · rw [setTable_irq, hs.irq, setTable_irq]

end Operations

section Inversion

def Untouched (k k' : Kernel Pid Oid) : Prop := k'.proc = k.proc ∧ k'.trail = k.trail

theorem Untouched.refl (k : Kernel Pid Oid) : Untouched k k := ⟨rfl, rfl⟩

theorem Untouched.trans {k1 k2 k3 : Kernel Pid Oid} (h : Untouched k1 k2) (h' : Untouched k2 k3) :
    Untouched k1 k3 := ⟨h'.1.trans h.1, h'.2.trans h.2⟩

variable [DecidableEq Oid]

theorem unref_untouched {ob : Object Pid Oid} (h : k.unref o ob = some k') : Untouched k k' := by
  unfold unref release at h
  split at h
  · rw [map_eq_some_iff] at h
    obtain ⟨ob', -, rfl⟩ := h
    exact ⟨rfl, rfl⟩
  · cases h
    exact ⟨rfl, rfl⟩

theorem handleObjectGet_untouched (h : handleObjectGet k type o = some k') : Untouched k k' := by
  unfold handleObjectGet at h
  split_ifs at h
  · cases h
    exact .refl k
  · rw [map_eq_some_iff] at h
    obtain ⟨ob, -, rfl⟩ := h
    exact ⟨rfl, rfl⟩

theorem handleObjectOpen_untouched (h : handleObjectOpen k type o = some k') : Untouched k k' := by
  unfold handleObjectOpen at h
  split_ifs at h
  · cases h
    exact .refl k
  · rw [map_eq_some_iff] at h
    obtain ⟨ob, -, rfl⟩ := h
    exact ⟨rfl, rfl⟩

theorem handleObjectPut_untouched (h : handleObjectPut k type o = some k') : Untouched k k' := by
  unfold handleObjectPut at h
  split_ifs at h
  · cases h
    exact .refl k
  · rw [bind_eq_some_iff] at h
    obtain ⟨ob, -, h⟩ := h
    exact unref_untouched h

theorem handleObjectDestroy_untouched (h : handleObjectDestroy k type o = some k') :
    Untouched k k' := by
  unfold handleObjectDestroy at h
  split_ifs at h
  · cases h
    exact .refl k
  · rw [bind_eq_some_iff] at h
    obtain ⟨ob, -, h⟩ := h
    exact unref_untouched h

theorem handleAcquire_cases {p : Pid} {h : ℕ} {expected : Option HandleType}
    {r : Option (HandleEntry Oid)} (ha : handleAcquire k p h expected = some (k', r)) :
    Untouched k k' ∧ ∀ e, r = some e → (k.table p)[h]? = some (some e) := by
  unfold handleAcquire at ha
  split at ha
  · rename_i e he
    split_ifs at ha
    · rw [map_eq_some_iff] at ha
      obtain ⟨k1, hk1, heq⟩ := ha
      obtain ⟨rfl, rfl⟩ := heq
      refine ⟨handleObjectGet_untouched hk1, fun e' he' => ?_⟩
      rw [he, he']
    · cases ha
      exact ⟨.refl k, fun _ h => by cases h⟩
  · cases ha
    exact ⟨.refl k, fun _ h => by cases h⟩

end Inversion

section Transferred
variable [DecidableEq Pid] {h : ℕ}

/-- What `handle_transfer` can do: give nothing, put a narrowed copy into a free slot, or write a
copy with all rights outside the table. -/
inductive Transferred (k : Kernel Pid Oid) (src : Pid) (srcH : ℕ) (dst : Pid) (hint : ℕ)
    (rights : Rights) : Kernel Pid Oid → Prop
  | refused {k' : Kernel Pid Oid} : k'.table = k.table → k'.trail = k.trail →
      Transferred k src srcH dst hint rights k'
  | placed {k' : Kernel Pid Oid} {e e' : HandleEntry Oid} {t' : HandleTable Oid} {h : ℕ} :
      (k.table src)[srcH]? = some (some e) →
      (src ≠ dst → e.rights.has handleRightTransfer) →
      e'.hold = e.hold → e'.rights = transferRights e.rights rights →
      Allocated (k.table dst) e' t' (.at h) →
      k'.table = update k.table dst t' →
      k'.trail = .derived src e dst (.at h) e' :: k.trail →
      Transferred k src srcH dst hint rights k'
  | stray {k' : Kernel Pid Oid} {e e' : HandleEntry Oid} {t' : HandleTable Oid} {h : ℕ} :
      (k.table src)[srcH]? = some (some e) →
      (src ≠ dst → e.rights.has handleRightTransfer) →
      e'.hold = e.hold → e'.rights = handleRightAll →
      Extends (k.table dst) t' → t'.length ≤ h →
      k'.table = update k.table dst t' →
      k'.trail = .derived src e dst (.stray h) e' :: k.trail →
      ¬ ((hint ≠ handleInvalid → TableFits (k.table dst)) ∧ HintOk (k.table dst) hint) →
      Transferred k src srcH dst hint rights k'

theorem Allocated.narrow (r : Rights) (ha : Allocated t e t' (.at h)) :
    Allocated t { e with rights := r } (t'.modify h (Option.map fun v => { v with rights := r }))
      (.at h) := by
  cases ha with
  | @placed u _ hu hn =>
    have hset : (u.set h (some e)).modify h (Option.map fun v => { v with rights := r })
        = u.set h (some { e with rights := r }) := by
      apply ext_getElem?
      intro i
      obtain ⟨hh, -⟩ := List.getElem?_eq_some_iff.mp hn
      by_cases hi : h = i
      · subst hi
        simp [hh]
      · simp [hi]
    rw [hset]
    exact .placed hu hn

theorem Allocated.lt_length (ha : Allocated t e t' (.at h)) : h < t'.length := by
  cases ha with
  | placed hu hn =>
    rw [length_set]
    exact (List.getElem?_eq_some_iff.mp hn).1

theorem transferInto_cases [DecidableEq Oid] {r : Option ℕ}
    (ht : transferInto k src e dst slot h e' rights = some (k', r)) :
    r = some h ∧ ∃ k1, Untouched k k1 ∧
      ((h < (k.table dst).length ∧ k' = (setRights k1 dst h (transferRights e.rights rights)).record
          (.derived src e dst slot { e' with rights := transferRights e.rights rights })) ∨
        ((k.table dst).length ≤ h ∧ k' = k1.record (.derived src e dst slot e'))) := by
  unfold transferInto at ht
  simp only [bind_eq_bind, bind_eq_some_iff] at ht
  obtain ⟨k1, hk1, k2, hk2, ht⟩ := ht
  have hu := (handleObjectOpen_untouched hk1).trans (handleObjectPut_untouched hk2)
  have htab := table_congr hu.1
  split_ifs at ht with hlt
  · rw [htab] at hlt
    cases ht
    exact ⟨rfl, k2, hu, .inl ⟨hlt, rfl⟩⟩
  · rw [htab] at hlt
    cases ht
    exact ⟨rfl, k2, hu, .inr ⟨by omega, rfl⟩⟩

theorem handleTransfer_cases [DecidableEq Oid] {name : Option CString} {r : Option ℕ}
    (ht : handleTransfer k src srcH dst name hint rights = some (k', r)) :
    Transferred k src srcH dst hint rights k' := by
  unfold handleTransfer at ht
  split_ifs at ht with hdst
  · cases ht
    exact .refused rfl rfl
  obtain ⟨pr, hpr⟩ : ∃ pr, k.proc dst = some pr := by
    rcases hp : k.proc dst with _ | pr
    · simp [hp] at hdst
    · exact ⟨pr, rfl⟩
  simp only [bind_eq_bind, bind_eq_some_iff] at ht
  obtain ⟨⟨k1, r1⟩, hacq, ht⟩ := ht
  obtain ⟨hu1, hsrc⟩ := handleAcquire_cases hacq
  have htab1 := table_congr hu1.1
  rcases r1 with _ | e
  · cases ht
    exact .refused htab1 hu1.2
  simp only at ht
  split_ifs at ht with hright
  · simp only [bind_eq_some_iff] at ht
    obtain ⟨k2, hput, ht⟩ := ht
    cases ht
    have hu := hu1.trans (handleObjectPut_untouched hput)
    exact .refused (table_congr hu.1) hu.2
  have hperm : src ≠ dst → e.rights.has handleRightTransfer := fun hne => by
    by_contra hno
    exact hright ⟨hne, by simpa using hno⟩
  simp only [bind_eq_some_iff] at ht
  obtain ⟨⟨k2, slot⟩, halloc, ht⟩ := ht
  have hpr1 : k1.proc dst = some pr := by rw [hu1.1, hpr]
  rcases allocSlot_cases halloc with ⟨hno, -⟩ | ⟨pr', t', -, rfl, ha, -, hns⟩
  · rw [hpr1] at hno
    cases hno
  have htab2 : (k1.advance.setTable dst t').table = update k.table dst t' := by
    rw [table_setTable k1.advance t' hpr1, ← htab1]
    rfl
  have htrail2 : (k1.advance.setTable dst t').trail = k.trail := by
    rw [setTable_trail]
    exact hu1.2
  rw [htab1] at ha hns
  rcases slot with _ | h | h
  · cases ha
    simp only [bind_eq_some_iff] at ht
    obtain ⟨k3, hput, ht⟩ := ht
    cases ht
    have hu := handleObjectPut_untouched hput
    refine .refused ?_ (hu.2.trans htrail2)
    rw [table_congr hu.1, htab2, update_eq_self]
  · obtain ⟨rfl, k3, hu, ⟨-, rfl⟩ | ⟨hge, -⟩⟩ := transferInto_cases ht
    · have hpr3 : ∃ pr3, k3.proc dst = some pr3 := by
        rw [hu.1, setTable_proc_of_some k1.advance t' hpr1]
        exact ⟨_, by rw [update_self]⟩
      obtain ⟨pr3, hpr3⟩ := hpr3
      have htab3 : k3.table dst = t' := by
        rw [table_congr hu.1, htab2, update_self]
      have hnarrow := ha.narrow (transferRights e.rights rights)
      have htrail : (setRights k3 dst h (transferRights e.rights rights)).trail = k.trail := by
        unfold setRights
        rw [setTable_trail, hu.2, htrail2]
      refine .placed (hsrc e rfl) hperm ?_ ?_ hnarrow ?_ (congrArg _ htrail)
      · rfl
      · rfl
      · show (setRights k3 dst h _).table = _
        unfold setRights
        rw [table_setTable k3 _ hpr3, htab3, table_congr hu.1, htab2, update_idem]
    · rw [htab2, update_self] at hge
      exact absurd ha.lt_length (by omega)
  · obtain ⟨rfl, k3, hu, ⟨hlt, -⟩ | ⟨hge, rfl⟩⟩ := transferInto_cases ht
    · rw [htab2, update_self] at hlt
      cases ha with
      | stray hext hle => omega
    · cases ha with
      | stray hext hle =>
        have hhold : (freshEntry e.type e.object (name.getD e.name)).hold = e.hold := rfl
        have htrail : k3.trail = k.trail := hu.2.trans htrail2
        refine .stray (hsrc e rfl) hperm hhold rfl hext hle ?_ (congrArg _ htrail)
          fun hok => hns hok.1 hok.2 h rfl
        show k3.table = _
        rw [table_congr hu.1, htab2]

end Transferred

section BalancedTransfer
variable [Fintype Pid] [Fintype Oid] [DecidableEq Oid] [DecidableEq Pid] {h : ℕ}

theorem Balanced.setRights (hb : Balanced k ext loose) (p : Pid) (h : ℕ) (r : Rights) :
    Balanced (setRights k p h r) ext loose := by
  unfold Xnix.setRights
  rcases hp : k.proc p with _ | pr
  · unfold setTable
    rw [hp]
    exact hb
  · have hfit := hb.tableFits p pr hp
    rw [← table_of_proc k hp] at hfit
    refine hb.retag (setTable_obj _ _ _) (setTable_irq _ _ _)
      (tableFits_setTable hp hb.tableFits ⟨?_, ?_⟩ rfl) (table_setTable k _ hp)
      (holds_modify_rights _ h r)
    · rw [length_modify]
      exact hfit.pos
    · rw [length_modify]
      exact hfit.le

section
variable (hb : Balanced k (plus ext e.object) loose) (htyped : (k.typed e.type e.object).isSome)
  (hpr : k.proc dst = some pr)
include hb htyped hpr

/-- Filing the entry and then opening the object is as good as the other order: `hb` is the state
after `handle_acquire`. -/
theorem Balanced.transferInto (hhold : e'.hold = e.hold) (hfit : TableFits t')
    (ha : Allocated (k.table dst) e' t' (.at h)) (src : Pid) (rights : Rights) :
    ∃ k' r, transferInto (k.advance.setTable dst t') src e dst (.at h) h e' rights = some (k', r) ∧
      ShapeKept k k' ∧ Balanced k' ext loose := by
  set k2 := k.advance.setTable dst t' with hk2
  have hobj : k2.obj = k.obj := setTable_obj k.advance dst t'
  have hirq : k2.irq = k.irq := setTable_irq k.advance dst t'
  obtain ⟨ko, hko, hso, hsho, hbo⟩ := hb.opened htyped
  have hopen := handleObjectOpen_frame hobj e.type e.object
  rw [hko, map_some] at hopen
  have htab : k2.table = update ko.table dst t' := by
    rw [table_congr hso.proc]
    exact table_setTable k.advance t' hpr
  have hplace : Balanced { k2 with obj := ko.obj } (plus ext e.object) loose := by
    have hbo' : Balanced ko (plus ext e.object) (e'.hold :: loose) := by
      rw [hhold]
      exact hbo
    have ha' : Allocated (ko.table dst) e' t' (.at h) := by
      rw [table_congr hso.proc]
      exact ha
    exact hbo'.place rfl (hirq.trans hso.irq.symm)
      (tableFits_setTable (k := k.advance) hpr hb.tableFits hfit rfl) htab ha'
  have hkept2 : ShapeKept k { k2 with obj := ko.obj } := .of_eq hsho
  have htyped2 : (typed { k2 with obj := ko.obj } e.type e.object).isSome := by
    refine hkept2.typed htyped fun hn => ?_
    have := hplace.freed e.object hn
    rw [plus_self] at this
    omega
  obtain ⟨kp, hkp, hsp, hbp⟩ := hplace.put htyped2
  have hlen : h < (kp.table dst).length := by
    rw [table_congr hsp.proc]
    show h < (k2.table dst).length
    rw [htab, update_self]
    exact ha.lt_length
  unfold Xnix.transferInto
  simp only [hopen, hkp, bind_eq_bind, bind_some, if_pos hlen]
  refine ⟨_, _, rfl, ?_, (hbp.setRights dst h _).congr rfl rfl rfl⟩
  exact (hkept2.trans hsp.kept).trans (.of_eq (shape_congr (setTable_obj ..)))

/-- A write outside the table leaves the entry it made loose for good. -/
theorem Balanced.transferStray (hfit : TableFits t') (he : Extends (k.table dst) t')
    (hle : t'.length ≤ h) (src : Pid) (rights : Rights) (e' : HandleEntry Oid) :
    ∃ k' r, Xnix.transferInto (k.advance.setTable dst t') src e dst (.stray h) h e' rights
        = some (k', r) ∧ ShapeKept k k' ∧ Balanced k' ext (e.hold :: loose) := by
  set k2 := k.advance.setTable dst t' with hk2
  have hobj : k2.obj = k.obj := setTable_obj k.advance dst t'
  have hirq : k2.irq = k.irq := setTable_irq k.advance dst t'
  have htab : k2.table = update k.table dst t' := table_setTable k.advance t' hpr
  have hb2 : Balanced k2 (plus ext e.object) loose :=
    hb.extend hobj hirq (tableFits_setTable (k := k.advance) hpr hb.tableFits hfit rfl) htab he
  have htyped2 : (k2.typed e.type e.object).isSome := by
    rw [typed_frame hobj]
    exact htyped
  have hkept2 : ShapeKept k k2 := .of_eq (shape_congr hobj)
  obtain ⟨ko, hko, hso, hsho, hbo⟩ := hb2.opened htyped2
  have htypedo : (ko.typed e.type e.object).isSome := by
    rw [typed_isSome_iff, hsho, ← typed_isSome_iff]
    exact htyped2
  obtain ⟨kp, hkp, hsp, hbp⟩ := hbo.put htypedo
  have hlen : ¬ h < (kp.table dst).length := by
    rw [table_congr hsp.proc, table_congr hso.proc, htab, update_self]
    omega
  unfold Xnix.transferInto
  simp only [hko, hkp, bind_eq_bind, bind_some, if_neg hlen]
  exact ⟨_, _, rfl, (hkept2.trans hso.kept).trans hsp.kept, hbp.congr rfl rfl rfl⟩

end

/-- `handle_transfer` keeps the balance, up to an entry outside the table; when the capacity does
not wrap it has a next state and no such entry. -/
theorem Balanced.transfer_cases (hb : Balanced k ext loose) (src : Pid) (srcH : ℕ) (dst : Pid)
    (name : Option CString) (hint : ℕ) (rights : Rights) :
    (handleTransfer k src srcH dst name hint rights = none ∧ ¬ HintOk (k.table dst) hint) ∨
    ∃ k' r loose', handleTransfer k src srcH dst name hint rights = some (k', r) ∧
      ShapeKept k k' ∧ Balanced k' ext loose' ∧
      (HintOk (k.table dst) hint → loose' = loose) := by
  unfold handleTransfer
  rcases hdst : k.proc dst with _ | pr
  · exact .inr ⟨_, _, loose, rfl, .of_eq rfl, hb, fun _ => rfl⟩
  obtain ⟨k1, r1, hacq, hs1, hsh1, hr1⟩ := hb.acquire src srcH none
  simp only [hacq, isNone_some, Bool.false_eq_true, if_false, bind_eq_bind, bind_some]
  rcases hr1 with ⟨rfl, rfl⟩ | ⟨e, rfl, he, -, hb1⟩
  · exact .inr ⟨_, _, loose, rfl, .of_eq rfl, hb, fun _ => rfl⟩
  have htyped : (k1.typed e.type e.object).isSome := by
    rw [typed_isSome_iff, hsh1, ← typed_isSome_iff]
    exact hb.entryTyped src srcH e he
  have hkept1 : ShapeKept k k1 := .of_eq hsh1
  simp only
  split_ifs with hright
  · obtain ⟨k2, hput, hs2, hb2⟩ := hb1.put htyped
    rw [hput]
    exact .inr ⟨_, _, loose, rfl, hkept1.trans hs2.kept, hb2, fun _ => rfl⟩
  have hpr1 : k1.proc dst = some pr := by rw [hs1.proc, hdst]
  have hfit1 : TableFits (k1.table dst) := by
    rw [table_of_proc k1 hpr1]
    exact hb1.tableFits dst pr hpr1
  rw [← table_congr hs1.proc]
  rcases halloc : allocSlot k1 dst (freshEntry e.type e.object (name.getD e.name)) hint
    with _ | ⟨k2, slot⟩
  · refine .inl ⟨rfl, fun hok => ?_⟩
    obtain ⟨_, _, h⟩ := allocSlot_total (hb1.tableFits dst) hok
      (freshEntry e.type e.object (name.getD e.name))
    rw [halloc] at h
    cases h
  right
  rcases allocSlot_cases halloc with ⟨hno, -⟩ | ⟨pr', t', -, rfl, ha, hf, hns⟩
  · rw [hpr1] at hno
    cases hno
  rcases slot with _ | h | h
  · cases ha
    have hb2 : Balanced (k1.advance.setTable dst (k1.table dst)) (plus ext e.object) loose :=
      hb1.retag (setTable_obj k1.advance dst _) (setTable_irq k1.advance dst _)
        (tableFits_setTable (k := k1.advance) hpr1 hb1.tableFits hfit1 rfl)
        (table_setTable k1.advance _ hpr1) rfl
    have hobj2 : (k1.advance.setTable dst (k1.table dst)).obj = k1.obj :=
      setTable_obj k1.advance dst _
    have htyped2 : ((k1.advance.setTable dst (k1.table dst)).typed e.type e.object).isSome := by
      rw [typed_frame hobj2]
      exact htyped
    obtain ⟨k3, hput, hs3, hb3⟩ := hb2.put htyped2
    simp only [hput, bind_some]
    refine ⟨_, _, loose, rfl, ?_, hb3, fun _ => rfl⟩
    exact hkept1.trans (.trans (.of_eq (shape_congr hobj2)) hs3.kept)
  · have hhold : (freshEntry e.type e.object (name.getD e.name)).hold = e.hold := rfl
    obtain ⟨k3, r, hk3, hkept, hb3⟩ := hb1.transferInto htyped hpr1 hhold (hf hfit1) ha src rights
    exact ⟨k3, r, loose, hk3, hkept1.trans hkept, hb3, fun _ => rfl⟩
  · cases ha with
    | stray hext hle =>
      obtain ⟨k3, r, hk3, hkept, hb3⟩ :=
        hb1.transferStray htyped hpr1 (hf hfit1) hext hle src rights
          (freshEntry e.type e.object (name.getD e.name))
      exact ⟨k3, r, _, hk3, hkept1.trans hkept, hb3,
        fun hok => absurd rfl (hns (fun _ => hfit1) hok h)⟩

theorem Balanced.transfer (hb : Balanced k ext loose) (hok : HintOk (k.table dst) hint)
    (src : Pid) (srcH : ℕ) (name : Option CString) (rights : Rights) :
    ∃ k' r, handleTransfer k src srcH dst name hint rights = some (k', r) ∧ ShapeKept k k' ∧
      Balanced k' ext loose := by
  rcases hb.transfer_cases src srcH dst name hint rights with
    ⟨-, hno⟩ | ⟨k', r, loose', hk', hkept, hb', heq⟩
  · exact absurd hok hno
  · rw [heq hok] at hb'
    exact ⟨k', r, hk', hkept, hb'⟩

end BalancedTransfer

end Xnix
