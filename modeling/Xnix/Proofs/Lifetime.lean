import Xnix.Proofs.Transfer

/-!
# The first and the last reference

Making an object, and destroying a process with all the entries of its table.
-/

namespace Xnix

open List

variable {Pid Oid : Type}

section Lifetime
variable {k k' : Kernel Pid Oid} {ext : Oid → ℕ} {loose : List (Hold Oid)} {o : Oid}
  {ob : Object Pid Oid} [DecidableEq Oid]

theorem handleTableDestroy_frame : ∀ (t : HandleTable Oid) {k k' : Kernel Pid Oid}, k'.obj = k.obj →
    handleTableDestroy k' t = (handleTableDestroy k t).map fun k1 => { k' with obj := k1.obj }
  | [], k, k', h => by
    simp only [handleTableDestroy, Option.map_some, ← h]
  | none :: t, k, k', h => handleTableDestroy_frame t h
  | some e :: t, k, k', h => by
    simp only [handleTableDestroy, handleObjectDestroy_frame h, Option.bind_eq_bind]
    rcases handleObjectDestroy k e.type e.object with _ | k1
    · rfl
    · have hobj : ({ k' with obj := k1.obj } : Kernel Pid Oid).obj = k1.obj := rfl
      exact handleTableDestroy_frame t hobj

variable [Fintype Pid]

def looseOf (t : HandleTable Oid) : List (Hold Oid) := t.filterMap (Option.map HandleEntry.hold)

theorem countP_looseOf (t : HandleTable Oid) (o : Oid) :
    (looseOf t).countP (·.2 = o) = t.countP (namesObject o) := by
  induction t with
  | nil => rfl
  | cons x t ih =>
    rcases x with _ | e
    · rw [countP_cons_of_neg (by simp [namesObject])]
      exact ih
    · show (e.hold :: looseOf t).countP (·.2 = o) = _
      rw [countP_hold_cons, ih, countP_cons]
      simp [namesObject]

theorem count_looseOf (t : HandleTable Oid) (type : HandleType) (o : Oid) :
    (looseOf t).count (type, o) = t.countP (namesEnd type o) := by
  induction t with
  | nil => rfl
  | cons x t ih =>
    rcases x with _ | e
    · rw [countP_cons_of_neg (by simp [namesEnd])]
      exact ih
    · show (e.hold :: looseOf t).count (type, o) = _
      rw [count_cons, ih, countP_cons]
      simp [namesEnd, HandleEntry.hold]

variable [Fintype Oid]

theorem Balanced.tableDestroy :
    ∀ (t : HandleTable Oid) {k : Kernel Pid Oid}, Balanced k ext (looseOf t ++ loose) →
    ∃ k', handleTableDestroy k t = some k' ∧ SameButObj k k' ∧ Balanced k' ext loose
  | [], k, hb => ⟨k, rfl, .refl k, hb⟩
  | none :: t, k, hb => Balanced.tableDestroy t hb
  | some e :: t, k, hb => by
    obtain ⟨k1, hk1, hs1, hb1⟩ := hb.destroy
    obtain ⟨k2, hk2, hs2, hb2⟩ := Balanced.tableDestroy t hb1
    refine ⟨k2, ?_, hs1.trans hs2, hb2⟩
    unfold handleTableDestroy
    rw [hk1]
    exact hk2

theorem Balanced.processDestroy [DecidableEq Pid] (hb : Balanced k ext loose) (p : Pid) :
    ∃ k', processDestroy k p = some k' ∧ ShapeKept k k' ∧ Balanced k' ext loose := by
  have htab : (k.setProc p none).table = Function.update k.table p [] := table_setProc k p none
  have hbr : Balanced (k.setProc p none) ext (looseOf (k.table p) ++ loose) := by
    refine hb.retable rfl rfl (fun q pr hq => ?_) htab (by simp) (fun x hx => ?_) (fun o => ?_)
      fun type o => ?_
    · by_cases hqp : q = p
      · subst hqp
        simp [Kernel.setProc] at hq
      · exact hb.tableFits q pr (by simpa [Kernel.setProc, hqp] using hq)
    · rcases mem_append.mp hx with hx | hx
      · obtain ⟨y, hy, hyx⟩ := mem_filterMap.mp hx
        obtain ⟨e, rfl, rfl⟩ := Option.map_eq_some_iff.mp hyx
        obtain ⟨i, hi⟩ := mem_iff_getElem?.mp hy
        exact hb.entryTyped p i e hi
      · exact hb.looseTyped x hx
    · rw [countP_append, countP_looseOf, countP_nil, zero_add]
    · rw [count_append, count_looseOf, countP_nil, zero_add]
  obtain ⟨k1, hk1, hs, hb1⟩ := Balanced.tableDestroy (k.table p) hbr
  have hd := handleTableDestroy_frame (k.table p) (show k.obj = (k.setProc p none).obj from rfl)
  rw [hk1, Option.map_some] at hd
  unfold Xnix.processDestroy
  rw [hd]
  refine ⟨_, rfl, hs.kept, hb1.congr ?_ rfl ?_⟩
  · exact hs.proc.symm
  · exact hs.irq.symm

omit [Fintype Pid] in
theorem watchRefs_create (ho : k.obj o = none) (ob : Object Pid Oid) (x : Oid) :
    (k.setObj o (some ob)).watchRefs x = k.watchRefs x + watchWeight x (some ob) := by
  have h := Lib.sum_weight_update k.obj (watchWeight x) o (some ob)
  rw [ho] at h
  exact h

theorem Balanced.create (new : List (Hold Oid))
    (hb : Balanced k (fun x => ext x + watchWeight x (some ob)) loose) (ho : k.obj o = none)
    (hnew : ∀ x ∈ new, x.2 = o ∧ x.1.fits ob.kind) (hrefs : ob.refcount = new.length + ext o)
    (hpipe : ∀ r w, ob.kind = .pipe r w → r = new.count (.pipeRead, o) ∧
    w = new.count (.pipeWrite, o))
    (hwatch : ∀ wt, ob.kind = .watch wt → ∃ ob', k.obj wt.notif = some ob' ∧ ob'.kind = .event) :
    Balanced (k.setObj o (some ob)) ext (new ++ loose) := by
  obtain ⟨hent, hloose, hwr, hir, hext⟩ := hb.no_holders ho
  have hne : ∀ {type x}, (k.typed type x).isSome → x ≠ o := fun {type x} h hx => by
    obtain ⟨sh, hs, -⟩ := typed_isSome_iff.mp h
    simp [Kernel.shape, hx, ho] at hs
  have htyped : ∀ {type x}, (k.typed type x).isSome →
    ((k.setObj o (some ob)).typed type x).isSome := fun h => (typed_setObj_of_ne _ (hne h)).mpr h
  have hev : ∀ x, (∃ ob, k.obj x = some ob ∧ ob.kind = .event) →
      ∃ ob', (k.setObj o (some ob)).obj x = some ob' ∧ ob'.kind = .event := by
    rintro x ⟨ob', hx, hk⟩
    refine ⟨ob', ?_, hk⟩
    rw [setObj_obj_of_ne k _ (fun h => by rw [h, ho] at hx; cases hx)]
    exact hx
  have hend : ∀ type x, x ≠ o → new.count (type, x) = 0 := fun type x hx =>
    count_eq_zero.mpr fun hm => hx (hnew _ hm).1
  refine ⟨hb.tableFits, fun p h e he => htyped (hb.entryTyped p h e he), fun x hx => ?_,
    fun w obw wt hw hk => ?_, fun i b x hbm hn => hev x (hb.irqTyped i b x hbm hn),
    fun x obx hx => ?_, fun x hx => ?_, fun x obx r w hx hk => ?_⟩
  · rcases mem_append.mp hx with hx | hx
    · obtain ⟨hxo, hfit⟩ := hnew x hx
      rw [typed_isSome_iff]
      exact ⟨ob.kind.shape, by simp [Kernel.shape, hxo], by rw [fits_shape]; exact hfit⟩
    · exact htyped (hb.looseTyped x hx)
  · rcases setObj_obj_cases hw with ⟨rfl, hv⟩ | ⟨-, hw⟩
    · cases hv
      exact hev _ (hwatch wt hk)
    · exact hev _ (hb.watchTyped w obw wt hw hk)
  · have he : (k.setObj o (some ob)).entries x = k.entries x := entries_congr rfl x
    have hi : (k.setObj o (some ob)).irqRefs x = k.irqRefs x := irqRefs_congr rfl x
    have hw := watchRefs_create ho ob x
    rw [countP_append]
    rcases setObj_obj_cases hx with ⟨rfl, hv⟩ | ⟨hxo, hx⟩
    · cases hv
      have hall : new.countP (·.2 = x) = new.length :=
        countP_eq_length.mpr fun y hy => by simpa using (hnew y hy).1
      omega
    · have hr := hb.refs x obx hx
      have hz : new.countP (·.2 = x) = 0 := countP_eq_zero.mpr fun y hy h => hxo (by
          have hyx : y.2 = x := by simpa using h
          rw [← hyx, (hnew y hy).1])
      omega
  · rcases setObj_obj_cases hx with ⟨-, hv⟩ | ⟨-, hx⟩
    · cases hv
    · have := hb.freed x hx
      omega
  · have he : ∀ type, (k.setObj o (some ob)).ends type x = k.ends type x :=
      fun type => ends_congr rfl type x
    rw [he, he, count_append, count_append]
    rcases setObj_obj_cases hx with ⟨rfl, hv⟩ | ⟨hxo, hx⟩
    · cases hv
      have hz : ∀ type, k.ends type x = 0 ∧ loose.count (type, x) = 0 := fun type => by
        constructor
        · refine Nat.le_zero.mp (le_trans ?_ hent.le)
          exact Finset.sum_le_sum fun p _ => countP_mono_left fun y _ hy => by
            rcases y with _ | e
            · simp [namesEnd] at hy
            · simp only [namesEnd, decide_eq_true_eq] at hy
              simpa [namesObject] using hy.2
        · refine count_eq_zero.mpr fun hm => ?_
          exact hne (hb.looseTyped _ hm) rfl
      obtain ⟨hr, hw⟩ := hpipe r w hk
      rw [(hz _).1, (hz _).1, (hz _).2, (hz _).2]
      omega
    · rw [hend _ x hxo, hend _ x hxo, zero_add, zero_add]
      exact hb.pipes x obx r w hx hk

end Lifetime

end Xnix
