import Xnix.Counts
import Xnix.Proofs.Table

/-!
# References are conserved

What each function of `kernel/handle` does to `Balanced`: taking a reference adds an external one,
opening an object makes a loose entry, an allocator files a loose entry into a table. Each lemma
also says that the function has a next state, so no balanced kernel touches a freed object.
-/

namespace Xnix

open List Option Kernel

variable {Pid Oid : Type} {k k' k₁ k₂ k₃ : Kernel Pid Oid} {t : HandleTable Oid} {p : Pid}
  {ob : Object Pid Oid} {type : HandleType} {o : Oid} {ob' : Object Pid Oid} {x : Oid}

section Shape

/-- A kind without its counters and flags: what typing and ownership depend on. -/
def Kind.shape : Kind Pid Oid → Kind Pid Oid
  | .pipe _ _ => .pipe 0 0
  | .watch w => .watch { w with target := none, armed := false }
  | k => k

def Kernel.shape (k : Kernel Pid Oid) (o : Oid) : Option (Kind Pid Oid) :=
  (k.obj o).map fun ob => ob.kind.shape

@[simp] theorem fits_shape (type : HandleType) (kd : Kind Pid Oid) :
    type.fits kd.shape = type.fits kd := by
  cases type <;> cases kd <;> rfl

@[simp] theorem shape_openEnd (type : HandleType) (kd : Kind Pid Oid) :
    (kd.openEnd type).shape = kd.shape := by
  cases type <;> cases kd <;> rfl

@[simp] theorem shape_closeEnd (type : HandleType) (kd : Kind Pid Oid) :
    (kd.closeEnd type).shape = kd.shape := by
  cases type <;> cases kd <;> rfl

@[simp] theorem shape_disarm (kd : Kind Pid Oid) : kd.disarm.shape = kd.shape := by
  cases kd <;> rfl

variable {kd : Kind Pid Oid} {r w : ℕ}

theorem shape_eq_event : kd.shape = .event ↔ kd = .event := by
  cases kd <;> simp [Kind.shape]

theorem disarm_eq_pipe : kd.disarm = .pipe r w ↔ kd = .pipe r w := by
  cases kd <;> simp [Kind.disarm]

theorem openEnd_eq_pipe (hf : type.fits kd) (hk : kd.openEnd type = .pipe r w) :
    (type = .pipeRead ∧ ∃ r0, r = r0 + 1 ∧ kd = .pipe r0 w) ∨
      (type = .pipeWrite ∧ ∃ w0, w = w0 + 1 ∧ kd = .pipe r w0) := by
  cases type <;> cases kd <;> simp_all [HandleType.fits, Kind.openEnd, eq_comm]

theorem closeEnd_eq_pipe (hf : type.fits kd) (hk : kd.closeEnd type = .pipe r w) :
    (type = .pipeRead ∧ ∃ r0, r = r0 - 1 ∧ kd = .pipe r0 w) ∨
      (type = .pipeWrite ∧ ∃ w0, w = w0 - 1 ∧ kd = .pipe r w0) := by
  cases type <;> cases kd <;> simp_all [HandleType.fits, Kind.closeEnd, eq_comm]

theorem typed_isSome_iff : (k.typed type o).isSome ↔ ∃ sh, k.shape o = some sh ∧ type.fits sh := by
  unfold typed shape
  rcases k.obj o with _ | ob
  · simp
  · simp [Option.filter]

theorem typed_eq_some_iff : k.typed type o = some ob ↔ k.obj o = some ob ∧ type.fits ob.kind := by
  unfold typed
  rw [filter_eq_some_iff]

theorem exists_event_iff :
    (∃ ob, k.obj o = some ob ∧ ob.kind = .event) ↔ k.shape o = some .event := by
  unfold shape
  rcases k.obj o with _ | ob
  · simp
  · simp [shape_eq_event]

theorem not_uncounted_of_fits (h : type.fits kd) : type.uncounted = false := by
  cases type <;> cases kd <;> first | rfl | cases h

theorem watchWeight_congr [DecidableEq Oid] (o : Oid) {v v' : Option (Object Pid Oid)}
    (h : v'.map (fun ob => ob.kind.shape) = v.map fun ob => ob.kind.shape) :
    watchWeight o v' = watchWeight o v := by
  rcases v with _ | ⟨kd, _, _⟩ <;> rcases v' with _ | ⟨kd', _, _⟩
  · rfl
  · simp at h
  · simp at h
  · simp only [map_some, some.injEq] at h
    cases kd <;> cases kd' <;> simp_all [Kind.shape, watchWeight]

theorem shape_congr (h : k'.obj = k.obj) : k'.shape = k.shape := by
  funext x
  unfold shape
  rw [h]

theorem obj_none_iff (h : k'.shape = k.shape) (o : Oid) : k'.obj o = none ↔ k.obj o = none := by
  have := congrFun h o
  unfold shape at this
  rw [← map_eq_none_iff, this, map_eq_none_iff]

theorem shape_setObj [DecidableEq Oid] (ob' : Object Pid Oid) (ho : k.obj o = some ob)
    (hk : ob'.kind.shape = ob.kind.shape) : (k.setObj o (some ob')).shape = k.shape := by
  funext x
  unfold shape
  by_cases hx : x = o
  · subst hx
    simp [ho, hk]
  · rw [setObj_obj_of_ne k _ hx]

theorem setObj_obj_cases [DecidableEq Oid] {v w : Option (Object Pid Oid)}
    (h : (k.setObj o v).obj x = w) : x = o ∧ v = w ∨ x ≠ o ∧ k.obj x = w := by
  by_cases hx : x = o
  · subst hx
    rw [setObj_obj_self] at h
    exact .inl ⟨rfl, h⟩
  · rw [setObj_obj_of_ne k _ hx] at h
    exact .inr ⟨hx, h⟩

theorem typed_setObj_of_ne [DecidableEq Oid] (v : Option (Object Pid Oid)) (hx : x ≠ o) :
    ((k.setObj o v).typed type x).isSome ↔ (k.typed type x).isSome := by
  rw [typed_isSome_iff, typed_isSome_iff]
  unfold shape
  rw [setObj_obj_of_ne k _ hx]

end Shape

section Tallies
variable [DecidableEq Oid]

theorem irqRefs_congr (h : k'.irq = k.irq) (o : Oid) : k'.irqRefs o = k.irqRefs o := by
  unfold irqRefs
  rw [h]

theorem irqRefs_pos {i : Fin archNrIrqs} {b : IrqBinding Pid Oid} (hb : some b ∈ k.irq i)
    (ho : b.notif = some o) : 0 < k.irqRefs o := by
  have hone : 0 < (k.irq i).countP (bindsEvent o) :=
    countP_pos_iff.mpr ⟨some b, hb, by simp [bindsEvent, ho]⟩
  exact lt_of_lt_of_le hone (Lib.single_le_sum_weight k.irq (countP (bindsEvent o)) i)

variable [Fintype Pid]

theorem entries_congr (h : k'.proc = k.proc) (o : Oid) : k'.entries o = k.entries o := by
  unfold entries
  rw [table_congr h]

theorem ends_congr (h : k'.proc = k.proc) (type : HandleType) (o : Oid) :
    k'.ends type o = k.ends type o := by
  unfold ends
  rw [table_congr h]

theorem entries_update [DecidableEq Pid]
    (h : k'.table = Function.update k.table p t) (o : Oid) :
    k'.entries o + (k.table p).countP (namesObject o)
      = k.entries o + t.countP (namesObject o) := by
  unfold entries
  rw [h]
  exact Lib.sum_weight_update k.table (countP (namesObject o)) p t

theorem ends_update [DecidableEq Pid]
    (h : k'.table = Function.update k.table p t) (type : HandleType) (o : Oid) :
    k'.ends type o + (k.table p).countP (namesEnd type o)
      = k.ends type o + t.countP (namesEnd type o) := by
  unfold ends
  rw [h]
  exact Lib.sum_weight_update k.table (countP (namesEnd type o)) p t

theorem entries_pos {h : ℕ} {e : HandleEntry Oid}
    (he : (k.table p)[h]? = some (some e)) : 0 < k.entries e.object := by
  have hone : 0 < (k.table p).countP (namesObject e.object) :=
    countP_pos_iff.mpr ⟨some e, mem_of_getElem? he, by simp [namesObject]⟩
  exact lt_of_lt_of_le hone
    (Lib.single_le_sum_weight k.table (countP (namesObject e.object)) p)

variable [Fintype Oid]

omit [Fintype Pid] in
theorem watchRefs_congr (h : k'.shape = k.shape) (o : Oid) : k'.watchRefs o = k.watchRefs o := by
  exact Finset.sum_congr rfl fun w _ => watchWeight_congr o (congrFun h w)

omit [Fintype Pid] in
theorem watchRefs_free (k : Kernel Pid Oid) (w o : Oid) :
    (k.setObj w none).watchRefs o + watchWeight o (k.obj w) = k.watchRefs o := by
  have h := Lib.sum_weight_update k.obj (watchWeight o) w none
  exact h

omit [Fintype Pid] in
theorem watchRefs_pos {w : Oid} {wt : ProcessWatch Pid Oid} (hw : k.obj w = some ob)
    (hk : ob.kind = .watch wt) : 0 < k.watchRefs wt.notif := by
  have hone : watchWeight wt.notif (k.obj w) = 1 := by
    obtain ⟨kd, n, hn⟩ := ob
    subst hk
    rw [hw]
    simp [watchWeight]
  have := Lib.single_le_sum_weight k.obj (watchWeight wt.notif) w
  unfold watchRefs
  omega

end Tallies

theorem unref_setObj [DecidableEq Oid] (k : Kernel Pid Oid) (o : Oid)
    (v : Option (Object Pid Oid)) (ob : Object Pid Oid) :
    (k.setObj o v).unref o ob = k.unref o ob := by
  have hset : ∀ v', (k.setObj o v).setObj o v' = k.setObj o v' := fun v' => by
    unfold setObj
    simp
  unfold unref
  simp only [hset]

/-- Objects are at most freed: none is made, and none changes what it is. -/
def ShapeKept (k k' : Kernel Pid Oid) : Prop := ∀ o, k'.shape o = none ∨ k'.shape o = k.shape o

theorem ShapeKept.of_eq (h : k'.shape = k.shape) : ShapeKept k k' :=
  fun o => .inr (congrFun h o)

theorem ShapeKept.trans (h : ShapeKept k₁ k₂) (h' : ShapeKept k₂ k₃) : ShapeKept k₁ k₃ := by
  intro o
  rcases h' o with h' | h'
  · exact .inl h'
  · rw [h']
    exact h o

theorem typed_of_shape (h : k'.shape o = none ∨ k'.shape o = k.shape o)
    (ht : (k.typed type o).isSome) (ho : k'.obj o ≠ none) : (k'.typed type o).isSome := by
  rcases h with hn | he
  · rcases hk : k'.obj o with _ | ob
    · exact absurd hk ho
    · simp [shape, hk] at hn
  · rw [typed_isSome_iff, he, ← typed_isSome_iff]
    exact ht

theorem ShapeKept.typed (h : ShapeKept k k') (ht : (k.typed type o).isSome) (ho : k'.obj o ≠ none) :
    (k'.typed type o).isSome :=
  typed_of_shape (h o) ht ho

/-- `k'` has the tables and bindings of `k`, and no object that is new. -/
structure SameButObj (k k' : Kernel Pid Oid) : Prop where
  proc : k'.proc = k.proc
  irq : k'.irq = k.irq
  kept : ShapeKept k k'

theorem SameButObj.refl (k : Kernel Pid Oid) : SameButObj k k := ⟨rfl, rfl, .of_eq rfl⟩

theorem SameButObj.trans (h : SameButObj k₁ k₂) (h' : SameButObj k₂ k₃) : SameButObj k₁ k₃ :=
  ⟨h'.proc.trans h.proc, h'.irq.trans h.irq, h.kept.trans h'.kept⟩

theorem sameButObj_setObj_some [DecidableEq Oid] (ho : k.obj o = some ob)
    (hk : ob'.kind.shape = ob.kind.shape) : SameButObj k (k.setObj o (some ob')) :=
  ⟨rfl, rfl, .of_eq (shape_setObj ob' ho hk)⟩

theorem sameButObj_free [DecidableEq Oid] (k : Kernel Pid Oid) (o : Oid) :
    SameButObj k (k.setObj o none) := by
  refine ⟨rfl, rfl, fun x => ?_⟩
  unfold shape
  by_cases hx : x = o
  · subst hx
    simp
  · rw [setObj_obj_of_ne k _ hx]
    exact .inr rfl

theorem plus_self [DecidableEq Oid] (ext : Oid → ℕ) (o : Oid) :
    plus ext o o = ext o + 1 := by simp [plus]

theorem plus_of_ne [DecidableEq Oid] (ext : Oid → ℕ) (h : x ≠ o) : plus ext o x = ext x := by
  simp [plus, h]

theorem unref_of_lt (h : 1 < ob.refcount) (hpos : 0 < ob.refcount - 1) :
    ob.unref = some ⟨ob.kind.disarm, ob.refcount - 1, hpos⟩ := by
  unfold Object.unref
  rw [dif_pos h]

theorem unref_of_not_lt (h : ¬ 1 < ob.refcount) : ob.unref = none := by
  unfold Object.unref
  rw [dif_neg h]

theorem sameButObj_unref [DecidableEq Oid] (ho : k.obj o = some ob) :
    SameButObj k (k.setObj o ob.unref) := by
  by_cases hlt : 1 < ob.refcount
  · rw [unref_of_lt hlt (by omega)]
    exact sameButObj_setObj_some ho (shape_disarm ob.kind)
  · rw [unref_of_not_lt hlt]
    exact sameButObj_free k o

section Balanced
variable [Fintype Pid] [Fintype Oid] [DecidableEq Oid] {ext ext' : Oid → ℕ}
  {loose loose' : List (Hold Oid)}

section
variable (hb : Balanced k ext loose)
include hb

theorem Balanced.congr (hp : k'.proc = k.proc) (ho : k'.obj = k.obj) (hi : k'.irq = k.irq) :
    Balanced k' ext loose := by
  obtain ⟨proc, obj, irq, mem, trail⟩ := k'
  subst hp ho hi
  exact ⟨hb.tableFits, hb.entryTyped, hb.looseTyped, hb.watchTyped, hb.irqTyped, hb.refs,
    hb.freed, hb.pipes⟩

theorem Balanced.of_shape (hp : k'.proc = k.proc) (hi : k'.irq = k.irq) (hs : k'.shape = k.shape)
    (hloose : ∀ x ∈ loose', (k.typed x.1 x.2).isSome)
    (hrefs : ∀ o ob, k'.obj o = some ob → ob.refcount
      = k.entries o + loose'.countP (·.2 = o) + k.watchRefs o + k.irqRefs o + ext' o)
    (hfreed : ∀ o, k.obj o = none → ext' o = 0)
    (hpipes : ∀ o ob r w, k'.obj o = some ob → ob.kind = .pipe r w →
      r = k.ends .pipeRead o + loose'.count (.pipeRead, o) ∧
      w = k.ends .pipeWrite o + loose'.count (.pipeWrite, o)) : Balanced k' ext' loose' := by
  have htyped : ∀ type o, (k'.typed type o).isSome ↔ (k.typed type o).isSome := fun type o => by
    rw [typed_isSome_iff, typed_isSome_iff, hs]
  have hevent : ∀ o, (∃ ob, k.obj o = some ob ∧ ob.kind = .event) →
      ∃ ob, k'.obj o = some ob ∧ ob.kind = .event := fun o h => by
    rw [exists_event_iff, hs, ← exists_event_iff]
    exact h
  refine ⟨fun p pr h => hb.tableFits p pr (hp ▸ h), fun p h e he => ?_, fun x hx => ?_,
    fun w ob wt hw hk => ?_, fun i b o hbm hn => ?_, fun o ob ho => ?_, fun o ho => ?_,
    fun o ob r w ho hk => ?_⟩
  · rw [table_congr hp] at he
    exact (htyped _ _).mpr (hb.entryTyped p h e he)
  · exact (htyped _ _).mpr (hloose x hx)
  · have hsw : k.shape w = some ob.kind.shape := by
      rw [← hs]
      unfold shape
      rw [hw]
      rfl
    unfold shape at hsw
    rcases hkw : k.obj w with _ | ob0
    · simp [hkw] at hsw
    · simp only [hkw, map_some, some.injEq, hk, Kind.shape] at hsw
      rcases hk0 : ob0.kind with _ | _ | _ | _ | wt0 <;> simp only [hk0] at hsw
        <;> try cases hsw
      simp only [Kind.watch.injEq, ProcessWatch.mk.injEq] at hsw
      rw [← hsw.2.1]
      exact hevent _ (hb.watchTyped w ob0 wt0 hkw hk0)
  · exact hevent o (hb.irqTyped i b o (hi ▸ hbm) hn)
  · rw [hrefs o ob ho, entries_congr hp, watchRefs_congr hs, irqRefs_congr hi]
  · exact hfreed o ((obj_none_iff hs o).mp ho)
  · rw [ends_congr hp, ends_congr hp]
    exact hpipes o ob r w ho hk

theorem Balanced.no_holders (ho : k.obj o = none) :
    k.entries o = 0 ∧ loose.countP (·.2 = o) = 0 ∧ k.watchRefs o = 0 ∧ k.irqRefs o = 0
      ∧ ext o = 0 := by
  have hnot : ∀ type, ¬ (k.typed type o).isSome := fun type h => by
    obtain ⟨sh, hsh, -⟩ := typed_isSome_iff.mp h
    simp [shape, ho] at hsh
  refine ⟨?_, ?_, ?_, ?_, hb.freed o ho⟩
  · unfold entries
    refine Finset.sum_eq_zero fun p _ => countP_eq_zero.mpr fun x hx hn => ?_
    rcases x with _ | e
    · simp [namesObject] at hn
    · obtain ⟨h, he⟩ := mem_iff_getElem?.mp hx
      have heo : e.object = o := by simpa [namesObject] using hn
      exact hnot e.type (heo ▸ hb.entryTyped p h e he)
  · refine countP_eq_zero.mpr fun x hx hn => ?_
    have hxo : x.2 = o := by simpa using hn
    exact hnot x.1 (hxo ▸ hb.looseTyped x hx)
  · unfold watchRefs
    refine Finset.sum_eq_zero fun w _ => ?_
    rcases hw : k.obj w with _ | ⟨kd, n, hn⟩
    · rfl
    · rcases kd with _ | _ | _ | _ | wt
      · rfl
      · rfl
      · rfl
      · rfl
      · simp only [watchWeight, ite_eq_right_iff, one_ne_zero, imp_false]
        rintro rfl
        obtain ⟨ob', hob', -⟩ := hb.watchTyped w _ wt hw rfl
        rw [ho] at hob'
        cases hob'
  · unfold irqRefs
    refine Finset.sum_eq_zero fun i _ => countP_eq_zero.mpr fun x hx hn => ?_
    rcases x with _ | b
    · simp [bindsEvent] at hn
    · obtain ⟨ob', hob', -⟩ := hb.irqTyped i b o hx (by simpa [bindsEvent] using hn)
      rw [ho] at hob'
      cases hob'

theorem Balanced.set_some (ho : k.obj o = some ob)
    (hk : ob'.kind.shape = ob.kind.shape) (hloose : ∀ x ∈ loose', (k.typed x.1 x.2).isSome)
    (hcount : ∀ x, x ≠ o → loose'.countP (·.2 = x) = loose.countP (·.2 = x))
    (hend : ∀ type x, x ≠ o → loose'.count (type, x) = loose.count (type, x))
    (hext : ∀ x, x ≠ o → ext' x = ext x) (hrefs : ob'.refcount
      = k.entries o + loose'.countP (·.2 = o) + k.watchRefs o + k.irqRefs o + ext' o)
    (hpipes : ∀ r w, ob'.kind = .pipe r w → r = k.ends .pipeRead o + loose'.count (.pipeRead, o) ∧
      w = k.ends .pipeWrite o + loose'.count (.pipeWrite, o)) :
    Balanced (k.setObj o (some ob')) ext' loose' := by
  refine hb.of_shape rfl rfl (shape_setObj ob' ho hk) hloose (fun x obx hx => ?_) (fun x hx => ?_)
    fun x obx r w hx hkx => ?_
  · rcases setObj_obj_cases hx with ⟨rfl, hv⟩ | ⟨hxo, hx⟩
    · cases hv
      exact hrefs
    · rw [hcount x hxo, hext x hxo]
      exact hb.refs x obx hx
  · have hxo : x ≠ o := fun h => by rw [h, ho] at hx; cases hx
    rw [hext x hxo]
    exact hb.freed x hx
  · rcases setObj_obj_cases hx with ⟨rfl, hv⟩ | ⟨hxo, hx⟩
    · cases hv
      exact hpipes r w hkx
    · rw [hend _ x hxo, hend _ x hxo]
      exact hb.pipes x obx r w hx hkx

theorem Balanced.ref (ho : k.obj o = some ob) :
    Balanced (k.setObj o (some ob.ref)) (plus ext o) loose := by
  refine hb.set_some ho rfl hb.looseTyped (fun _ _ => rfl) (fun _ _ _ => rfl)
    (fun x hx => plus_of_ne ext hx) ?_ fun r w hk => hb.pipes o ob r w ho hk
  have := hb.refs o ob ho
  rw [plus_self]
  show ob.refcount + 1 = _
  omega

end

section
variable (hb : Balanced k (plus ext o) loose) (ho : k.obj o = some ob)
include hb ho

/-- The last reference frees the object, and a freed watch leaves its event one reference over. -/
theorem Balanced.free (h1 : ob.refcount = 1) :
    Balanced (k.setObj o none) (fun x => ext x + watchWeight x (some ob)) loose := by
  have hrefs := hb.refs o ob ho
  rw [plus_self] at hrefs
  have hself : watchWeight o (some ob) = 0 := by
    by_contra hne
    have := watchRefs_free k o o
    rw [ho] at this
    omega
  have hold : ∀ {x : Oid} {obx : Object Pid Oid}, (k.setObj o none).obj x = some obx →
      x ≠ o ∧ k.obj x = some obx := fun hx =>
    (setObj_obj_cases hx).resolve_left fun h => by cases h.2
  have hev : ∀ x, x ≠ o → (∃ ob, k.obj x = some ob ∧ ob.kind = .event) →
      ∃ ob, (k.setObj o none).obj x = some ob ∧ ob.kind = .event := fun x hx h => by
    rw [setObj_obj_of_ne k _ hx]
    exact h
  refine ⟨hb.tableFits, fun p h e he => ?_, fun x hx => ?_, fun w obw wt hw hk => ?_,
    fun i b x hbm hn => ?_, fun x obx hx => ?_, fun x hx => ?_, fun x obx r w hx hk => ?_⟩
  · refine (typed_setObj_of_ne none fun heo => ?_).mpr (hb.entryTyped p h e he)
    have := entries_pos (k := k) he
    rw [heo] at this
    omega
  · refine (typed_setObj_of_ne none fun hxo => ?_).mpr (hb.looseTyped x hx)
    have : 0 < loose.countP (·.2 = o) := countP_pos_iff.mpr ⟨x, hx, by simp [hxo]⟩
    omega
  · obtain ⟨-, hw⟩ := hold hw
    refine hev _ (fun hno => ?_) (hb.watchTyped w obw wt hw hk)
    have := watchRefs_pos hw hk
    rw [hno] at this
    omega
  · refine hev x (fun hxo => ?_) (hb.irqTyped i b x hbm hn)
    subst hxo
    have : 0 < k.irqRefs x := irqRefs_pos hbm hn
    omega
  · obtain ⟨hxo, hx⟩ := hold hx
    have hr := hb.refs x obx hx
    rw [plus_of_ne ext hxo] at hr
    have hw := watchRefs_free k o x
    rw [ho] at hw
    have he : (k.setObj o none).entries x = k.entries x := entries_congr rfl x
    have hi : (k.setObj o none).irqRefs x = k.irqRefs x := irqRefs_congr rfl x
    omega
  · rcases setObj_obj_cases hx with ⟨rfl, -⟩ | ⟨hxo, hx⟩
    · rw [hself]
      omega
    · have hr := hb.no_holders hx
      rw [plus_of_ne ext hxo] at hr
      have hw := watchRefs_free k o x
      rw [ho] at hw
      omega
  · obtain ⟨-, hx⟩ := hold hx
    exact hb.pipes x obx r w hx hk

theorem Balanced.set_unref (hlt : 1 < ob.refcount) : Balanced (k.setObj o ob.unref) ext loose := by
  rw [unref_of_lt hlt (by omega)]
  have hr := hb.refs o ob ho
  rw [plus_self] at hr
  refine hb.set_some ho (shape_disarm ob.kind) hb.looseTyped (fun _ _ => rfl) (fun _ _ _ => rfl)
    (fun x hx => (plus_of_ne ext hx).symm) ?_ fun r w hk => ?_
  · show ob.refcount - 1 = _
    omega
  · exact hb.pipes o ob r w ho (disarm_eq_pipe.mp hk)

theorem Balanced.free_plain (h1 : ob.refcount = 1) (hk : ∀ x, watchWeight x (some ob) = 0) :
    Balanced (k.setObj o none) ext loose := by
  have := hb.free ho h1
  simp only [hk, add_zero] at this
  exact this

theorem Balanced.unref :
    ∃ k', k.unref o ob = some k' ∧ SameButObj k k' ∧ Balanced k' ext loose := by
  by_cases hlt : 1 < ob.refcount
  · refine ⟨_, ?_, sameButObj_unref ho, hb.set_unref ho hlt⟩
    unfold Kernel.unref
    rw [unref_of_lt hlt (by omega)]
  · have h1 : ob.refcount = 1 := by
      have := ob.live
      omega
    obtain ⟨kd, n, hn⟩ := ob
    rcases kd with _ | _ | _ | _ | wt
    case watch =>
      have hfree := hb.free ho h1
      obtain ⟨obv, hv, hvk⟩ := hb.watchTyped o _ wt ho rfl
      have hne : wt.notif ≠ o := fun h => by
        rw [h, ho] at hv
        cases hv
        cases hvk
      have hv' : (k.setObj o none).obj wt.notif = some obv := by
        rw [setObj_obj_of_ne k _ hne]
        exact hv
      have hext : (fun x => ext x + watchWeight x (some ⟨.watch wt, n, hn⟩)) =
        plus ext wt.notif := by
        funext x
        simp only [watchWeight, plus, eq_comm]
      rw [hext] at hfree
      refine ⟨(k.setObj o none).setObj wt.notif obv.unref, ?_, ?_, ?_⟩
      · unfold unref
        rw [unref_of_not_lt h1.not_gt]
        show ((k.setObj o none).obj wt.notif).map _ = _
        rw [hv']
        rfl
      · exact (sameButObj_free k o).trans (sameButObj_unref hv')
      · by_cases hvlt : 1 < obv.refcount
        · exact hfree.set_unref hv' hvlt
        · have hv1 : obv.refcount = 1 := by
            have := obv.live
            omega
          rw [unref_of_not_lt hv1.not_gt]
          refine hfree.free_plain hv' hv1 fun x => ?_
          obtain ⟨kv, _, _⟩ := obv
          subst hvk
          rfl
    all_goals
      refine ⟨k.setObj o none, ?_, sameButObj_free k o, hb.free_plain ho h1 fun _ => rfl⟩
      unfold unref
      rw [unref_of_not_lt h1.not_gt]

end

theorem Balanced.get (hb : Balanced k ext loose) (ht : k.typed type o = some ob) :
    ∃ k', handleObjectGet k type o = some k' ∧ SameButObj k k' ∧ k'.shape = k.shape ∧
      Balanced k' (plus ext o) loose := by
  obtain ⟨ho, hf⟩ := typed_eq_some_iff.mp ht
  refine ⟨k.setObj o (some ob.ref), ?_, sameButObj_setObj_some ho rfl,
    shape_setObj _ ho rfl, hb.ref ho⟩
  unfold handleObjectGet
  rw [not_uncounted_of_fits hf, ht]
  rfl

theorem Balanced.put (hb : Balanced k (plus ext o) loose) (ht : (k.typed type o).isSome) :
    ∃ k', handleObjectPut k type o = some k' ∧ SameButObj k k' ∧ Balanced k' ext loose := by
  obtain ⟨ob, hob⟩ := isSome_iff_exists.mp ht
  obtain ⟨ho, hf⟩ := typed_eq_some_iff.mp hob
  obtain ⟨k', hk', hs, hb'⟩ := hb.unref ho
  refine ⟨k', ?_, hs, hb'⟩
  unfold handleObjectPut
  rw [not_uncounted_of_fits hf, hob]
  exact hk'

theorem Balanced.opened (hb : Balanced k ext loose) (ht : (k.typed type o).isSome) :
    ∃ k', handleObjectOpen k type o = some k' ∧ SameButObj k k' ∧ k'.shape = k.shape ∧
      Balanced k' ext ((type, o) :: loose) := by
  obtain ⟨ob, hob⟩ := isSome_iff_exists.mp ht
  obtain ⟨ho, hf⟩ := typed_eq_some_iff.mp hob
  refine ⟨k.setObj o (some (ob.withKind (Kind.openEnd type)).ref), ?_,
    sameButObj_setObj_some ho (shape_openEnd type ob.kind),
    shape_setObj _ ho (shape_openEnd type ob.kind), ?_⟩
  · unfold handleObjectOpen
    rw [not_uncounted_of_fits hf, hob]
    rfl
  · refine hb.set_some ho (shape_openEnd type ob.kind) ?_ (fun x hx => ?_) (fun ty x hx => ?_)
      (fun _ _ => rfl) ?_ fun r w hk => ?_
    · intro x hx
      rcases mem_cons.mp hx with rfl | hx
      · exact ht
      · exact hb.looseTyped x hx
    · rw [countP_cons_of_neg]
      simpa using Ne.symm hx
    · rw [count_cons_of_ne]
      simp [Ne.symm hx]
    · have := hb.refs o ob ho
      rw [countP_cons_of_pos (by simp)]
      show ob.refcount + 1 = _
      omega
    · have hk : ob.kind.openEnd type = .pipe r w := hk
      rcases openEnd_eq_pipe hf hk with ⟨rfl, r0, rfl, hkd⟩ | ⟨rfl, w0, rfl, hkd⟩
      · obtain ⟨hr, hw⟩ := hb.pipes o ob r0 w ho hkd
        rw [count_cons_self, count_cons_of_ne (by simp)]
        omega
      · obtain ⟨hr, hw⟩ := hb.pipes o ob r w0 ho hkd
        rw [count_cons_self, count_cons_of_ne (by simp)]
        omega

theorem Balanced.closed (hb : Balanced k ext ((type, o) :: loose)) (ho : k.obj o = some ob)
    (hf : type.fits ob.kind) :
    Balanced (k.setObj o (some (ob.withKind (Kind.closeEnd type)))) (plus ext o) loose := by
  refine hb.set_some ho (shape_closeEnd type ob.kind)
    (fun x hx => hb.looseTyped x (mem_cons_of_mem _ hx)) (fun x hx => ?_) (fun ty x hx => ?_)
    (fun x hx => plus_of_ne ext hx) ?_ fun r w hk => ?_
  · rw [countP_cons_of_neg]
    simpa using Ne.symm hx
  · rw [count_cons_of_ne]
    simp [Ne.symm hx]
  · have := hb.refs o ob ho
    rw [countP_cons_of_pos (by simp)] at this
    rw [plus_self]
    show ob.refcount = _
    omega
  · have hk : ob.kind.closeEnd type = .pipe r w := hk
    rcases closeEnd_eq_pipe hf hk with ⟨rfl, r0, rfl, hkd⟩ | ⟨rfl, w0, rfl, hkd⟩
    · obtain ⟨hr, hw⟩ := hb.pipes o ob r0 w ho hkd
      rw [count_cons_self] at hr
      rw [count_cons_of_ne (by simp)] at hw
      omega
    · obtain ⟨hr, hw⟩ := hb.pipes o ob r w0 ho hkd
      rw [count_cons_of_ne (by simp)] at hr
      rw [count_cons_self] at hw
      omega

theorem Balanced.destroy (hb : Balanced k ext ((type, o) :: loose)) :
    ∃ k', handleObjectDestroy k type o = some k' ∧ SameButObj k k' ∧ Balanced k' ext loose := by
  obtain ⟨ob, hob⟩ := isSome_iff_exists.mp (hb.looseTyped _ (mem_cons_self ..))
  obtain ⟨ho, hf⟩ := typed_eq_some_iff.mp hob
  have hc := hb.closed ho hf
  obtain ⟨k', hk', hs, hb'⟩ := hc.unref (setObj_obj_self k o _)
  refine ⟨k', ?_, (sameButObj_setObj_some ho (shape_closeEnd type ob.kind)).trans hs, hb'⟩
  unfold handleObjectDestroy
  rw [not_uncounted_of_fits hf, hob]
  rw [unref_setObj] at hk'
  exact hk'

end Balanced

end Xnix
