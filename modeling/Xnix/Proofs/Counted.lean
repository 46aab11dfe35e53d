import Xnix.Proofs.CallBalance

/-!
# Object counts match the handle tables

In every run whose hints do not wrap, no call faults and every object's counts are the numbers of
its holders. A hint that wraps makes `handle_alloc_at` write its entry outside the table; the
references it takes then have no holder.
-/

namespace Xnix

open List Option

variable {Pid Oid : Type} {c : Call Pid Oid} {k : Kernel Pid Oid} {ext : Oid → ℕ} {o : Oid}
  {ops : List (Hold Oid)}

theorem shape_signalExit [DecidableEq Pid] (p : Pid) (kd : Kind Pid Oid) :
    (kd.signalExit p).shape = kd.shape := by
  unfold Kind.signalExit
  split
  · split_ifs <;> rfl
  · rfl

theorem of_signalExit_eq_pipe [DecidableEq Pid] {p : Pid} {kd : Kind Pid Oid} {r w : ℕ}
    (h : kd.signalExit p = .pipe r w) : kd = .pipe r w := by
  unfold Kind.signalExit at h
  split at h
  · split_ifs at h
  · exact h

section World
variable {w w' : World Pid Oid} {strays : List (Hold Oid)} {k k' : Kernel Pid Oid} [DecidableEq Oid]

theorem opsRefs_cons (x : Hold Oid) (ops : List (Hold Oid)) :
    opsRefs (x :: ops) = plus (opsRefs ops) x.2 := by
  funext o
  unfold opsRefs plus
  by_cases h : x.2 = o
  · rw [countP_cons_of_pos (by simpa using h), if_pos h.symm]
  · rw [countP_cons_of_neg (by simpa using h), if_neg (Ne.symm h)]
    rfl

variable [Fintype Pid]

theorem entries_eq_ends (h : ∀ p (i : ℕ) (e : HandleEntry Oid),
      (k.table p)[i]? = some (some e) → e.object = o → e.type = .pipeRead ∨ e.type = .pipeWrite) :
    k.entries o = k.ends .pipeRead o + k.ends .pipeWrite o := by
  have hlist : ∀ t : HandleTable Oid,
    (∀ e, some e ∈ t → e.object = o → e.type = .pipeRead ∨ e.type = .pipeWrite) →
      t.countP (namesObject o) =
      t.countP (namesEnd .pipeRead o) + t.countP (namesEnd .pipeWrite o) := by
    intro t
    induction t with
    | nil => intro _; rfl
    | cons v t ih =>
      intro ht
      have hv : ((if namesObject o v then 1 else 0) : ℕ)
          = (if namesEnd .pipeRead o v then 1 else 0) + if namesEnd .pipeWrite o v then 1
          else 0 := by
        rcases v with _ | e
        · rfl
        by_cases he : e.object = o
        · rcases ht e (by simp) he with ht | ht <;> simp [namesObject, namesEnd, he, ht]
        · simp [namesObject, namesEnd, he]
      have ih := ih fun e he => ht e (mem_cons_of_mem _ he)
      simp only [countP_cons]
      omega
  unfold Kernel.entries Kernel.ends
  rw [← Finset.sum_add_distrib]
  refine Finset.sum_congr rfl fun p _ => hlist _ fun e he => ?_
  obtain ⟨i, hi⟩ := getElem?_of_mem he
  exact h p i e hi

variable [Fintype Oid]

/-- A balanced kernel, with the operations in progress as external holders and the entries outside
tables as loose ones. -/
structure WorldBalanced (w : World Pid Oid) (strays : List (Hold Oid)) : Prop where
  balanced : Balanced w.kernel (opsRefs w.ops) strays
  typed : ∀ x ∈ w.ops, (w.kernel.typed x.1 x.2).isSome

theorem WorldBalanced.alive
    (hb : Balanced k (opsRefs ops) strays) {x : Hold Oid} (hx : x ∈ ops) : k.obj x.2 ≠ none := by
  intro hn
  have hz : opsRefs ops x.2 = 0 := hb.freed x.2 hn
  have hpos : 0 < opsRefs ops x.2 := countP_pos_iff.mpr ⟨x, hx, by simp⟩
  omega

theorem WorldBalanced.perm {ops' : List (Hold Oid)}
    (hw : WorldBalanced ⟨k, ops⟩ strays) (h : ops.Perm ops') : WorldBalanced ⟨k, ops'⟩ strays := by
  have hrefs : opsRefs ops' = opsRefs ops := funext fun o => (h.countP_eq _).symm
  refine ⟨?_, fun x hx => hw.typed x (h.mem_iff.mpr hx)⟩
  rw [hrefs]
  exact hw.balanced

section
variable (hw : WorldBalanced w strays) {f : Option (Kernel Pid Oid × α)} {α : Type}
include hw

theorem WorldBalanced.after {strays' : List (Hold Oid)} (hkept : LiveKept w.kernel k')
    (hb : Balanced k' (opsRefs w.ops) strays') : WorldBalanced { w with kernel := k' } strays' := by
  exact ⟨hb, fun x hx => hkept.typed (hw.typed x hx) (WorldBalanced.alive hb hx)⟩

theorem WorldBalanced.call (h : Through (LiveKept w.kernel) (opsRefs w.ops) strays f) :
    ∃ w', w.after f = some w' ∧ WorldBalanced w' strays := by
  obtain ⟨k', r, rfl, hkept, hb⟩ := h
  exact ⟨_, rfl, hw.after hkept hb⟩

theorem WorldBalanced.call_kept (h : Through (ShapeKept w.kernel) (opsRefs w.ops) strays f) :
    ∃ w', w.after f = some w' ∧ WorldBalanced w' strays := by
  obtain ⟨k', r, hf, hkept, hb⟩ := h
  exact hw.call ⟨k', r, hf, hkept.live, hb⟩

theorem WorldBalanced.create (h : w.kernel.obj o = none →
      Through (LiveKept w.kernel) (opsRefs w.ops) strays f) :
    ∃ w', w.atFresh o (w.after f) = some w' ∧ WorldBalanced w' strays := by
  unfold World.atFresh
  split_ifs with ho
  · exact ⟨w, rfl, hw⟩
  · exact hw.call (h (by simpa using ho))

end

theorem WorldBalanced.boot (h : Boot w) : WorldBalanced w [] := by
  have htab : ∀ p, ∀ x ∈ w.kernel.table p, x = none := fun p x hx => by
    rcases hp : w.kernel.proc p with _ | pr
    · rw [table_of_proc_none w.kernel hp] at hx
      cases hx
    · rw [table_of_proc w.kernel hp, h.handles p pr hp] at hx
      exact eq_of_mem_replicate hx
  refine ⟨⟨fun p pr hp => ?_, fun p i e he => ?_, by simp, fun o ob wt ho => ?_, fun i b o hb => ?_,
    fun o ob ho => ?_, fun o ho => ?_, fun o ob r wr ho => ?_⟩, ?_⟩
  · rw [h.handles p pr hp]
    exact tableFits_handleTableCreate
  · cases htab p _ (mem_of_getElem? he)
  · rw [h.obj] at ho
    cases ho
  · rw [h.irq] at hb
    cases eq_of_mem_replicate hb
  · rw [h.obj] at ho
    cases ho
  · rw [h.ops]
    rfl
  · rw [h.obj] at ho
    cases ho
  · rw [h.ops]
    simp

theorem Balanced.unsignalled (hb : Balanced k ext strays)
    {ob : Object Pid Oid} (ho : k.obj o = some ob) (hk : ob.kind ≠ .event) :
    k.watchRefs o = 0 ∧ k.irqRefs o = 0 := by
  have hne : ¬ ∃ ob, k.obj o = some ob ∧ ob.kind = .event := fun ⟨ob', ho', hk'⟩ => by
    cases ho.symm.trans ho'
    exact hk hk'
  refine ⟨Finset.sum_eq_zero fun x _ => ?_, Finset.sum_eq_zero fun i _ => ?_⟩
  · unfold watchWeight
    split
    · rename_i wt n hn hx
      refine if_neg fun heq => hne ?_
      exact heq ▸ hb.watchTyped x _ wt hx rfl
    · rfl
  · refine countP_eq_zero.mpr fun v hv => ?_
    rcases v with _ | b
    · simp [bindsEvent]
    · simp only [bindsEvent, decide_eq_true_eq]
      exact fun h => hne (hb.irqTyped i b o hv h)

/-- A watch is held by handles and operations alone. -/
theorem Balanced.watch_held (hb : Balanced k ext [])
    (hpos : 0 < k.watchRefs o) : ∃ x, 0 < k.entries x + ext x := by
  obtain ⟨x, -, hx⟩ := Finset.exists_ne_zero_of_sum_ne_zero hpos.ne'
  refine ⟨x, ?_⟩
  unfold watchWeight at hx
  split at hx
  · rename_i wt n hn hobj
    have hrefs := hb.refs x _ hobj
    obtain ⟨hwatch, hirq⟩ := hb.unsignalled hobj nofun
    simp only [countP_nil] at hrefs
    omega
  · exact absurd rfl hx

theorem WorldBalanced.objectsCounted (hw : WorldBalanced w []) : ObjectsCounted w := by
  intro o ob ho
  have hb := hw.balanced
  have href := hb.refs o ob ho
  simp only [countP_nil, Nat.add_zero] at href
  split
  · rename_i r wr hk
    obtain ⟨hr, hwr⟩ := hb.pipes o ob r wr ho hk
    obtain ⟨hwatch, hirq⟩ := hb.unsignalled ho (by rw [hk]; nofun)
    have hends := entries_eq_ends fun p i e he heo => by
      obtain ⟨ob', hob'⟩ := isSome_iff_exists.mp (hb.entryTyped p i e he)
      obtain ⟨ho', hf⟩ := typed_eq_some_iff.mp hob'
      rw [heo, ho] at ho'
      cases ho'
      cases ht : e.type <;> simp_all [HandleType.fits]
    simp only [count_nil, Nat.add_zero] at hr hwr
    omega
  · omega
  · omega
  · trivial

theorem WorldBalanced.acquire (hw : WorldBalanced ⟨k, ops⟩ strays) (p : Pid) (h : ℕ)
    (type : HandleType) :
    ∃ k' r, handleAcquire k p h (some type) = some (k', r) ∧ ((r = none ∧ k' = k) ∨
      ∃ e, r = some e ∧ e.type = type ∧ WorldBalanced ⟨k', e.hold :: ops⟩ strays) := by
  obtain ⟨k', r, hk', hsame, -, hr⟩ := hw.balanced.acquire p h (some type)
  refine ⟨k', r, hk', hr.imp_right ?_⟩
  rintro ⟨e, rfl, he, htype, hb⟩
  have hb' : Balanced k' (opsRefs (e.hold :: ops)) strays := by
    rw [opsRefs_cons]
    exact hb
  refine ⟨e, rfl, by simpa [eq_comm] using htype, hb', fun x hx => ?_⟩
  refine hsame.kept.live.typed ?_ (WorldBalanced.alive hb' hx)
  rcases mem_cons.mp hx with rfl | hx
  · exact hw.balanced.entryTyped p h e he
  · exact hw.typed x hx

theorem WorldBalanced.get (hw : WorldBalanced ⟨k, ops⟩ strays) (hx : x ∈ ops) :
    ∃ k', handleObjectGet k x.1 x.2 = some k' ∧ WorldBalanced ⟨k', x :: ops⟩ strays := by
  obtain ⟨ob, hob⟩ := isSome_iff_exists.mp (hw.typed x hx)
  obtain ⟨k', hk', hsame, -, hb⟩ := hw.balanced.get hob
  have hb' : Balanced k' (opsRefs (x :: ops)) strays := by
    rw [opsRefs_cons]
    exact hb
  refine ⟨k', hk', hb', fun y hy => hsame.kept.live.typed ?_ (WorldBalanced.alive hb' hy)⟩
  rcases mem_cons.mp hy with rfl | hy
  · exact hw.typed y hx
  · exact hw.typed y hy

theorem WorldBalanced.put (hw : WorldBalanced ⟨k, x :: ops⟩ strays) :
    ∃ k', handleObjectPut k x.1 x.2 = some k' ∧ WorldBalanced ⟨k', ops⟩ strays := by
  have hb : Balanced k (opsRefs (x :: ops)) strays := hw.balanced
  rw [opsRefs_cons] at hb
  obtain ⟨k', hk', hsame, hb'⟩ := hb.put (hw.typed x mem_cons_self)
  refine ⟨k', hk', hb', fun y hy => ?_⟩
  exact hsame.kept.live.typed (hw.typed y (mem_cons_of_mem x hy)) (WorldBalanced.alive hb' hy)

variable [DecidableEq Pid]

theorem Balanced.processExit (hb : Balanced k ext strays) (p : Pid) :
    ShapeKept k (processExit k p) ∧ Balanced (processExit k p) ext strays := by
  unfold Xnix.processExit
  split
  · exact ⟨.of_eq rfl, hb⟩
  rename_i pr hpr
  set k1 : Kernel Pid Oid :=
    { k with obj := fun o => (k.obj o).map fun ob => ob.withKind (.signalExit p) } with hk1
  have hsh : k1.shape = k.shape := by
    funext o
    unfold Kernel.shape
    simp only [hk1, Option.map_map]
    rcases k.obj o with _ | ob
    · rfl
    · simp only [map_some, Function.comp_apply, Object.withKind, shape_signalExit]
  have hold : ∀ {o ob}, k1.obj o = some ob →
      ∃ ob0, k.obj o = some ob0 ∧ ob.refcount = ob0.refcount ∧ ob.kind = ob0.kind.signalExit p := by
    intro o ob h
    simp only [hk1, map_eq_some_iff] at h
    obtain ⟨ob0, h0, rfl⟩ := h
    exact ⟨ob0, h0, rfl, rfl⟩
  have hb1 : Balanced k1 ext strays := by
    refine hb.of_shape rfl rfl hsh hb.looseTyped (fun o ob h => ?_) hb.freed fun o ob r w h hk => ?_
    · obtain ⟨ob0, h0, hr, -⟩ := hold h
      rw [hr]
      exact hb.refs o ob0 h0
    · obtain ⟨ob0, h0, -, hk0⟩ := hold h
      exact hb.pipes o ob0 r w h0 (of_signalExit_eq_pipe (hk0.symm.trans hk))
  have htab : (k1.setProc p (some { pr with zombie := true })).table
      = Function.update k1.table p (k1.table p) := by
    rw [table_setProc, table_of_proc k1 hpr]
  refine ⟨.of_eq hsh, hb1.retag rfl rfl (fun q prq hq => ?_) htab rfl⟩
  by_cases hqp : q = p
  · subst hqp
    have hq : some { pr with zombie := true } = some prq := by
      simpa [Kernel.setProc] using hq
    cases hq
    exact hb.tableFits q pr hpr
  · exact hb.tableFits q prq (by simpa [Kernel.setProc, hqp] using hq)

section Operations
variable {x : Hold Oid}

theorem WorldBalanced.opBegin (hw : WorldBalanced w strays) (p : Pid) (h : ℕ) (type : HandleType) :
    ∃ w', step w (.opBegin p h type) = some w' ∧ WorldBalanced w' strays := by
  obtain ⟨k', r, hk', hr⟩ := hw.acquire p h type
  simp only [step, hk', map_some]
  rcases hr with ⟨rfl, rfl⟩ | ⟨e, rfl, -, hw'⟩
  · exact ⟨_, rfl, hw⟩
  · exact ⟨_, rfl, hw'⟩

theorem WorldBalanced.opEnd (hw : WorldBalanced w strays) (i : ℕ) :
    ∃ w', step w (.opEnd i) = some w' ∧ WorldBalanced w' strays := by
  rcases hi : w.ops[i]? with _ | x
  · exact ⟨w, by simp only [step, hi], hw⟩
  have hperm : w.ops.Perm (x :: w.ops.eraseIdx i) := by
    obtain ⟨hlt, rfl⟩ := List.getElem?_eq_some_iff.mp hi
    exact (getElem_cons_eraseIdx_perm hlt).symm
  obtain ⟨k', hk', hw'⟩ := (hw.perm hperm).put
  exact ⟨_, by simp only [step, hi, hk', map_some], hw'⟩

end Operations

theorem WorldBalanced.step_safe (hw : WorldBalanced w strays)
    (hc : HintSafe w c) : ∃ w', step w c = some w' ∧ WorldBalanced w' strays := by
  have hb := hw.balanced
  cases c with
  | endpointCreate p o name => exact hw.create fun ho => hb.endpointCreate ho p name
  | eventCreate p o => exact hw.create fun ho => hb.eventCreate ho p
  | pipeCreate p o copied => exact hw.create fun ho => hb.sysPipeCreate ho p copied
  | shmCreate p o size => exact hw.create fun ho => hb.sysShmCreate ho p size
  | physmemCreate p o region name =>
    exact hw.create fun ho => hb.physmemCreateHandleForProc ho p region name
  | procWatch p target h bits o =>
    exact hw.create fun ho => hb.processWatchCreate ho p target h bits
  | irqBind p irq h bits => exact hw.call_kept (hb.sysIrqBind p irq h bits)
  | irqUnbind p irq => exact hw.call_kept (hb.irqUnbindEvent irq p)
  | close p h => exact hw.call_kept (hb.sysHandleClose p h)
  | duplicate p srcH hint name => exact hw.call_kept (hb.sysHandleDuplicate p srcH hint name hc)
  | grant p pid srcH name rights => exact hw.call_kept (hb.sysHandleGrant p pid srcH name rights)
  | ipcPass src dst handles => exact hw.call_kept (hb.ipcCopyHandles src dst handles)
  | exec p child handles flags loads =>
    simp only [step]
    split_ifs with hch
    · exact ⟨w, rfl, hw⟩
    · exact hw.call_kept (hb.sysExec p (by simpa using hch) handles flags loads)
  | exit p =>
    obtain ⟨hkept, hb'⟩ := hb.processExit p
    exact ⟨_, rfl, hw.after hkept.live hb'⟩
  | destroy p =>
    obtain ⟨k', hk', hkept, hb'⟩ := hb.processDestroy p
    exact ⟨_, by simp only [step, hk', map_some], hw.after hkept.live hb'⟩
  | opBegin p h type => exact hw.opBegin p h type
  | opEnd i => exact hw.opEnd i

theorem WorldBalanced.step_some (hw : WorldBalanced w strays)
    (h : step w c = some w') : ∃ strays', WorldBalanced w' strays' := by
  by_cases hc : HintSafe w c
  · obtain ⟨w1, hw1, hb⟩ := hw.step_safe hc
    cases hw1.symm.trans h
    exact ⟨strays, hb⟩
  cases c with
  | duplicate p srcH hint name =>
    obtain ⟨⟨k', r⟩, hk', rfl⟩ := map_eq_some_iff.mp h
    obtain ⟨strays', hkept, hb'⟩ := hw.balanced.sysHandleDuplicate_some hk'
    exact ⟨strays', hw.after hkept.live hb'⟩
  | _ => exact absurd trivial hc

theorem WorldBalanced.kept_safe (hw : WorldBalanced w strays) (hc : HintSafe w c)
    (h : step w c = some w') : WorldBalanced w' strays := by
  obtain ⟨w1, hw1, hb⟩ := hw.step_safe hc
  cases hw1.symm.trans h
  exact hb

theorem WorldBalanced.isSome_step (hw : WorldBalanced w strays) (hc : HintSafe w c) :
    (step w c).isSome := by
  obtain ⟨w', hw', -⟩ := hw.step_safe hc
  rw [hw']
  rfl

theorem worldBalanced_of_safe_run (h : Lib.Reach step Boot HintSafe w) : WorldBalanced w [] :=
  Lib.Reach.invariant (P := fun w => WorldBalanced w []) (fun _ hw => .boot hw)
    (fun _ _ _ hw hc hs => hw.kept_safe hc hs) h

/-- In every run whose hints do not wrap, every object's counts are right, and no further such call
touches freed memory. -/
theorem objects_counted (h : Lib.Reach step Boot HintSafe w) :
    ObjectsCounted w ∧ ∀ c, HintSafe w c → (step w c).isSome := by
  have hw := worldBalanced_of_safe_run h
  exact ⟨hw.objectsCounted, fun c hc => hw.isSome_step hc⟩

/-- In every run whose hints do not wrap an object other than an endpoint exists exactly as long as
an entry, a watch, a binding or an operation refers to it, every such entry names an object of its
type, and without entries, bindings and operations only endpoints are left. -/
theorem objects_live_iff_held (h : Lib.Reach step Boot HintSafe w) :
    (∀ o ob, w.kernel.obj o = some ob → ob.kind ≠ .endpoint →
      0 < w.kernel.entries o + w.kernel.watchRefs o + w.kernel.irqRefs o + opsRefs w.ops o) ∧
    (∀ p (i : ℕ) (e : HandleEntry Oid), (w.kernel.table p)[i]? = some (some e) →
      e.type ≠ .endpoint → (w.kernel.typed e.type e.object).isSome) ∧
    (∀ x ∈ w.ops, x.1 ≠ .endpoint → (w.kernel.typed x.1 x.2).isSome) ∧
    (∀ o, 0 < w.kernel.watchRefs o + w.kernel.irqRefs o → w.kernel.obj o ≠ none) ∧
    ((∀ o, w.kernel.entries o + w.kernel.irqRefs o + opsRefs w.ops o = 0) →
      ∀ o ob, w.kernel.obj o = some ob → ob.kind = .endpoint) := by
  have hw := worldBalanced_of_safe_run h
  have hb := hw.balanced
  have hheld : ∀ o ob, w.kernel.obj o = some ob →
      0 < w.kernel.entries o + w.kernel.watchRefs o + w.kernel.irqRefs o + opsRefs w.ops o :=
      fun o ob hob => by
    have hrefs := hb.refs o ob hob
    have hpos := ob.live
    simp only [countP_nil] at hrefs
    omega
  refine ⟨fun o ob ho _ => hheld o ob ho, fun p i e he _ => hb.entryTyped p i e he,
    fun x hx _ => hw.typed x hx, fun o hpos ho => ?_, fun hz o ob ho => ?_⟩
  · have hnone := hb.no_holders ho
    omega
  · have hpos := hheld o ob ho
    have hzero := hz o
    obtain ⟨x, hx⟩ := hb.watch_held (o := o) (by omega)
    have hzero := hz x
    omega

end World

def pipeRun : List (Call (Fin 1) (Fin 1)) :=
  [.pipeCreate 0 0 true, .duplicate 0 0 handleInvalid .null]

theorem safe_pipeRun {w : World (Fin 1) (Fin 1)}
    (hw : Lib.run step (bootWorld (Fin 1) (Fin 1)) pipeRun = some w) :
    Lib.Reach step Boot HintSafe w := by
  refine .of_run pipeRun (.init (boot_bootWorld _ _)) (fun t a ha => ?_) hw
  simp only [pipeRun, mem_cons, not_mem_nil, or_false] at ha
  rcases ha with rfl | rfl
  · trivial
  · exact fun _ _ _ => .inl rfl

theorem objects_counted_pipeRun : ∃ w : World (Fin 1) (Fin 1),
    Lib.run step (bootWorld (Fin 1) (Fin 1)) pipeRun = some w ∧
      (w.kernel.obj 0).map (fun ob => (ob.kind, ob.refcount)) = some (.pipe 2 1, 3) ∧
      ObjectsCounted w ∧ ∀ c, HintSafe w c → (step w c).isSome := by
  have hobj : ((Lib.run step (bootWorld (Fin 1) (Fin 1)) pipeRun).map fun w =>
      (w.kernel.obj 0).map fun ob => (ob.kind, ob.refcount)) = some (some (.pipe 2 1, 3)) := by
    decide +kernel
  obtain ⟨w, hw, hobj⟩ := map_eq_some_iff.mp hobj
  exact ⟨w, hw, hobj, objects_counted (safe_pipeRun hw)⟩

theorem objects_live_iff_held_pipeRun : ∃ w : World (Fin 1) (Fin 1),
    Lib.run step (bootWorld (Fin 1) (Fin 1)) pipeRun = some w ∧
      (w.kernel.table 0)[2]?.map (Option.map HandleEntry.hold) = some (some (.pipeRead, 0)) ∧
      (w.kernel.typed .pipeRead 0).isSome := by
  have hent : ((Lib.run step (bootWorld (Fin 1) (Fin 1)) pipeRun).map fun w =>
      (w.kernel.table 0)[2]?.map (Option.map HandleEntry.hold)) =
        some (some (some (.pipeRead, 0))) := by
    decide +kernel
  obtain ⟨w, hw, hent⟩ := map_eq_some_iff.mp hent
  refine ⟨w, hw, hent, ?_⟩
  obtain ⟨v, hv, hent⟩ := map_eq_some_iff.mp hent
  obtain ⟨e, rfl, he⟩ := map_eq_some_iff.mp hent
  obtain ⟨htype, hobj⟩ := Prod.mk.inj he
  have h := (objects_live_iff_held (safe_pipeRun hw)).2.1 0 2 e hv (by rw [htype]; decide)
  rwa [htype, hobj] at h

/-- An event duplicated to a hint that wraps: the second entry lies before the table. -/
def strayRun : List (Call (Fin 1) (Fin 1)) :=
  [.eventCreate 0 0, .duplicate 0 0 0xFFFFFFF0 .null]

theorem objects_miscounted : ∃ w : World (Fin 1) (Fin 1),
    Lib.Reach step Boot (fun _ _ => True) w ∧ ¬ ObjectsCounted w := by
  obtain ⟨w, hw, hobj, hent, hirq, hwatch, hops⟩ := Lib.Reach.exists_run step (P := fun w =>
    (w.kernel.obj 0).map (fun ob => (ob.kind, ob.refcount)) = some (.event, 2) ∧
      w.kernel.entries 0 = 1 ∧
      w.kernel.irqRefs 0 = 0 ∧ w.kernel.watchRefs 0 = 0 ∧ opsRefs w.ops 0 = 0) strayRun
    (boot_bootWorld (Fin 1) (Fin 1)) (by decide +kernel)
  simp only [map_eq_some_iff, Prod.mk.injEq] at hobj
  obtain ⟨ob, ho, hk, href⟩ := hobj
  refine ⟨w, hw, fun h => ?_⟩
  have hcount := h 0 ob ho
  rw [hk] at hcount
  omega

end Xnix
