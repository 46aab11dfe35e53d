import Xnix.Vmm
import Xnix.Proofs.Balance
import Xnix.Proofs.Receive

/-!
# Read and write rights

Which calls look at the rights of the handle they are given. A call that passes its checks operates
on the object of an entry, any other call only returns. Sends, calls and receives test the right
they use; events, pipes and mappings of physical memory do not.
-/

namespace Xnix

open Function Option Cmd

variable {Pid Oid Tid : Type} {e : HandleEntry Oid} {type : HandleType} {region : PhysmemRegion}
  {pg : UserPage Oid} {offset size v : ℕ} {h : ℕ}

section Mediation

section
variable (s : Sys Pid Oid Tid) (t : Tid)

def Sys.entry (h : ℕ) (type : HandleType) :
    Option (HandleEntry Oid) :=
  ((s.kernel.table (s.thr t).owner)[h]?.join).filter fun e => type = e.type

/-- The handle a call operates on, the type it must have, and the right that operation is named
after. -/
def Cmd.uses : Cmd Pid Oid Tid → Option (ℕ × HandleType × Rights)
  | .send h .. | .call h .. => some (h, .endpoint, handleRightWrite)
  | .recv h .. => some (h, .endpoint, handleRightRead)
  | .eventSignal h _ => some (h, .event, handleRightWrite)
  | .eventWait h => some (h, .event, handleRightRead)
  | .pipeRead h .. => some (h, .pipeRead, handleRightRead)
  | .pipeWrite h .. => some (h, .pipeWrite, handleRightWrite)
  | .reply .. | .replyTo .. | .sleep .. | .kill .. | .handle .. => none

/-- The entry through which a call operates on its object, once it has passed its checks. -/
def Cmd.admitted : Cmd Pid Oid Tid → Option (HandleEntry Oid)
  | .send h .. | .call h .. =>
    if !s.hasCap t capIpcSend then none
    else (s.entry t h .endpoint).filter fun e => e.rights.has handleRightWrite
  | .recv h .. =>
    if !s.hasCap t capIpcRecv then none
    else (s.entry t h .endpoint).filter fun e => e.rights.has handleRightRead
  | .eventSignal h bits => if bits = 0#32 then none else s.entry t h .event
  | .eventWait h => s.entry t h .event
  | .pipeRead h size _ => if size = 0 then none else s.entry t h .pipeRead
  | .pipeWrite h data _ => if data.length = 0 then none else s.entry t h .pipeWrite
  | .reply .. | .replyTo .. | .sleep .. | .kill .. | .handle .. => none

end

def Cmd.onEndpoint : Cmd Pid Oid Tid → Bool
  | .send .. | .call .. | .recv .. => true
  | _ => false

def Cmd.idle : Cmd Pid Oid Tid → Bool
  | .eventSignal _ bits => bits = 0#32
  | .pipeRead _ size _ => size = 0
  | .pipeWrite _ data _ => data.length = 0
  | _ => false

variable {s : Sys Pid Oid Tid} {t : Tid} {s' : Sys Pid Oid Tid} {c : Cmd Pid Oid Tid}
  {op : Option (OpKind × ℕ)}

theorem admitted_right_iff {right : Rights} (hu : c.uses = some (h, type, right)) :
    (∀ e, c.admitted s t = some e → e.rights.has right) ↔
      c.onEndpoint ∨ c.idle ∨ ∀ e, s.entry t h type = some e → e.rights.has right := by
  cases c with
  | send | call | recv =>
    cases hu
    refine ⟨fun _ => .inl rfl, fun _ e he => ?_⟩
    simp only [admitted] at he
    split_ifs at he
    exact (filter_eq_some_iff.mp he).2
  | eventWait =>
    cases hu
    simp [onEndpoint, idle, admitted]
  | eventSignal _ bits =>
    cases hu
    by_cases hz : bits = 0#32 <;> simp [onEndpoint, idle, admitted, hz]
  | pipeRead _ size =>
    cases hu
    by_cases hz : size = 0 <;> simp [onEndpoint, idle, admitted, hz]
  | pipeWrite _ data =>
    cases hu
    by_cases hz : data.length = 0 <;> simp [onEndpoint, idle, admitted, hz]
  | reply | replyTo | sleep | kill | handle => cases hu

theorem handleAcquire_of_entry [DecidableEq Oid] (he : s.entry t h type = some e) :
    e.type = type ∧ handleAcquire s.kernel (s.thr t).owner h (some type)
      = (handleObjectGet s.kernel e.type e.object).map fun k => (k, some e) := by
  obtain ⟨hj, htype⟩ := filter_eq_some_iff.mp he
  have htype : type = e.type := of_decide_eq_true htype
  rw [join_eq_some_iff] at hj
  refine ⟨htype.symm, ?_⟩
  rw [handleAcquire, hj]
  simp [htype]

theorem handleAcquire_of_no_entry [DecidableEq Oid] (he : s.entry t h type = none) :
    handleAcquire s.kernel (s.thr t).owner h (some type) = some (s.kernel, none) := by
  unfold handleAcquire
  split
  · rename_i e hslot
    have hne : type ≠ e.type := fun htype => by
      have : s.entry t h type = some e := by
        rw [Sys.entry, hslot]
        simp [htype]
      rw [he] at this
      cases this
    simp [hne]
  · rfl

variable [DecidableEq Tid]

theorem begin_hasCap (s : Sys Pid Oid Tid) (t : Tid) (req buf : Option (IpcMessage Pid Tid))
    (cap : BitVec 32) : (s.begin t req buf).hasCap t cap = s.hasCap t cap := by
  simp [Sys.hasCap, Sys.begin, Sys.modify]

theorem begin_entry (s : Sys Pid Oid Tid) (t : Tid) (req buf : Option (IpcMessage Pid Tid)) :
    (s.begin t req buf).entry t h type = s.entry t h type := by
  simp [Sys.entry, Sys.begin, Sys.modify]

/-- The kernel messages an IPC call makes before it looks at its handle. -/
def Cmd.begun (s : Sys Pid Oid Tid) (t : Tid) : Cmd Pid Oid Tid → Sys Pid Oid Tid
  | .send _ m _ => s.begin t (some { m with flags := m.flags ||| ipcFlagNoReply }) none
  | .call _ m buf _ => s.begin t (some { m with flags := m.flags &&& ~~~ ipcFlagNoReply })
      (some { buf with handles := [], senderTid := none, senderPid := none })
  | .recv _ buf _ =>
    s.begin t none (some { buf with handles := [], senderTid := none, senderPid := none })
  | _ => s

variable [DecidableEq Pid] [DecidableEq Oid]

theorem withHandle_of_entry {err : ℤ}
    {go : Sys Pid Oid Tid → HandleEntry Oid → Option (Sys Pid Oid Tid)} :
    s.withHandle t h type op err go =
      match s.entry t h type with
      | some e => (handleObjectGet s.kernel e.type e.object).bind fun k =>
        go { s with kernel := k } e
      | none => some (s.leave t op err) := by
  rcases he : s.entry t h type with _ | e
  · rw [Sys.withHandle, handleAcquire_of_no_entry he]
    rfl
  · rw [Sys.withHandle, (handleAcquire_of_entry he).2, bind_map]
    rfl

theorem putReturn_returns {x : Hold Oid} {r : ℤ}
    (h : ((handleObjectGet s.kernel e.type e.object).bind fun k =>
      { s with kernel := k }.putReturn t x op r) = some s') :
    ∃ k op r, s' = { s with kernel := k }.leave t op r := by
  obtain ⟨k, -, h⟩ := bind_eq_some_iff.mp h
  obtain ⟨s1, h1, rfl⟩ := map_eq_some_iff.mp h
  obtain ⟨k', -, rfl⟩ := onKernel_eq_some h1
  exact ⟨k', op, r, rfl⟩

section IpcSend
variable {kind : OpKind} {m : IpcMessage Pid Tid} {reply : Option (IpcMessage Pid Tid)}
  {timeout : ℕ}

theorem ipcSend_of_admitted (hcap : ¬ (!s.hasCap t capIpcSend) = true)
    (he : ((s.entry t h .endpoint).filter fun e => e.rights.has handleRightWrite) = some e) :
    ipcSend s t h kind m reply timeout = (handleObjectGet s.kernel e.type e.object).bind fun k =>
      ipcSendToEp { s.begin t (some m) reply with kernel := k } t e.object kind m timeout := by
  obtain ⟨he, hr⟩ := filter_eq_some_iff.mp he
  simp only [ipcSend, begin_hasCap, if_neg hcap, withHandle_of_entry, begin_entry, he, hr]
  rfl

theorem ipcSend_of_not_admitted (hc : (if !s.hasCap t capIpcSend then none else
      (s.entry t h .endpoint).filter fun e => e.rights.has handleRightWrite) = none)
    (hs : ipcSend s t h kind m reply timeout = some s') :
    ∃ k op r, s' = { s.begin t (some m) reply with kernel := k }.leave t op r := by
  simp only [ipcSend, begin_hasCap, withHandle_of_entry, begin_entry] at hs
  split_ifs at hc hs with hcap
  · cases hs
    exact ⟨_, _, _, rfl⟩
  rcases he : s.entry t h .endpoint with _ | e
  · rw [he] at hs
    cases hs
    exact ⟨_, _, _, rfl⟩
  · rw [he, filter_some_eq_none] at hc
    simp only [he, hc, Bool.not_false, if_true] at hs
    exact putReturn_returns hs

end IpcSend

variable [Fintype Tid]

/-- What a call does to its object. -/
def Cmd.operate (s : Sys Pid Oid Tid) (t : Tid) (o : Oid) :
    Cmd Pid Oid Tid → Option (Sys Pid Oid Tid)
  | .send _ m timeout =>
    ipcSendToEp s t o .send { m with flags := m.flags ||| ipcFlagNoReply } timeout
  | .call _ m _ timeout =>
    ipcSendToEp s t o .call { m with flags := m.flags &&& ~~~ ipcFlagNoReply } timeout
  | .recv _ _ timeout => ipcReceive s t o timeout
  | .eventSignal _ bits => (eventSignalByPtr s o bits).bind fun s =>
    s.putReturn t (.event, o) none 0
  | .eventWait _ => Xnix.eventWait s t o
  | .pipeRead _ size limit => Xnix.pipeRead t o size limit 2 s
  | .pipeWrite _ data limit => Xnix.pipeWrite t o data limit 3 0 s
  | _ => some s

theorem exec_of_admitted (hc : c.admitted s t = some e) :
    c.exec s t = (handleObjectGet s.kernel e.type e.object).bind fun k =>
      c.operate { c.begun s t with kernel := k } t e.object := by
  cases c with
  | send h m timeout | call h m buf timeout =>
    simp only [admitted] at hc
    split_ifs at hc with hcap
    exact ipcSend_of_admitted hcap hc
  | recv h buf timeout =>
    simp only [admitted] at hc
    split_ifs at hc with hcap
    obtain ⟨he, hr⟩ := filter_eq_some_iff.mp hc
    simp only [exec, ipcRecv, begin_hasCap, if_neg hcap, withHandle_of_entry, begin_entry, he, hr]
    rfl
  | eventWait h =>
    simp only [admitted] at hc
    simp only [exec, withHandle_of_entry, hc]
    rfl
  | eventSignal h bits | pipeRead h size limit | pipeWrite h data limit =>
    simp only [admitted] at hc
    split_ifs at hc with hz
    simp only [exec, if_neg hz, withHandle_of_entry, hc]
    rfl
  | reply | replyTo | sleep | kill | handle => cases hc

theorem exec_of_not_admitted (hu : c.uses ≠ none) (hc : c.admitted s t = none)
    (hs : c.exec s t = some s') : ∃ k op r, s' = { c.begun s t with kernel := k }.leave t op r := by
  cases c with
  | send h m timeout | call h m buf timeout => exact ipcSend_of_not_admitted hc hs
  | recv h buf timeout =>
    simp only [admitted] at hc
    simp only [exec, ipcRecv, begin_hasCap, withHandle_of_entry, begin_entry] at hs
    split_ifs at hc hs with hcap
    · cases hs
      exact ⟨_, _, _, rfl⟩
    rcases he : s.entry t h .endpoint with _ | e
    · rw [he] at hs
      cases hs
      exact ⟨_, _, _, rfl⟩
    · rw [he, filter_some_eq_none] at hc
      simp only [he, hc, Bool.not_false, if_true] at hs
      exact putReturn_returns hs
  | eventSignal h bits =>
    simp only [admitted] at hc
    simp only [exec, withHandle_of_entry] at hs
    split_ifs at hc hs
    · cases hs
      exact ⟨s.kernel, _, _, rfl⟩
    · rw [hc] at hs
      cases hs
      exact ⟨s.kernel, _, _, rfl⟩
  | eventWait h =>
    simp only [admitted] at hc
    simp only [exec, withHandle_of_entry, hc] at hs
    cases hs
    exact ⟨s.kernel, _, _, rfl⟩
  | pipeRead h size limit | pipeWrite h data limit =>
    simp only [admitted] at hc
    simp only [exec, withHandle_of_entry] at hs
    split at hs
    · rename_i e he
      split_ifs at hc hs
      · exact putReturn_returns hs
      · rw [he] at hc
        cases hc
    · cases hs
      exact ⟨s.kernel, _, _, rfl⟩
  | reply | replyTo | sleep | kill | handle => exact absurd rfl hu

end Mediation

section Mapping
variable {mapOk : ℕ → Bool} {base : ℕ} {f : ℕ → UserPage Oid}

theorem mapLoop_new : ∀ {n i : ℕ} {m : ℕ → Option (UserPage Oid)} {v : ℕ} {pg : UserPage Oid},
    (mapLoop mapOk base f n i m).1 v = some pg → m v ≠ some pg → 0 < n ∧ ∃ j, pg = f j
  | 0, _, _, _, _, h, hne => absurd h hne
  | n + 1, i, m, v, pg, h, hne => by
    refine ⟨Nat.succ_pos n, ?_⟩
    simp only [mapLoop] at h
    split_ifs at h
    · by_cases hv : update m (mapAddr base i) (some (f i)) v = some pg
      · by_cases hb : v = mapAddr base i
        · rw [hb, update_self] at hv
          exact ⟨i, (some.inj hv).symm⟩
        · rw [update_of_ne hb] at hv
          exact absurd hv hne
      · exact (mapLoop_new h hv).2
    · simp only at h
      split_ifs at h
      exact absurd h hne

theorem mapLoop_granted : ∀ {n i : ℕ} {m : ℕ → Option (UserPage Oid)},
    0 < n → ∃ v j, (mapLoop (fun _ => true) base f n i m).1 v = some (f j)
  | n + 1, i, m, _ => by
    simp only [mapLoop, if_true]
    rcases Nat.eq_zero_or_pos n with rfl | hn
    · exact ⟨mapAddr base i, i, update_self ..⟩
    · exact mapLoop_granted hn

/-- Every page that is mapped can be read, whatever `prot` says: its entry is always present. -/
theorem vmmFlagsToX86_pageProt (type : PhysmemType) (prot : BitVec 32) :
    (hasBit (vmmFlagsToX86 (pageProt type prot)) pteRw ↔ prot &&& 0x02#32 ≠ 0#32) ∧
      hasBit (vmmFlagsToX86 (pageProt type prot)) ptePresent := by
  unfold pageProt
  by_cases h1 : prot &&& 0x01#32 = 0#32 <;> by_cases h2 : prot &&& 0x02#32 = 0#32 <;>
    cases type <;> simp [h1, h2] <;> decide

section Region
variable {a : UserSpace Oid} {o : Oid} {prot : BitVec 32}
 

theorem physmemMapToUser_page (hoff : offset < region.size) :
    (physmemMapToUser a mapOk o region offset size prot).1.page =
      (mapRegion a mapOk o region offset (clampSize region offset size) prot).1 := by
  rw [physmemMapToUser, if_neg (Nat.not_le.mpr hoff)]
  rcases mapRegion a mapOk o region offset (clampSize region offset size) prot with ⟨pages, _ | _⟩
  · rfl
  · rfl

theorem physmemMapToUser_new
    (h : (physmemMapToUser a mapOk o region offset size prot).1.page v = some pg)
    (hne : a.page v ≠ some pg) :
    offset < region.size ∧ 0 < numPages offset (clampSize region offset size) ∧
      pg.prot = pageProt region.type prot := by
  by_cases hoff : offset < region.size
  · rw [physmemMapToUser_page hoff, mapRegion] at h
    obtain ⟨hn, j, rfl⟩ := mapLoop_new h hne
    exact ⟨hoff, hn, rfl⟩
  · rw [physmemMapToUser, if_pos (Nat.not_lt.mp hoff)] at h
    exact absurd h hne

theorem physmemMapToUser_granted (hoff : offset < region.size)
    (hn : 0 < numPages offset (clampSize region offset size)) :
    ∃ v pg, (physmemMapToUser a (fun _ => true) o region offset size prot).1.page v = some pg ∧
      pg.prot = pageProt region.type prot := by
  rw [physmemMapToUser_page hoff, mapRegion]
  obtain ⟨v, j, hv⟩ := mapLoop_granted hn
  exact ⟨v, _, hv, rfl⟩

end Region

variable [DecidableEq Oid] {k : Kernel Pid Oid} {p : Pid} {k₁ : Kernel Pid Oid}

structure MapTarget (k : Kernel Pid Oid) (p : Pid) (h : ℕ) (e : HandleEntry Oid)
    (region : PhysmemRegion) : Prop where
  cap : (k.proc p).any (capCheck · capMmMmap)
  entry : (k.table p)[h]? = some (some e)
  type : e.type = .physmem
  region : k.region e.object = some region

theorem sysMmapPhys_of_target
    (ht : MapTarget k p h e region) (a : UserSpace Oid) (mapOk : ℕ → Bool) (offset size : ℕ)
    (prot : BitVec 32) (outSize : Option ℤ) :
    let r := physmemMapToUser a mapOk e.object region offset (clampSize region offset size) prot
    ∃ k', sysMmapPhys k p a mapOk h offset size prot outSize = some (k', r.1,
      if r.2 = 0 then -eNoMem else if outSize.any (· < 0) then outSize.getD 0
        else toInt32 r.2) := by
  rcases hpr : k.proc p with _ | pr
  · have hcap := ht.cap
    rw [hpr] at hcap
    cases hcap
  have hcap : capCheck pr capMmMmap = true := by simpa [hpr] using ht.cap
  obtain ⟨ob, hob, hkind⟩ : ∃ ob, k.obj e.object = some ob ∧ ob.kind = .physmem region := by
    have hreg := ht.region
    unfold Kernel.region at hreg
    split at hreg
    · rename_i region' hk
      cases hreg
      exact map_eq_some_iff.mp hk
    · cases hreg
  have hacq : handleAcquire k p h (some .physmem)
      = some (k.setObj e.object (some ob.ref), some e) := by
    have htyped : k.typed .physmem e.object = some ob :=
      typed_eq_some_iff.mpr ⟨hob, by rw [hkind]; rfl⟩
    rw [handleAcquire, ht.entry]
    simp [ht.type, handleObjectGet, HandleType.uncounted, htyped]
  have hput : ∃ k',
    handleObjectPut (k.setObj e.object (some ob.ref)) e.type e.object = some k' := by
    have htyped : (k.setObj e.object (some ob.ref)).typed .physmem e.object = some ob.ref :=
      typed_eq_some_iff.mpr ⟨setObj_obj_self k _ _, by rw [Object.ref, hkind]; rfl⟩
    rw [ht.type, handleObjectPut, htyped]
    unfold Kernel.unref
    simp only [HandleType.uncounted, Bool.false_eq_true, if_false, bind_some]
    split
    · rename_i hk
      rw [Object.ref, hkind] at hk
      cases hk
    · exact ⟨_, rfl⟩
  obtain ⟨k', hput⟩ := hput
  have hregion : (k.setObj e.object (some ob.ref)).region e.object = some region := by
    rw [Kernel.region, setObj_obj_self, map_some, Object.ref, hkind]
  rw [sysMmapPhys, hpr]
  simp only [hcap, Bool.not_true, Bool.false_eq_true, if_false, hacq, bind_some, hregion,
    hput, map_some]
  exact ⟨k', rfl⟩

theorem handleAcquire_eq_some
    (hacq : handleAcquire k p h (some type) = some (k₁, some e)) :
    (k.table p)[h]? = some (some e) ∧ e.type = type ∧
    handleObjectGet k e.type e.object = some k₁ := by
  unfold handleAcquire at hacq
  split at hacq
  · rename_i e' he
    split_ifs at hacq with htype
    · obtain ⟨k2, hget, heq⟩ := map_eq_some_iff.mp hacq
      cases heq
      exact ⟨he, by simpa [eq_comm] using htype, hget⟩
    · cases hacq
  · cases hacq

theorem region_of_get {o : Oid} (h : handleObjectGet k type o = some k₁) :
    k₁.region o = k.region o := by
  unfold handleObjectGet at h
  split_ifs at h
  · cases h
    rfl
  · obtain ⟨ob, hob, rfl⟩ := map_eq_some_iff.mp h
    simp only [Kernel.region, setObj_obj_self, (typed_eq_some_iff.mp hob).1, map_some, Object.ref]

theorem sysMmapPhys_new {a a' : UserSpace Oid} {prot : BitVec 32}
    {outSize : Option ℤ} {k' : Kernel Pid Oid} {r : ℤ}
    (hs : sysMmapPhys k p a mapOk h offset size prot outSize = some (k', a', r))
    (hpg : a'.page v = some pg) (hne : a.page v ≠ some pg) :
    ∃ e region, MapTarget k p h e region ∧
      a' = (physmemMapToUser a mapOk e.object region offset (clampSize region offset size)
      prot).1 := by
  unfold sysMmapPhys at hs
  split at hs
  · cases hs
    exact absurd hpg hne
  rename_i pr hpr
  by_cases hcap : (!capCheck pr capMmMmap) = true
  · rw [if_pos hcap] at hs
    cases hs
    exact absurd hpg hne
  rw [if_neg hcap] at hs
  obtain ⟨⟨k₁, e | e⟩, hacq, hs⟩ := bind_eq_some_iff.mp hs
  · cases hs
    exact absurd hpg hne
  · obtain ⟨he, htype, hget⟩ := handleAcquire_eq_some hacq
    obtain ⟨region, hregion, hs⟩ := bind_eq_some_iff.mp hs
    obtain ⟨k2, -, heq⟩ := map_eq_some_iff.mp hs
    simp only [Prod.mk.injEq] at heq
    refine ⟨e, region, ⟨?_, he, htype, ?_⟩, heq.2.1.symm⟩
    · simpa [hpr] using hcap
    · rw [← region_of_get hget, hregion]

/-- A page that the mapping leaves behind can be written or read only if the handle has the
right. -/
def MapRespects (k : Kernel Pid Oid) (p : Pid) (h offset size : ℕ) (prot : BitVec 32) : Prop :=
  ∀ a mapOk outSize k' a' r,
    sysMmapPhys k p a mapOk h offset size prot outSize = some (k', a', r) →
    ∀ v pg e, a'.page v = some pg → a.page v ≠ some pg → (k.table p)[h]? = some (some e) →
      (hasBit (vmmFlagsToX86 pg.prot) pteRw → e.rights.has handleRightWrite) ∧
        (hasBit (vmmFlagsToX86 pg.prot) ptePresent → e.rights.has handleRightRead)

theorem mapRespects_iff (k : Kernel Pid Oid) (p : Pid) (h offset size : ℕ) (prot : BitVec 32) :
    MapRespects k p h offset size prot ↔ ∀ e region, MapTarget k p h e region → offset <
        region.size → 0 < numPages offset (clampSize region offset (clampSize region offset size)) →
        (prot &&& 0x02#32 ≠ 0#32 → e.rights.has handleRightWrite) ∧
        e.rights.has handleRightRead := by
  constructor
  · intro hresp e region ht hoff hn
    obtain ⟨k', hs⟩ := sysMmapPhys_of_target ht ⟨0, fun _ => none⟩ (fun _ => true) offset size prot
      none
    obtain ⟨v, pg, hpg, hprot⟩ :
      ∃ v pg, (physmemMapToUser ⟨0, fun _ => none⟩ (fun _ => true) e.object
        region offset (clampSize region offset size) prot).1.page v = some pg ∧
        pg.prot = pageProt region.type prot := physmemMapToUser_granted hoff hn
    have hgrant := hresp _ _ _ _ _ _ hs v pg e hpg nofun ht.entry
    rw [hprot, (vmmFlagsToX86_pageProt ..).1] at hgrant
    exact ⟨hgrant.1, hgrant.2 (vmmFlagsToX86_pageProt ..).2⟩
  · intro hright a mapOk outSize k' a' r hs v pg e hpg hne he
    obtain ⟨e', region, ht, rfl⟩ := sysMmapPhys_new hs hpg hne
    obtain ⟨hoff, hn, hprot⟩ := physmemMapToUser_new hpg hne
    have hsame := ht.entry.symm.trans he
    cases hsame
    obtain ⟨hwrite, hread⟩ := hright _ region ht hoff hn
    rw [hprot, (vmmFlagsToX86_pageProt ..).1]
    exact ⟨hwrite, fun _ => hread⟩

end Mapping

section Results
variable [DecidableEq Tid] [DecidableEq Pid] [DecidableEq Oid] [Fintype Tid]

end Results

end Xnix
