import Xnix.Proofs.RamTree

/-!
# What a request does to the file system

For each operation: that it returns, and the few things it can have done. The tree follows, with the
condition on `ramfs_rename` that the new parent is not below what is moved.
-/

namespace Xnix

open Function Option

namespace Ramfs

open Relation

variable {fs fs' : Ramfs} {Q Q' : NodeId → List NodeId} {n m p q c : NodeId} {name path : CString}
  {r : ℤ} {links : Lib.Links NodeId NodeId} {memory : Option Lib.Flat}

theorem mem_cons_iff (hn : ∀ q, n ∉ Q q) :
    (∀ q c, c ≠ n → (c ∈ update Q p (n :: Q p) q ↔ c ∈ Q q)) ∧
      ∀ q, n ∈ update Q p (n :: Q p) q ↔ q = p := by
  refine ⟨fun q c hc => ?_, fun q => ?_⟩
  · by_cases h : q = p
    · subst h
      simp [hc]
    · rw [update_of_ne h]
  · by_cases h : q = p
    · subst h
      simp
    · rw [update_of_ne h]
      exact ⟨fun hq => absurd hq (hn q), fun hq => absurd hq h⟩

theorem allocNode_spec (h : fs.allocNode = some n) : (fs.nodes n).inUse = false := by
  simpa using List.find?_some h

theorem allocHandle_spec (fs : Ramfs) (n : NodeId) :
    (∃ h < ramfsMaxHandles, (fs.handles h).inUse = false ∧
      fs.allocHandle n = ({ fs with handles := update fs.handles h ⟨n, true⟩ }, (h : ℤ))) ∨
      fs.freeSlot = none ∧ fs.allocHandle n = (fs, -eNFile) := by
  unfold allocHandle
  rcases hslot : fs.freeSlot with _ | h
  · exact .inr ⟨rfl, rfl⟩
  · have hfree := List.find?_some hslot
    have hlt := List.mem_range.mp (List.mem_of_find?_eq_some hslot)
    exact .inl ⟨h, hlt, by simpa using hfree, rfl⟩

theorem allocHandle_nodes (fs : Ramfs) (n : NodeId) :
    (fs.allocHandle n).1.nodes = fs.nodes ∧ (fs.allocHandle n).1.links = fs.links := by
  rcases allocHandle_spec fs n with ⟨h, -, -, heq⟩ | ⟨-, heq⟩ <;> rw [heq] <;> exact ⟨rfl, rfl⟩

theorem allocHandle_handles (fs : Ramfs) (n : NodeId) (h : ℕ) :
    (fs.allocHandle n).1.handles h = fs.handles h ∨
      (fs.handles h).inUse = false ∧ h < ramfsMaxHandles ∧
      (fs.allocHandle n).1.handles h = ⟨n, true⟩ := by
  rcases allocHandle_spec fs n with ⟨h', hlt, hfree, heq⟩ | ⟨-, heq⟩
  · rw [heq]
    by_cases hh : h = h'
    · subst hh
      exact .inr ⟨hfree, hlt, update_self ..⟩
    · exact .inl (update_of_ne hh ..)
  · rw [heq]
    exact .inl rfl

theorem detach_spec (hS : Shape fs Q) (hn : n ∈ Q p) : ∃ links, fs.detach n =
      some { fs with links := links } ∧ Lib.Linked links (update Q p ((Q p).erase n)) := by
  obtain ⟨links, hlinks, hL⟩ := hS.linked.unlink p n
  refine ⟨links, ?_, hL⟩
  rw [detach, ((hS.mem_iff p n).mp hn).2]
  simp only [hlinks, map_some]

theorem makeNode_spec (hS : Shape fs Q) (hres : resolve fs Q path = none) (type : RamType) :
    (∃ e < 0, fs.makeNode path type = some (fs, .error e)) ∨
      ∃ n p name, (fs.nodes n).inUse = false ∧ Entry fs Q p name ∧
        fs.makeNode path type = some (fs.newNode n p name type, .ok n) := by
  unfold makeNode
  rcases newEntry_isSome hS.linked path with ⟨e, he, hentry⟩ | ⟨p, name, hentry⟩
  · rw [hentry]
    exact .inl ⟨e, he, rfl⟩
  · rw [hentry, map_some]
    rcases hnode : fs.allocNode with _ | n
    · exact .inl ⟨-eNoSpc, by decide, rfl⟩
    · exact .inr ⟨n, p, name, allocNode_spec hnode, hS.entry hres hentry, rfl⟩

theorem newNode_of_ne (type : RamType) (h : m ≠ n) :
  (fs.newNode n p name type).nodes m = fs.nodes m := update_of_ne h ..

theorem attach_of_ne (h : m ≠ n) : (fs.attach n p name).nodes m = fs.nodes m := update_of_ne h ..

def gone (fs : Ramfs) (n : NodeId) (links : Lib.Links NodeId NodeId) : Ramfs :=
  { fs.setNode n { fs.nodes n with data := .null, inUse := false } with links := links }

theorem gone_of_ne (h : m ≠ n) : (fs.gone n links).nodes m = fs.nodes m := update_of_ne h ..

section
variable (hS : Shape fs Q)
include hS

theorem openFile_spec (path : CString) (flags : BitVec 32) :
      ∃ fs' r, fs.openFile path flags = some (fs', r) ∧ (fs' = fs ∧ r < 0 ∨
        (∃ n p name, resolve fs Q path = none ∧ hasFlag flags vfsOCreat = true ∧
        (fs.nodes n).inUse = false ∧
          fs.makeNode path .file = some (fs.newNode n p name .file, .ok n) ∧
          Entry fs Q p name ∧ (fs', r) = (fs.newNode n p name .file).allocHandle n) ∨
        ∃ n, resolve fs Q path = some n ∧ (fs.nodes n).type = .file ∧
          (hasFlag flags vfsOCreat && hasFlag flags vfsOExcl) = false ∧
          (fs', r) = (if hasFlag flags vfsOTrunc then fs.truncate n else fs).allocHandle n) := by
  unfold openFile
  rw [lookupPath_eq hS.linked, bind_some]
  rcases hres : resolve fs Q path with _ | n
  · dsimp only
    split
    · exact ⟨_, _, rfl, .inl ⟨rfl, by decide⟩⟩
    · rename_i hcreat
      rw [Bool.not_eq_false] at hcreat
      rcases makeNode_spec hS hres .file with ⟨e, he, hmake⟩ | ⟨n, p, name, hn, hE, hmake⟩
      · rw [hmake]
        exact ⟨_, _, rfl, .inl ⟨rfl, he⟩⟩
      · rw [hmake]
        exact ⟨_, _, rfl, .inr (.inl ⟨n, p, name, rfl, hcreat, hn, rfl, hE, rfl⟩)⟩
  · dsimp only
    rcases htype : (fs.nodes n).type with _ | _
    · split
      · cases ‹RamType.file = .dir›
      · split
        · exact ⟨_, _, rfl, .inl ⟨rfl, by decide⟩⟩
        · rename_i hexcl
          refine ⟨_, _, ?_, .inr (.inr ⟨n, rfl, htype, by simpa using hexcl, rfl⟩)⟩
          split <;> rfl
    · exact ⟨_, _, rfl, .inl ⟨rfl, by decide⟩⟩

theorem openDir_spec (path : CString) : ∃ fs' r, fs.openDir path = some (fs', r) ∧
      (fs' = fs ∧ r < 0 ∨ ∃ n, resolve fs Q path = some n ∧ (fs', r) = fs.allocHandle n) := by
  unfold openDir
  rw [lookupPath_eq hS.linked, map_some]
  rcases hres : resolve fs Q path with _ | n
  · exact ⟨_, _, rfl, .inl ⟨rfl, by decide⟩⟩
  · dsimp only
    split
    · exact ⟨_, _, rfl, .inl ⟨rfl, by decide⟩⟩
    · exact ⟨_, _, rfl, .inr ⟨n, rfl, rfl⟩⟩

theorem mkdir_spec (path : CString) : ∃ fs' r, fs.mkdir path = some (fs', r) ∧
      (fs' = fs ∧ r < 0 ∨ ∃ n p name, (fs.nodes n).inUse = false ∧ Entry fs Q p name ∧
        fs' = fs.newNode n p name .dir ∧ r = 0) := by
  unfold mkdir
  rw [lookupPath_eq hS.linked, bind_some]
  rcases hres : resolve fs Q path with _ | n
  · dsimp only
    rcases makeNode_spec hS hres .dir with ⟨e, he, hmake⟩ | ⟨n, p, name, hn, hE, hmake⟩
    · rw [hmake]
      exact ⟨_, _, rfl, .inl ⟨rfl, he⟩⟩
    · rw [hmake]
      exact ⟨_, _, rfl, .inr ⟨n, p, name, hn, hE, rfl, rfl⟩⟩
  · exact ⟨_, _, rfl, .inl ⟨rfl, by decide⟩⟩

theorem del_spec (path : CString) :
    fs.del path = none ∧ (∃ n, resolve fs Q path = some n ∧ (fs.nodes n).data = .freed) ∨
      ∃ fs' r, fs.del path = some (fs', r) ∧
        (fs' = fs ∧ r < 0 ∨ ∃ n p links, resolve fs Q path = some n ∧ n ∈ Q p ∧ Q n = [] ∧
          Lib.Linked links (update Q p ((Q p).erase n)) ∧ fs' = fs.gone n links ∧ r = 0) := by
  unfold del
  rw [lookupPath_eq hS.linked, bind_some]
  rcases hres : resolve fs Q path with _ | n
  · exact .inr ⟨_, _, rfl, .inl ⟨rfl, by decide⟩⟩
  · dsimp only
    split
    · exact .inr ⟨_, _, rfl, .inl ⟨rfl, by decide⟩⟩
    · rename_i hroot
      split
      · exact .inr ⟨_, _, rfl, .inl ⟨rfl, by decide⟩⟩
      · rename_i hempty
        obtain ⟨p, hp⟩ := (resolve_mem hres).resolve_left hroot
        have hleaf : Q n = [] := by
          refine List.eq_nil_iff_forall_not_mem.mpr fun c hc =>
            hempty ⟨(hS.dir n c hc).2, fun hhead => ?_⟩
          rw [hS.linked.of_head_none hhead] at hc
          cases hc
        obtain ⟨links, hdetach, hL⟩ := detach_spec hS hp
        rw [hdetach, bind_some, freeNode]
        rcases hdata : (fs.nodes n).data with _ | ⟨len, bytes⟩ | _
        · exact .inr ⟨_, _, rfl, .inr ⟨n, p, links, rfl, hp, hleaf, hL, rfl, rfl⟩⟩
        · exact .inr ⟨_, _, rfl, .inr ⟨n, p, links, rfl, hp, hleaf, hL, rfl, rfl⟩⟩
        · exact .inl ⟨rfl, n, rfl, hdata⟩

theorem rename_spec (oldPath newPath : CString) :
    ∃ fs' r, fs.rename oldPath newPath = some (fs', r) ∧
      (fs' = fs ∧ r < 0 ∨ ∃ n p0 p name links, resolve fs Q oldPath = some n ∧ n ∈ Q p0 ∧
        resolve fs Q newPath = none ∧ newEntry fs newPath = some (.ok (p, name)) ∧
        Entry fs Q p name ∧
        Lib.Linked links (update Q p0 ((Q p0).erase n)) ∧
        fs' = attach { fs with links := links } n p name ∧ r = 0) := by
  unfold rename
  rw [lookupPath_eq hS.linked, bind_some]
  rcases hres : resolve fs Q oldPath with _ | n
  · exact ⟨_, _, rfl, .inl ⟨rfl, by decide⟩⟩
  · dsimp only
    split
    · exact ⟨_, _, rfl, .inl ⟨rfl, by decide⟩⟩
    · rename_i hroot
      rw [lookupPath_eq hS.linked, bind_some]
      rcases hnew : resolve fs Q newPath with _ | m
      · dsimp only
        rcases newEntry_isSome hS.linked newPath with ⟨e, he, hentry⟩ | ⟨p, name, hentry⟩
        · rw [hentry]
          exact ⟨_, _, rfl, .inl ⟨rfl, he⟩⟩
        · obtain ⟨p0, hp0⟩ := (resolve_mem hres).resolve_left hroot
          obtain ⟨links, hdetach, hL⟩ := detach_spec hS hp0
          rw [hentry, bind_some]
          rw [hdetach]
          exact ⟨_, _, rfl,
            .inr ⟨n, p0, p, name, links, rfl, hp0, rfl, rfl, hS.entry hnew hentry, hL, rfl, rfl⟩⟩
      · exact ⟨_, _, rfl, .inl ⟨rfl, by decide⟩⟩

end

theorem growTo_spec {node node' : RamNode} {last : ℕ} {got : Bool}
    (h : growTo node last memory = some (got, node')) :
    ∃ data capacity, node' = { node with data := data, capacity := capacity } := by
  unfold growTo at h
  split at h
  · simp only [some.injEq, Prod.mk.injEq] at h
    obtain ⟨-, rfl⟩ := h
    exact ⟨_, _, rfl⟩
  · obtain ⟨⟨got', data⟩, -, h⟩ := map_eq_some_iff.mp h
    dsimp only at h
    split at h <;> simp only [Prod.mk.injEq] at h <;> obtain ⟨-, rfl⟩ := h <;> exact ⟨_, _, rfl⟩

theorem write_spec {h offset : ℕ} {buf : List (BitVec 8)}
    (hw : fs.write h offset buf memory = some (fs', r)) :
    fs' = fs ∨ ∃ n data capacity size, fs.getHandle h = some n ∧
      fs' = fs.setNode n { fs.nodes n with data := data, capacity := capacity, size := size } := by
  unfold write at hw
  rcases hn : fs.getHandle h with _ | n
  · rw [hn] at hw
    cases hw
    exact .inl rfl
  · rw [hn] at hw
    dsimp only at hw
    split at hw
    · cases hw
      exact .inl rfl
    · obtain ⟨⟨got, node⟩, hgrow, hw⟩ := bind_eq_some_iff.mp hw
      obtain ⟨data, capacity, rfl⟩ := growTo_spec hgrow
      split at hw
      · cases hw
        exact .inr ⟨n, data, capacity, _, rfl, rfl⟩
      · obtain ⟨data', -, hw⟩ := map_eq_some_iff.mp hw
        cases hw
        exact .inr ⟨n, data', capacity, _, rfl, rfl⟩

section
variable (hS : Shape fs Q)
include hS

theorem Shape.newNode (hE : Entry fs Q p name) (hn : (fs.nodes n).inUse = false) (type : RamType) :
    Shape (fs.newNode n p name type) (update Q p (n :: Q p)) := by
  have hnot : ∀ q, n ∉ Q q := fun q => hS.notMem hn
  have hhead : update fs.links.head n none = fs.links.head :=
    update_eq_self_iff.mpr (hS.linked.head_of_nil (hS.nil hn)).symm
  have hnp : p ≠ n := fun heq => by
    rw [← heq, hE.dir.1] at hn
    cases hn
  obtain ⟨hmem, hn'⟩ := mem_cons_iff hnot
  refine hS.place ?_ hmem hn' (fun c hc => update_of_ne hc ..) ?_ ?_ ?_ ?_ ?_ ?_
  · rw [Ramfs.newNode, hhead]
    exact (hS.linked.clear hnot).push hnot
  · rintro rfl
    rw [hS.root.1] at hn
    cases hn
  · simp [Ramfs.newNode]
  · intro c hc
    rw [hS.nil hn] at hc
    cases hc
  · simpa [Ramfs.newNode, hnp] using hE.dir
  · simpa [Ramfs.newNode] using hE.named
  · intro c hc _
    simpa [Ramfs.newNode] using hE.fresh c hc

theorem Reached.newNode (hR : Reached fs Q) (hE : Entry fs Q p name)
    (hn : (fs.nodes n).inUse = false) (type : RamType) :
    Reached (fs.newNode n p name type) (update Q p (n :: Q p)) := by
  obtain ⟨hmem, hn'⟩ := mem_cons_iff fun q => hS.notMem hn
  have hkeep : ∀ m, ReflTransGen (fun p c => c ∈ Q p) root m →
      ReflTransGen (fun q c => c ∈ update Q p (n :: Q p) q) root m :=
    fun m h => ReflTransGen.mono
      (fun q c hc => (hmem q c fun heq => hS.notMem hn (heq ▸ hc)).mpr hc) _ _ h
  intro m hm
  by_cases hmn : m = n
  · rw [hmn]
    exact (hkeep p (hR p hE.dir.1)).tail ((hn' p).mpr rfl)
  · rw [newNode_of_ne type hmn] at hm
    exact hkeep m (hR m hm)

theorem Shape.gone (hn : n ∈ Q p) (hleaf : Q n = [])
    (hL : Lib.Linked links (update Q p ((Q p).erase n))) :
    Shape (fs.gone n links) (update Q p ((Q p).erase n)) := by
  obtain ⟨hmem, hn'⟩ := hS.linked.mem_erase_iff hn
  refine hS.drop hL hmem hn' (fun c hc => update_of_ne hc ..) ?_ ?_ hleaf
  · rintro rfl
    exact hS.root_notMem hn
  · simp [Ramfs.gone, setNode]

theorem Reached.gone (hR : Reached fs Q) (hn : n ∈ Q p) (hleaf : Q n = []) :
    Reached (fs.gone n links) (update Q p ((Q p).erase n)) := by
  obtain ⟨hmem, -⟩ := hS.linked.mem_erase_iff hn
  intro m hm
  by_cases hmn : m = n
  · subst hmn
    simp [gone, setNode] at hm
  · rw [gone_of_ne hmn] at hm
    refine Lib.reached_of_leaf (fun q c hc hcn => (hmem q c hcn).mpr hc) (fun c hc => ?_)
      hmn (hR m hm)
    rw [hleaf] at hc
    cases hc

theorem Shape.attach (hE : Entry fs Q p name) (hn : n ∈ Q q)
    (hL : Lib.Linked links (update Q q ((Q q).erase n))) :
    ∃ Q', Shape (attach { fs with links := links } n p name) Q' ∧
      (∀ a c, c ≠ n → (c ∈ Q' a ↔ c ∈ Q a)) ∧ n ∈ Q' p := by
  obtain ⟨hmem, hnot⟩ := hS.linked.mem_erase_iff hn
  obtain ⟨hmem', hn'⟩ := mem_cons_iff hnot
  refine ⟨_, hS.place (hL.push hnot) (fun a c hc => (hmem' a c hc).trans (hmem a c hc)) hn'
    (fun c hc => update_of_ne hc ..) ?_ ?_ ?_ ?_ ?_ ?_,
    fun a c hc => (hmem' a c hc).trans (hmem a c hc), (hn' p).mpr rfl⟩
  · rintro rfl
    exact hS.root_notMem hn
  · simpa [Ramfs.attach, setNode] using hS.inUse hn
  · intro c hc
    simpa [Ramfs.attach, setNode] using (hS.dir n c hc).2
  · by_cases hpn : p = n
    · subst hpn
      simpa [attach, setNode] using hE.dir
    · simpa [Ramfs.attach, setNode, hpn] using hE.dir
  · simpa [Ramfs.attach, setNode] using hE.named
  · intro c hc _
    simpa [Ramfs.attach, setNode] using hE.fresh c hc

end

theorem Reached.attach (hR : Reached fs Q) (hE : Entry fs Q p name) (hn : (fs.nodes n).inUse = true)
    (hnot : ¬ ReflTransGen (fun p c => c ∈ Q p) n p) (hmem : ∀ a c, c ≠ n → (c ∈ Q' a ↔ c ∈ Q a))
    (hnew : n ∈ Q' p) : Reached (attach { fs with links := links } n p name) Q' := by
  intro m hm
  have hm' : (fs.nodes m).inUse = true := by
    by_cases hmn : m = n
    · rwa [hmn]
    · rwa [attach_of_ne hmn] at hm
  exact Lib.reached_of_move (fun a c hc hcn => (hmem a c hcn).mpr hc) hnew (hR p hE.dir.1)
    hnot (hR m hm')

theorem Reached.congr (hR : Reached fs Q) (h : ∀ n, (fs'.nodes n).inUse = (fs.nodes n).inUse) :
  Reached fs' Q := fun n hn => hR n (by rw [← h n, hn])

theorem inUse_setNode (fs : Ramfs) (n : NodeId) (data : RamData) (capacity size : ℕ) (m : NodeId) :
    ((fs.setNode n { fs.nodes n with data := data, capacity := capacity, size := size }).nodes
      m).inUse = (fs.nodes m).inUse := by
  by_cases hm : m = n
  · subst hm
    simp [setNode]
  · simp [setNode, hm]

theorem Shape.setNode (hS : Shape fs Q) (n : NodeId) (data : RamData) (capacity size : ℕ) :
    Shape (fs.setNode n { fs.nodes n with data := data, capacity := capacity, size := size })
    Q := by
  refine hS.congr rfl fun c => ?_
  by_cases hc : c = n
  · subst hc
    simp [Ramfs.setNode]
  · simp [Ramfs.setNode, hc]

theorem Shape.allocHandle (hS : Shape fs Q) (n : NodeId) : Shape (fs.allocHandle n).1 Q := by
  obtain ⟨hnodes, hlinks⟩ := allocHandle_nodes fs n
  exact hS.congr hlinks fun c => by rw [hnodes]

end Ramfs

end Xnix
