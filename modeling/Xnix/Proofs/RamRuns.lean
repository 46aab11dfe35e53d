import Xnix.Proofs.RamSteps

/-!
# Runs of the file system in memory

Every state that the file system gets into is a tree, as long as no `ramfs_rename` moves a directory
below itself. A handle keeps its file, as long as no `ramfs_del` takes a node that a handle is open
on: the array of nodes is searched for a free place without a look at the handles.
-/

namespace Xnix

namespace RamSys

open Relation Ramfs Option Lib

variable {fs fs' : Ramfs} {Q Q' : NodeId → List NodeId} {n m p : NodeId} {r : ℤ} {a : Action}
  {s s' : RamSys} {fs₁ : Ramfs}

theorem step_eq_some :
    step s a = some s' ↔ ∃ fs r, serve s.fs a = some (fs, r) ∧ s' = s.after a fs r := by
  simp only [step, map_eq_some_iff, Prod.exists]
  exact ⟨fun ⟨fs, r, h, h'⟩ => ⟨fs, r, h, h'.symm⟩, fun ⟨fs, r, h, h'⟩ => ⟨fs, r, h, h'.symm⟩⟩

/-- At most one node is taken and at most `gone` is freed, and a slot newly taken is open on a node
in use. -/
structure Effect (fs fs' : Ramfs) (gone : Option NodeId) : Prop where
  one : ∀ n m, (fs'.nodes n).inUse = true → (fs.nodes n).inUse = false →
    (fs'.nodes m).inUse = true → (fs.nodes m).inUse = false → n = m
  kept : ∀ n, (fs.nodes n).inUse = true → (fs'.nodes n).inUse = true ∨ gone = some n
  slot : ∀ h, (fs'.handles h).inUse = true → fs'.handles h = fs.handles h ∨
    (fs.handles h).inUse = false ∧ h < ramfsMaxHandles ∧
    (fs'.nodes (fs'.handles h).node).inUse = true

theorem Effect.of_same (hnodes : ∀ n, (fs'.nodes n).inUse = (fs.nodes n).inUse)
    (hslots : ∀ h, (fs'.handles h).inUse = true → fs'.handles h = fs.handles h) :
    Effect fs fs' none where
  one n m hn hn' := by
    rw [hnodes n, hn'] at hn
    cases hn
  kept n hn := .inl (by rw [hnodes n, hn])
  slot h hh := .inl (hslots h hh)

theorem Effect.refl (fs : Ramfs) : Effect fs fs none := .of_same (fun _ => rfl) fun _ _ => rfl

theorem Effect.setNode (fs : Ramfs) (n : NodeId) (data : RamData) (capacity size : ℕ) :
    Effect fs (fs.setNode n { fs.nodes n with data := data, capacity := capacity, size := size })
    none :=
  .of_same (inUse_setNode fs n data capacity size) fun _ _ => rfl

theorem Effect.newNode (hn : (fs.nodes n).inUse = false) (name : CString) (type : RamType) :
    Effect fs (fs.newNode n p name type) none := by
  have hnew : ∀ m, (fs.newNode n p name type).nodes m = fs.nodes m ∨ m = n := fun m => by
    by_cases hm : m = n
    · exact .inr hm
    · exact .inl (newNode_of_ne type hm)
  refine ⟨fun m m' hm hm0 hm' hm₀' => ?_, fun m hm => .inl ?_, fun h _ => .inl rfl⟩
  · rcases hnew m with heq | rfl
    · rw [heq, hm0] at hm
      cases hm
    · rcases hnew m' with heq | rfl
      · rw [heq, hm₀'] at hm'
        cases hm'
      · rfl
  · rcases hnew m with heq | rfl
    · rw [heq, hm]
    · rw [hn] at hm
      cases hm

theorem Effect.allocHandle (hE : Effect fs fs₁ none) (hh : fs₁.handles = fs.handles)
    (hn : (fs₁.nodes n).inUse = true) : Effect fs (fs₁.allocHandle n).1 none := by
  obtain ⟨hnodes, -⟩ := allocHandle_nodes fs₁ n
  refine ⟨by rw [hnodes]; exact hE.one, by rw [hnodes]; exact hE.kept, fun h _ => ?_⟩
  rcases allocHandle_handles fs₁ n h with heq | ⟨hfree, hlt, heq⟩
  · rw [heq, hh]
    exact .inl rfl
  · rw [hh] at hfree
    rw [heq, hnodes]
    exact .inr ⟨hfree, hlt, hn⟩

theorem Effect.gone (fs : Ramfs) (n : NodeId) (links : Links NodeId NodeId) :
    Effect fs (fs.gone n links) (some n) := by
  refine ⟨fun m _ hm hm0 => ?_, fun m hm => ?_, fun h _ => .inl rfl⟩
  · by_cases hmn : m = n
    · subst hmn
      simp [Ramfs.gone, Ramfs.setNode] at hm
    · rw [gone_of_ne hmn, hm0] at hm
      cases hm
  · by_cases hmn : m = n
    · exact .inr (by rw [hmn])
    · rw [gone_of_ne hmn]
      exact .inl hm

section Serve

/-- The new parent of a rename is neither the node nor below it. -/
def NotBelow (fs : Ramfs) : Action → Prop
  | .rename oldPath newPath => ∀ n p name, fs.lookupPath oldPath = some (some n) → n ≠ root →
      fs.lookupPath newPath = some none → fs.newEntry newPath = some (.ok (p, name)) →
      ¬ ReflTransGen (Child fs) n p
  | _ => True

def freedBy (fs : Ramfs) : Action → Option NodeId
  | .del path => if (fs.del path).map (·.2) = some 0 then (fs.lookupPath path).join else none
  | _ => none

/-- What a request keeps: the lists of children, the tree where nothing moves below itself, and the
nodes and slots in use. -/
structure Kept (fs fs' : Ramfs) (Q : NodeId → List NodeId) (a : Action) : Prop where
  shape : ∃ Q', Shape fs' Q' ∧ (Reached fs Q → NotBelow fs a → Reached fs' Q')
  effect : Effect fs fs' (freedBy fs a)

theorem Kept.refl (hS : Shape fs Q) (hfree : freedBy fs a = none) : Kept fs fs Q a :=
  ⟨⟨Q, hS, fun hR _ => hR⟩, hfree ▸ .refl fs⟩

theorem Kept.of_same (hS : Shape fs₁ Q) (huse : ∀ n, (fs₁.nodes n).inUse = (fs.nodes n).inUse)
    (hfree : freedBy fs a = none) (hE : Effect fs fs₁ none) : Kept fs fs₁ Q a :=
  ⟨⟨Q, hS, fun hR _ => hR.congr huse⟩, hfree ▸ hE⟩

theorem kept_allocHandle (hK : Kept fs fs₁ Q a) (hfree : freedBy fs a = none)
    (hh : fs₁.handles = fs.handles) (hn : (fs₁.nodes n).inUse = true) :
    Kept fs (fs₁.allocHandle n).1 Q a := by
  obtain ⟨⟨Q', hS', hR'⟩, hE⟩ := hK
  rw [hfree] at hE
  refine ⟨⟨Q', hS'.allocHandle n, fun hR hb => (hR' hR hb).congr fun m => ?_⟩,
    hfree ▸ hE.allocHandle hh hn⟩
  rw [(allocHandle_nodes fs₁ n).1]

variable {path : CString} (hS : Shape fs Q)
include hS

theorem kept_openFile {flags : BitVec 32} (h : fs.openFile path flags = some (fs', r)) :
    Kept fs fs' Q (.openFile path flags) := by
  obtain ⟨fs₁, r1, heq, hcases⟩ := openFile_spec hS path flags
  rw [heq, some.injEq, Prod.mk.injEq] at h
  obtain ⟨rfl, rfl⟩ := h
  rcases hcases with ⟨rfl, -⟩ | ⟨n, p, name, -, -, hn, -, hE, heq⟩ | ⟨n, hn, -, -, heq⟩
  · exact .refl hS rfl
  · obtain rfl := congrArg Prod.fst heq
    have hK : Kept fs (fs.newNode n p name .file) Q (.openFile path flags) :=
      ⟨⟨_, hS.newNode hE hn .file, fun hR _ => hR.newNode hS hE hn .file⟩, .newNode hn name .file⟩
    exact kept_allocHandle hK rfl rfl (by simp [newNode])
  · obtain rfl := congrArg Prod.fst heq
    have hK : Kept fs (if hasFlag flags vfsOTrunc then fs.truncate n
      else fs) Q (.openFile path flags) := by
      split
      · exact .of_same (hS.setNode n _ _ 0) (inUse_setNode fs n _ _ 0) rfl (.setNode fs n _ _ 0)
      · exact .refl hS rfl
    refine kept_allocHandle hK rfl ?_ ?_
    · split <;> rfl
    · have huse := hS.inUse_of (resolve_mem hn)
      split
      · exact (inUse_setNode fs n _ _ 0 n).trans huse
      · exact huse

theorem kept_openDir (h : fs.openDir path = some (fs', r)) : Kept fs fs' Q (.openDir path) := by
  obtain ⟨fs₁, r1, heq, hcases⟩ := openDir_spec hS path
  rw [heq, some.injEq, Prod.mk.injEq] at h
  obtain ⟨rfl, rfl⟩ := h
  rcases hcases with ⟨rfl, -⟩ | ⟨n, hn, heq⟩
  · exact .refl hS rfl
  · obtain rfl := congrArg Prod.fst heq
    exact kept_allocHandle (.refl hS rfl) rfl rfl (hS.inUse_of (resolve_mem hn))

theorem kept_close (h : ℕ) : Kept fs (fs.close h).1 Q (.close h) := by
  unfold close
  split
  · exact .refl hS rfl
  · refine .of_same (hS.congr rfl fun _ => rfl) (fun _ => rfl) rfl (.of_same (fun _ => rfl)
      fun h' hh' => ?_)
    by_cases heq : h' = h
    · subst heq
      simp at hh'
    · exact Function.update_of_ne heq ..

theorem kept_write {h offset : ℕ} {buf : List (BitVec 8)} {memory : Option Flat}
    (hw : fs.write h offset buf memory = some (fs', r)) :
    Kept fs fs' Q (.write h offset buf memory) := by
  rcases write_spec hw with rfl | ⟨n, data, capacity, size, -, rfl⟩
  · exact .refl hS rfl
  · exact .of_same (hS.setNode ..) (inUse_setNode fs n data capacity size) rfl (.setNode ..)

theorem kept_mkdir (h : fs.mkdir path = some (fs', r)) : Kept fs fs' Q (.mkdir path) := by
  obtain ⟨fs₁, r1, heq, hcases⟩ := mkdir_spec hS path
  rw [heq, some.injEq, Prod.mk.injEq] at h
  obtain ⟨rfl, rfl⟩ := h
  rcases hcases with ⟨rfl, -⟩ | ⟨n, p, name, hn, hE, rfl, -⟩
  · exact .refl hS rfl
  · exact ⟨⟨_, hS.newNode hE hn .dir, fun hR _ => hR.newNode hS hE hn .dir⟩, .newNode hn name .dir⟩

theorem kept_del (h : fs.del path = some (fs', r)) : Kept fs fs' Q (.del path) := by
  rcases del_spec hS path with ⟨hnone, -⟩ | ⟨fs₁, r1, heq, hcases⟩
  · rw [hnone] at h
    cases h
  · rw [heq, some.injEq, Prod.mk.injEq] at h
    obtain ⟨rfl, rfl⟩ := h
    rcases hcases with ⟨rfl, hneg⟩ | ⟨n, p, links, hn, hp, hleaf, hL, rfl, rfl⟩
    · refine .refl hS (if_neg ?_)
      rw [heq, map_some, some.injEq]
      exact hneg.ne
    · have hfree : freedBy fs (.del path) = some n := by
        rw [freedBy, if_pos (by rw [heq]; rfl), lookupPath_eq hS.linked, hn]
        rfl
      exact ⟨⟨_, hS.gone hp hleaf hL, fun hR _ => hR.gone hS hp hleaf⟩, hfree ▸ .gone fs n links⟩

theorem kept_rename {oldPath newPath : CString} (h : fs.rename oldPath newPath = some (fs', r)) :
    Kept fs fs' Q (.rename oldPath newPath) := by
  obtain ⟨fs₁, r1, heq, hcases⟩ := rename_spec hS oldPath newPath
  rw [heq, some.injEq, Prod.mk.injEq] at h
  obtain ⟨rfl, rfl⟩ := h
  rcases hcases with ⟨rfl, -⟩ | ⟨n, q, p, name, links, hn, hq, hnew, hentry, hE, hL, rfl, -⟩
  · exact .refl hS rfl
  · obtain ⟨Q', hS', hmem, hnew'⟩ := hS.attach hE hq hL
    have huse : ∀ m,
      ((attach { fs with links := links } n p name).nodes m).inUse = (fs.nodes m).inUse := by
      intro m
      by_cases hm : m = n
      · subst hm
        simp [Ramfs.attach, Ramfs.setNode]
      · rw [attach_of_ne hm]
    refine ⟨⟨Q', hS', fun hR hb => hR.attach hE (hS.inUse hq) ?_ hmem hnew'⟩,
      .of_same huse fun _ _ => rfl⟩
    have hroot : n ≠ root := fun heq => hS.root_notMem (heq ▸ hq)
    have hnot := hb n p name (by rw [lookupPath_eq hS.linked, hn]) hroot
      (by rw [lookupPath_eq hS.linked, hnew]) hentry
    have hchild : Child fs = fun p c => c ∈ Q p := by
      funext p c
      exact propext hS.child_iff
    rwa [hchild] at hnot

theorem kept_serve (h : serve fs a = some (fs', r)) : Kept fs fs' Q a := by
  cases a with
  | openFile path flags => exact kept_openFile hS h
  | openDir path => exact kept_openDir hS h
  | close h' =>
    obtain rfl := congrArg Prod.fst (some.inj h)
    exact kept_close hS h'
  | read h' offset size =>
    obtain ⟨r', -, h⟩ := map_eq_some_iff.mp h
    cases h
    exact .refl hS rfl
  | write h' offset buf memory => exact kept_write hS h
  | mkdir path => exact kept_mkdir hS h
  | del path => exact kept_del hS h
  | rename oldPath newPath => exact kept_rename hS h

end Serve

/-- The requests that have no answer: they use memory that was given back or leave the memory of a
file. -/
def Strays (fs : Ramfs) : Action → Prop
  | .read .. => True
  | .write .. => True
  | .del path => ∃ n, fs.lookupPath path = some (some n) ∧ (fs.nodes n).data = .freed
  | _ => False

theorem strays_of_none (hS : Shape fs Q) (h : serve fs a = none) : Strays fs a := by
  cases a with
  | openFile path flags =>
    obtain ⟨fs₁, r, heq, -⟩ := openFile_spec hS path flags
    rw [serve, heq] at h
    cases h
  | openDir path =>
    obtain ⟨fs₁, r, heq, -⟩ := openDir_spec hS path
    rw [serve, heq] at h
    cases h
  | close _ => cases h
  | read _ _ _ => trivial
  | write _ _ _ _ => trivial
  | mkdir path =>
    obtain ⟨fs₁, r, heq, -⟩ := mkdir_spec hS path
    rw [serve, heq] at h
    cases h
  | del path =>
    rcases del_spec hS path with ⟨-, n, hn, hfreed⟩ | ⟨fs₁, r, heq, -⟩
    · exact ⟨n, by rw [lookupPath_eq hS.linked, hn], hfreed⟩
    · rw [serve, heq] at h
      cases h
  | rename oldPath newPath =>
    obtain ⟨fs₁, r, heq, -⟩ := rename_spec hS oldPath newPath
    rw [serve, heq] at h
    cases h

theorem shape_reached (h : Reach step (· = init) (fun s a => NotBelow s.fs a) s) :
    ∃ Q, Shape s.fs Q ∧ Reached s.fs Q := by
  refine h.invariant (P := fun s => ∃ Q, Shape s.fs Q ∧ Reached s.fs Q) ?_
    fun s a s' ⟨Q, hS, hR⟩ hok hstep => ?_
  · rintro s rfl
    exact ⟨_, Shape.init, Reached.init⟩
  · obtain ⟨fs, r, hserve, rfl⟩ := step_eq_some.mp hstep
    obtain ⟨Q', hS', hR'⟩ := (kept_serve hS hserve).shape
    exact ⟨Q', hS', hR' hR hok⟩

/-- Where no directory is moved below itself, the nodes form a tree after every run, and only
requests on contents can be without an answer. -/
theorem namespace_is_tree (h : Lib.Reach step (· = init) (fun s a => NotBelow s.fs a) s) :
    IsTree s.fs ∧ ∀ a, serve s.fs a = none → Strays s.fs a := by
  obtain ⟨Q, hS, hR⟩ := shape_reached h
  exact ⟨hS.isTree hR, fun a => strays_of_none hS⟩

theorem not_below_of_leaf (hhead : fs.links.head n = none) (hne : n ≠ p) :
    ¬ ReflTransGen (Child fs) n p := by
  intro h
  rcases ReflTransGen.cases_head h with heq | ⟨c, hc, -⟩
  · exact hne heq
  · rw [Child, hhead] at hc
    cases hc

theorem namespace_is_tree_moved :
    ∃ s s', Lib.run step init [.mkdir [47, 97], .mkdir [47, 98]] = some s ∧
    NotBelow s.fs (.rename [47, 97] [47, 98, 47, 99]) ∧
    step s (.rename [47, 97] [47, 98, 47, 99]) = some s' ∧ IsTree s'.fs := by
  obtain ⟨s, hs⟩ : ∃ s, run step init [.mkdir [47, 97], .mkdir [47, 98]] = some s :=
    isSome_iff_exists.mp (by decide)
  have hfacts : (run step init [.mkdir [47, 97], .mkdir [47, 98]]).map (fun s =>
      (s.fs.links.head 1, s.fs.lookupPath [47, 97])) = some (none, some (some 1)) := by decide
  have hparent : (run step init [.mkdir [47, 97], .mkdir [47, 98]]).bind (fun s =>
      s.fs.lookupParent [47, 98, 47, 99]) = some (some (2, [99])) := by decide
  have hmove : ((run step init [.mkdir [47, 97], .mkdir [47, 98]]).bind
      (step · (.rename [47, 97] [47, 98, 47, 99]))).isSome := by decide +kernel
  rw [hs] at hfacts hparent hmove
  simp only [map_some, some.injEq, Prod.mk.injEq] at hfacts
  obtain ⟨hleaf, hold⟩ := hfacts
  rw [bind_some] at hparent
  obtain ⟨s', hs'⟩ := isSome_iff_exists.mp hmove
  have hok : NotBelow s.fs (.rename [47, 97] [47, 98, 47, 99]) := by
    intro n p name hn _ _ hentry
    rw [hold] at hn
    cases hn
    rw [newEntry, hparent, map_some, some.injEq] at hentry
    dsimp only at hentry
    split at hentry
    · cases hentry
    · split at hentry
      · cases hentry
      · cases hentry
        exact not_below_of_leaf hleaf (by decide)
  have hstart : Reach step (· = init) (fun s a => NotBelow s.fs a) init := .init rfl
  have hreach := Reach.of_run _ hstart (fun t a ha => by
    rcases List.mem_pair.mp ha with rfl | rfl <;> trivial) hs
  exact ⟨s, s', hs, hok, hs', (namespace_is_tree (.next hreach hok hs')).1⟩

/-- `/a` moved below itself is lost. -/
theorem directory_lost :
    ∃ s, Lib.run step init [.mkdir [47, 97], .rename [47, 97] [47, 97, 47, 98]] = some s ∧
    ¬ IsTree s.fs := by
  obtain ⟨s, hs⟩ :
    ∃ s, run step init [.mkdir [47, 97], .rename [47, 97] [47, 97, 47, 98]] = some s :=
    isSome_iff_exists.mp (by decide)
  have hfacts : (run step init [.mkdir [47, 97], .rename [47, 97] [47, 97, 47, 98]]).map
      (fun s => (s.fs.links.head root, (s.fs.nodes 1).inUse)) = some (none, true) := by decide
  rw [hs, map_some, some.injEq, Prod.mk.injEq] at hfacts
  refine ⟨s, hs, fun htree => ?_⟩
  obtain ⟨l, hl, -⟩ := htree.reached 1 hfacts.2
  exact not_below_of_leaf hfacts.1 (by decide) hl.reached

/-- No handle is open on the node that a delete frees. -/
def NotOpen (fs : Ramfs) (a : Action) : Prop :=
  ∀ n ∈ freedBy fs a, ∀ h < ramfsMaxHandles, (fs.handles h).inUse = true → (fs.handles h).node ≠ n

instance (fs : Ramfs) (a : Action) : Decidable (NotOpen fs a) :=
  inferInstanceAs (Decidable (∀ n ∈ freedBy fs a, _))

/-- The handles are open on the files they were opened on, and the stamps tell the files apart. -/
structure HandlesOk (s : RamSys) : Prop where
  lt : ∀ h, (s.fs.handles h).inUse = true → h < ramfsMaxHandles
  handle : ∀ h, (s.fs.handles h).inUse = true → (s.fs.nodes (s.fs.handles h).node).inUse = true ∧
    s.stamp (s.fs.handles h).node = s.opened h
  unique : ∀ n m, (s.fs.nodes n).inUse = true → (s.fs.nodes m).inUse = true →
    s.stamp n = s.stamp m → n = m
  past : ∀ n, (s.fs.nodes n).inUse = true → s.stamp n < s.clock

theorem stamp_after (hn : (s.fs.nodes n).inUse = true) : (s.after a fs r).stamp n = s.stamp n := by
  simp [after, hn]

theorem stamp_after_new (hn : (s.fs.nodes n).inUse = false) (hn' : (fs.nodes n).inUse = true) :
    (s.after a fs r).stamp n = s.clock := by
  simp [after, hn, hn']

theorem HandlesOk.after (hs : HandlesOk s) (hE : Effect s.fs fs (freedBy s.fs a))
    (hok : NotOpen s.fs a) : HandlesOk (s.after a fs r) where
  lt h hh := by
    rcases hE.slot h hh with heq | ⟨-, hlt, -⟩
    · change (fs.handles h).inUse = true at hh
      exact hs.lt h (heq ▸ hh)
    · exact hlt
  handle h hh := by
    change (fs.handles h).inUse = true at hh
    change (fs.nodes (fs.handles h).node).inUse = true ∧
      (s.after a fs r).stamp (fs.handles h).node = _
    rcases hE.slot h hh with heq | ⟨hfree, -, huse⟩
    · rw [heq] at hh ⊢
      obtain ⟨huse, hstamp⟩ := hs.handle h hh
      refine ⟨(hE.kept _ huse).resolve_right fun hgone => hok _ hgone h (hs.lt h hh) hh rfl, ?_⟩
      rw [stamp_after huse, hstamp]
      simp [RamSys.after, hh]
    · refine ⟨huse, ?_⟩
      simp [RamSys.after, hh, hfree]
  unique n m hn hm heq := by
    change (fs.nodes n).inUse = true at hn
    change (fs.nodes m).inUse = true at hm
    rcases hn0 : (s.fs.nodes n).inUse with _ | _
    · rw [stamp_after_new hn0 hn] at heq
      rcases hm0 : (s.fs.nodes m).inUse with _ | _
      · exact hE.one n m hn hn0 hm hm0
      · rw [stamp_after hm0] at heq
        exact absurd heq (hs.past m hm0).ne'
    · rw [stamp_after hn0] at heq
      rcases hm0 : (s.fs.nodes m).inUse with _ | _
      · rw [stamp_after_new hm0 hm] at heq
        exact absurd heq (hs.past n hn0).ne
      · rw [stamp_after hm0] at heq
        exact hs.unique n m hn0 hm0 heq
  past n hn := by
    change (fs.nodes n).inUse = true at hn
    rcases hn0 : (s.fs.nodes n).inUse with _ | _
    · rw [stamp_after_new hn0 hn]
      exact Nat.lt_succ_self _
    · rw [stamp_after hn0]
      exact Nat.lt_succ_of_lt (hs.past n hn0)

theorem HandlesOk.init : HandlesOk init where
  lt := nofun
  handle := nofun
  unique _ _ hn hm _ := (init_inUse_iff.mp hn).trans (init_inUse_iff.mp hm).symm
  past _ _ := Nat.zero_lt_one

theorem shape_handlesOk {ok : RamSys → Action → Prop} (hok : ∀ s a, ok s a → NotOpen s.fs a)
    (h : Reach step (· = init) ok s) : (∃ Q, Shape s.fs Q) ∧ HandlesOk s := by
  refine h.invariant (P := fun s => (∃ Q, Shape s.fs Q) ∧ HandlesOk s) ?_
    fun s a s' ⟨⟨Q, hS⟩, hs⟩ ha hstep => ?_
  · rintro s rfl
    exact ⟨⟨_, Shape.init⟩, .init⟩
  · obtain ⟨fs, r, hserve, rfl⟩ := step_eq_some.mp hstep
    have hK := kept_serve hS hserve
    obtain ⟨Q', hS', -⟩ := hK.shape
    exact ⟨⟨Q', hS'⟩, hs.after hK.effect (hok s a ha)⟩

theorem getHandle_eq_some {h : ℕ} (hn : fs.getHandle h = some n) :
    (fs.handles h).inUse = true ∧ (fs.handles h).node = n := by
  unfold getHandle at hn
  split at hn
  · cases hn
  · rename_i hh
    rw [not_or, Bool.not_eq_false] at hh
    exact ⟨hh.2, some.inj hn⟩

end RamSys

end Xnix
