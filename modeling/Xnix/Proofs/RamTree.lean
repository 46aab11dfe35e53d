import Xnix.Lib.Paths
import Xnix.Lib.Tree
import Xnix.Ramfs

/-!
# The names of the file system form a tree

`Shape` says what holds whatever is asked of the file system: the links spell out a list of children
for each node, the parents agree with the lists, and the names in one list differ. That every node
is reached from the root needs one thing more: `ramfs_rename` must not move a directory below
itself.
-/

namespace Xnix

namespace Ramfs

open Relation List Option Lib

variable {fs fs' : Ramfs} {Q Q' : NodeId → List NodeId} {n m p q c : NodeId} {name path : CString}

def Child (fs : Ramfs) (p c : NodeId) : Prop := Lib.Meets fs.links.next c (fs.links.head p)

/-- The nodes form a tree under the root. -/
structure IsTree (fs : Ramfs) : Prop where
  ends : ∀ p, ∃ l, Lib.Chain fs.links.next (fs.links.head p) l
  reached : ∀ n, (fs.nodes n).inUse = true → ∃! l, Lib.Trail (Child fs) root l n
  parent : ∀ p c, Child fs p c ↔ (fs.nodes c).inUse = true ∧ (fs.nodes c).parent = some p
  acyclic : ∀ n, ¬ TransGen (Child fs) n n
  name : ∀ p c, Child fs p c → (fs.nodes c).name ≠ [] ∧ slash ∉ (fs.nodes c).name
  distinct : ∀ p c c', Child fs p c → Child fs p c' →
    (fs.nodes c).name = (fs.nodes c').name → c = c'
  dir : ∀ p c, Child fs p c → (fs.nodes p).type = .dir

/-- The lists of children, whether or not they hang together. -/
structure Shape (fs : Ramfs) (Q : NodeId → List NodeId) : Prop where
  linked : Lib.Linked fs.links Q
  mem_iff : ∀ p c, c ∈ Q p ↔ (fs.nodes c).inUse = true ∧ (fs.nodes c).parent = some p
  root : (fs.nodes root).inUse = true ∧ (fs.nodes root).type = .dir ∧ (fs.nodes root).parent = none
  dir : ∀ p c, c ∈ Q p → (fs.nodes p).inUse = true ∧ (fs.nodes p).type = .dir
  name : ∀ p c, c ∈ Q p → (fs.nodes c).name ≠ [] ∧ slash ∉ (fs.nodes c).name
  distinct : ∀ p c c', c ∈ Q p → c' ∈ Q p → (fs.nodes c).name = (fs.nodes c').name → c = c'

def Reached (fs : Ramfs) (Q : NodeId → List NodeId) : Prop :=
  ∀ n, (fs.nodes n).inUse = true → ReflTransGen (fun p c => c ∈ Q p) root n

section Shape

section
variable (hS : Shape fs Q)
include hS

theorem Shape.child_iff : Child fs p c ↔ c ∈ Q p := (hS.linked.chain p).meets_iff

theorem Shape.inUse (hc : c ∈ Q p) : (fs.nodes c).inUse = true := ((hS.mem_iff p c).mp hc).1

theorem Shape.root_notMem : Ramfs.root ∉ Q p := fun h => by
  have hp := ((hS.mem_iff p Ramfs.root).mp h).2
  rw [hS.root.2.2] at hp
  cases hp

theorem Shape.notMem (hn : (fs.nodes n).inUse = false) : n ∉ Q p := fun h => by
  rw [hS.inUse h] at hn
  cases hn

theorem Shape.nil (hn : (fs.nodes n).inUse = false) : Q n = [] :=
    eq_nil_iff_forall_not_mem.mpr fun c hc => by
    rw [(hS.dir n c hc).1] at hn
    cases hn

theorem Shape.isTree (hR : Reached fs Q) : IsTree fs := by
  have hchild : Child fs = fun p c => c ∈ Q p := by
    funext p c
    exact propext hS.child_iff
  have hone : ∀ p q c, c ∈ Q p → c ∈ Q q → p = q := fun p q c => hS.linked.apart p q c
  refine ⟨fun p => ⟨Q p, hS.linked.chain p⟩, fun n hn => ?_, fun p c => ?_, fun n hcyc => ?_,
    fun p c hc => ?_, fun p c c' hc hc' => ?_, fun p c hc => ?_⟩
  · rw [hchild]
    exact existsUnique_trail hone (fun p => hS.root_notMem) (hR n hn)
  · rw [hS.child_iff, hS.mem_iff]
  · rw [hchild] at hcyc
    obtain ⟨c, hc, -⟩ := TransGen.head'_iff.mp hcyc
    exact acyclic_of_reached hone (fun p => hS.root_notMem) (hR n (hS.dir n c hc).1) hcyc
  · exact hS.name p c (hS.child_iff.mp hc)
  · exact hS.distinct p c c' (hS.child_iff.mp hc) (hS.child_iff.mp hc')
  · exact (hS.dir p c (hS.child_iff.mp hc)).2

end

theorem init_inUse_iff : (init.nodes n).inUse = true ↔ n = root := by
  simp only [init, Function.update_apply]
  split <;> simp_all [RamNode.zero]

theorem Shape.init : Shape init fun _ => [] where
  linked := ⟨fun _ => .nil, nofun⟩
  mem_iff p c := by
    refine ⟨nofun, fun ⟨hu, hp⟩ => ?_⟩
    rw [init_inUse_iff.mp hu] at hp
    cases hp
  root := ⟨rfl, rfl, rfl⟩
  dir := nofun
  name := nofun
  distinct := nofun

theorem Reached.init : Reached init fun _ => [] := fun n hn => by
  rw [init_inUse_iff.mp hn]

theorem Shape.congr (hS : Shape fs Q) (hlinks : fs'.links = fs.links)
    (hnodes : ∀ c, ((fs'.nodes c).name, (fs'.nodes c).type, (fs'.nodes c).parent,
    (fs'.nodes c).inUse) =
      ((fs.nodes c).name, (fs.nodes c).type, (fs.nodes c).parent, (fs.nodes c).inUse)) :
      Shape fs' Q := by
  have hname : ∀ c, (fs'.nodes c).name = (fs.nodes c).name := fun c => congrArg (·.1) (hnodes c)
  have htype : ∀ c, (fs'.nodes c).type = (fs.nodes c).type := fun c => congrArg (·.2.1) (hnodes c)
  have hparent : ∀ c, (fs'.nodes c).parent = (fs.nodes c).parent :=
    fun c => congrArg (·.2.2.1) (hnodes c)
  have huse : ∀ c, (fs'.nodes c).inUse = (fs.nodes c).inUse :=
    fun c => congrArg (·.2.2.2) (hnodes c)
  obtain ⟨hL, hmem, hroot, hdir, hnm, hdis⟩ := hS
  refine ⟨by rwa [hlinks], ?_, ?_, ?_, ?_, ?_⟩ <;> simpa only [hname, htype, hparent, huse]

variable (hS : Shape fs Q) (hL : Lib.Linked fs'.links Q')
  (hmem : ∀ q c, c ≠ n → (c ∈ Q' q ↔ c ∈ Q q))
include hS hL hmem

theorem Shape.place (hn : ∀ q, n ∈ Q' q ↔ q = p) (hnodes : ∀ c, c ≠ n → fs'.nodes c = fs.nodes c)
    (hroot : n ≠ Ramfs.root) (hnode : (fs'.nodes n).inUse = true ∧ (fs'.nodes n).parent = some p)
    (hdir : ∀ c ∈ Q n, (fs'.nodes n).type = .dir)
    (hp : (fs'.nodes p).inUse = true ∧ (fs'.nodes p).type = .dir)
    (hname : (fs'.nodes n).name ≠ [] ∧ slash ∉ (fs'.nodes n).name)
    (hfresh : ∀ c ∈ Q p, c ≠ n → (fs.nodes c).name ≠ (fs'.nodes n).name) : Shape fs' Q' where
  linked := hL
  mem_iff q c := by
    by_cases hc : c = n
    · subst hc
      rw [hn, hnode.2]
      exact ⟨fun h => ⟨hnode.1, h ▸ rfl⟩, fun h => (some.inj h.2).symm⟩
    · rw [hmem q c hc, hS.mem_iff, hnodes c hc]
  root := by
    rw [hnodes _ hroot.symm]
    exact hS.root
  dir q c hc := by
    by_cases hcn : c = n
    · subst hcn
      rw [(hn q).mp hc]
      exact hp
    · rw [hmem q c hcn] at hc
      by_cases hq : q = n
      · subst hq
        exact ⟨hnode.1, hdir c hc⟩
      · rw [hnodes q hq]
        exact hS.dir q c hc
  name q c hc := by
    by_cases hcn : c = n
    · rw [hcn]
      exact hname
    · rw [hnodes c hcn]
      exact hS.name q c ((hmem q c hcn).mp hc)
  distinct q c c' hc hc' heq := by
    by_cases hcn : c = n
    · by_cases hcn' : c' = n
      · rw [hcn, hcn']
      · subst hcn
        rw [hmem q c' hcn', (hn q).mp hc] at hc'
        rw [hnodes c' hcn'] at heq
        exact absurd heq.symm (hfresh c' hc' hcn')
    · rw [hnodes c hcn] at heq
      by_cases hcn' : c' = n
      · subst hcn'
        rw [hmem q c hcn, (hn q).mp hc'] at hc
        exact absurd heq (hfresh c hc hcn)
      · rw [hnodes c' hcn'] at heq
        exact hS.distinct q c c' ((hmem q c hcn).mp hc) ((hmem q c' hcn').mp hc') heq

theorem Shape.drop (hn : ∀ q, n ∉ Q' q) (hnodes : ∀ c, c ≠ n → fs'.nodes c = fs.nodes c)
    (hroot : n ≠ Ramfs.root) (hnode : (fs'.nodes n).inUse = false) (hleaf : Q n = []) :
    Shape fs' Q' := by
  have hne : ∀ q c, c ∈ Q' q → c ≠ n := fun q c hc heq => hn q (heq ▸ hc)
  refine ⟨hL, fun q c => ?_, ?_, fun q c hc => ?_, fun q c hc => ?_, fun q c c' hc hc' heq => ?_⟩
  · by_cases hc : c = n
    · subst hc
      exact ⟨fun h => absurd h (hn q), fun h => by rw [hnode] at h; cases h.1⟩
    · rw [hmem q c hc, hS.mem_iff, hnodes c hc]
  · rw [hnodes _ hroot.symm]
    exact hS.root
  · have hc' := (hmem q c (hne q c hc)).mp hc
    have hq : q ≠ n := fun heq => by rw [heq, hleaf] at hc'; cases hc'
    rw [hnodes q hq]
    exact hS.dir q c hc'
  · rw [hnodes c (hne q c hc)]
    exact hS.name q c ((hmem q c (hne q c hc)).mp hc)
  · rw [hnodes c (hne q c hc), hnodes c' (hne q c' hc')] at heq
    exact hS.distinct q c c' ((hmem q c (hne q c hc)).mp hc) ((hmem q c' (hne q c' hc')).mp hc') heq

end Shape

def descend (fs : Ramfs) (Q : NodeId → List NodeId) : NodeId → List CString → Option NodeId
  | n, [] => some n
  | n, name :: names =>
    if (fs.nodes n).type ≠ .dir then none
    else ((Q n).find? fun c => (fs.nodes c).name = name).bind fun c => descend fs Q c names

theorem descend_append : ∀ (names names' : List CString) (n : NodeId),
    descend fs Q n (names ++ names') = (descend fs Q n names).bind fun m => descend fs Q m names'
  | [], _, _ => rfl
  | name :: names, names', n => by
    simp only [cons_append, descend]
    split
    · rfl
    · rw [bind_assoc]
      congr 1
      funext c
      exact descend_append names names' c

theorem descend_mem :
    ∀ {names : List CString} {n m : NodeId}, descend fs Q n names = some m → m = n ∨ ∃ p, m ∈ Q p
  | [], _, _, h => .inl (some.inj h).symm
  | name :: names, n, m, h => by
    simp only [descend] at h
    split at h
    · cases h
    · obtain ⟨c, hc, h⟩ := bind_eq_some_iff.mp h
      rcases descend_mem h with rfl | hm
      · exact .inr ⟨n, mem_of_find?_eq_some hc⟩
      · exact .inr hm

theorem findChild_eq : ∀ {l : List NodeId} {left : ℕ} {h : Option NodeId}, Chain fs.links.next h l →
    l.length ≤ left → findChild fs name left h = some (l.find? fun c => (fs.nodes c).name = name)
  | _, 0, _, .nil, _ => rfl
  | _, _ + 1, _, .nil, _ => rfl
  | _, left + 1, _, .cons (t := t) hl, hlen => by
    rw [findChild, find?_cons]
    by_cases hc : (fs.nodes t).name = name
    · rw [if_pos hc, decide_eq_true hc]
    · rw [if_neg hc, decide_eq_false hc]
      exact findChild_eq hl (by simpa using hlen)

theorem lookupFrom_eq (hL : Linked fs.links Q) : ∀ {left : ℕ} {p : CString} {n : NodeId},
    p.length < left → lookupFrom fs left n p = some (descend fs Q n (components slash p))
  | 0, _, _, h => by omega
  | left + 1, p, n, h => by
    have hfind (name : CString) : findChild fs name ramfsMaxNodes (fs.links.head n) =
        some ((Q n).find? fun c => (fs.nodes c).name = name) :=
      findChild_eq (hL.chain n) (by simpa using (hL.chain n).length_le_card)
    rw [lookupFrom]
    by_cases hp : p = []
    · rw [if_pos hp, hp]
      rfl
    · have hlen : (p.dropWhile (· ≠ slash)).tail.length < left := by
        have hd := (p.dropWhile_suffix (· ≠ slash)).length_le
        have := length_pos_iff.mpr hp
        rw [length_tail]
        omega
      rw [if_neg hp, components_eq_takeWhile]
      by_cases hname : p.takeWhile (· ≠ slash) = []
      · rw [if_pos hname, if_pos hname]
        exact lookupFrom_eq hL hlen
      · rw [if_neg hname, if_neg hname, singleton_append, descend]
        by_cases hdir : (fs.nodes n).type ≠ .dir
        · rw [if_pos hdir, if_pos hdir]
        · rw [if_neg hdir, if_neg hdir, hfind]
          rcases (Q n).find? fun c => (fs.nodes c).name = p.takeWhile (· ≠ slash) with _ | c
          · rfl
          · exact lookupFrom_eq hL hlen

def resolve (fs : Ramfs) (Q : NodeId → List NodeId) (path : CString) : Option NodeId :=
  if path.head? = some slash then descend fs Q root (Lib.components slash path) else none

theorem lookupPath_eq (hL : Linked fs.links Q) (path : CString) :
    lookupPath fs path = some (resolve fs Q path) := by
  rcases path with _ | ⟨c, p⟩
  · rfl
  · rw [lookupPath, resolve, head?_cons]
    by_cases hc : c = slash
    · subst hc
      by_cases hp : p = []
      · rw [if_pos hp, hp]
        rfl
      · rw [if_neg hp]
        exact lookupFrom_eq hL (Nat.lt_succ_self _)
    · rw [if_pos hc, if_neg (by simpa using hc)]

theorem resolve_mem (h : resolve fs Q path = some n) : n = root ∨ ∃ p, n ∈ Q p := by
  unfold resolve at h
  split at h
  · exact descend_mem h
  · cases h

theorem Shape.inUse_of (hS : Shape fs Q) (h : n = Ramfs.root ∨ ∃ p, n ∈ Q p) :
    (fs.nodes n).inUse = true := by
  rcases h with rfl | ⟨p, hp⟩
  · exact hS.root.1
  · exact hS.inUse hp

theorem lookupParent_spec (hL : Linked fs.links Q)
    (h : lookupParent fs path = some (some (p, name))) :
    resolve fs Q path = descend fs Q p (components slash name) ∧ slash ∉ name ∧
    (p = root ∨ ∃ q, p ∈ Q q) := by
  unfold lookupParent at h
  split at h
  · cases h
  · rename_i hpath
    rw [not_or, not_not] at hpath
    have hcut := eq_append_rtakeWhile (mem_of_mem_head? hpath.1)
    have hparts : components slash path = components slash (path.rdropWhile (· ≠ slash)).dropLast ++
          components slash (path.rtakeWhile (· ≠ slash)) := by
      conv_lhs => rw [hcut]
      exact components_append_cons ..
    dsimp only at h
    rw [resolve, if_pos hpath.1, hparts, descend_append]
    split at h
    · rename_i hnil
      obtain ⟨rfl, rfl⟩ := h
      rw [hnil]
      exact ⟨rfl, notMem_rtakeWhile, .inl rfl⟩
    · rename_i hne
      split at h
      · cases h
      · rw [lookupPath_eq hL] at h
        simp only [map_some, some.injEq, map_eq_some_iff, Prod.mk.injEq] at h
        obtain ⟨n, hn, rfl, rfl⟩ := h
        have hmem := resolve_mem hn
        unfold resolve at hn
        split at hn
        · rw [hn]
          exact ⟨rfl, notMem_rtakeWhile, hmem⟩
        · cases hn

theorem lookupParent_isSome (hL : Linked fs.links Q) (path : CString) :
    ∃ e, lookupParent fs path = some e := by
  unfold lookupParent
  split
  · exact ⟨_, rfl⟩
  · dsimp only
    split
    · exact ⟨_, rfl⟩
    · split
      · exact ⟨_, rfl⟩
      · rw [lookupPath_eq hL]
        exact ⟨_, rfl⟩

theorem newEntry_isSome (hL : Linked fs.links Q) (path : CString) :
    (∃ e < 0, newEntry fs path = some (.error e)) ∨ ∃ p name,
    newEntry fs path = some (.ok (p, name)) := by
  obtain ⟨found, hfound⟩ := lookupParent_isSome hL path
  rw [newEntry, hfound, map_some]
  rcases found with _ | ⟨p, name⟩
  · exact .inl ⟨-eNoEnt, by decide, rfl⟩
  · dsimp only
    split
    · exact .inl ⟨-eNoEnt, by decide, rfl⟩
    · split
      · exact .inl ⟨-eNameTooLong, by decide, rfl⟩
      · exact .inr ⟨p, name, rfl⟩

structure Entry (fs : Ramfs) (Q : NodeId → List NodeId) (p : NodeId) (name : CString) : Prop where
  dir : (fs.nodes p).inUse = true ∧ (fs.nodes p).type = .dir
  named : name ≠ [] ∧ slash ∉ name
  fresh : ∀ c ∈ Q p, (fs.nodes c).name ≠ name

theorem Shape.entry (hS : Shape fs Q) (hnone : resolve fs Q path = none)
    (h : newEntry fs path = some (.ok (p, name))) : Entry fs Q p name := by
  rw [newEntry, map_eq_some_iff] at h
  obtain ⟨found, hfound, h⟩ := h
  rcases found with _ | ⟨q, name'⟩
  · cases h
  · dsimp only at h
    split at h
    · cases h
    · rename_i hdir
      rw [not_not] at hdir
      split at h
      · cases h
      · simp only [Except.ok.injEq, Prod.mk.injEq] at h
        obtain ⟨rfl, rfl⟩ := h
        obtain ⟨hres, hslash, hmem⟩ := lookupParent_spec hS.linked hfound
        rw [hnone] at hres
        have hne : name' ≠ [] := by
          rintro rfl
          cases hres
        rw [components_of_notMem hslash hne, descend, if_neg (not_not.mpr hdir)] at hres
        have hfind : (Q q).find? (fun c => (fs.nodes c).name = name') = none := by
          rcases hf : (Q q).find? fun c => (fs.nodes c).name = name' with _ | c
          · rfl
          · rw [hf] at hres
            cases hres
        exact ⟨⟨hS.inUse_of hmem, hdir⟩, ⟨hne, hslash⟩,
          fun c hc => by simpa using find?_eq_none.mp hfind c hc⟩

end Ramfs

end Xnix
