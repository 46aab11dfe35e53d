import Mathlib.Data.List.GetD
import Xnix.Lib.Dag
import Xnix.SvcGraph

/-!
# Dependencies of services and the search for cycles

The first part of `svc_build_dependency_graph` fails exactly when a dependency names no service
(`named`). The depth-first search keeps the services that it is below of on `path`, a chain of
dependencies; those that it has left are closed under dependency and on no cycle (`Exploring`).
-/

namespace Xnix

open Function List Lib

open Relation

namespace SvcManager

variable {mgr mgr' : SvcManager} {i j idx : ℕ} {node : SvcGraphNode} {name : CString}
  {type : DepType}

/-- The service `i` names `j` as a dependency. -/
def DependsOn (mgr : SvcManager) (i j : ℕ) : Prop :=
  i < mgr.count ∧ ∃ name ∈ (mgr.config i).after ++ (mgr.config i).ready,
    mgr.findByName name = some j

/-- Every dependency names a configured service. -/
def AllNamed (mgr : SvcManager) : Prop :=
  ∀ cfg ∈ mgr.configs, ∀ name ∈ cfg.after ++ cfg.ready, ∃ other ∈ mgr.configs, other.name = name

@[simp] theorem setNode_self : (mgr.setNode i node).graph i = node := update_self _ _ _

theorem setNode_of_ne (h : j ≠ i) : (mgr.setNode i node).graph j = mgr.graph j := update_of_ne h _ _

@[simp] theorem setNode_count : (mgr.setNode i node).count = mgr.count := rfl

theorem config_mem (h : i < mgr.count) : mgr.config i ∈ mgr.configs := by
  unfold config
  rw [getD_eq_getElem _ _ h]
  exact getElem_mem h

theorem exists_config {cfg : SvcConfig} (h : cfg ∈ mgr.configs) :
    ∃ i < mgr.count, mgr.config i = cfg := by
  obtain ⟨i, hi, rfl⟩ := mem_iff_getElem.mp h
  exact ⟨i, hi, getD_eq_getElem _ _ hi⟩

theorem lt_of_findByName (h : mgr.findByName name = some j) : j < mgr.count :=
    (findIdx?_eq_some_iff_getElem.mp h).1

theorem findByName_ne_none_iff :
    mgr.findByName name ≠ none ↔ ∃ cfg ∈ mgr.configs, cfg.name = name := by
  rw [Ne, findByName, findIdx?_eq_none_iff]
  simp

def resolve (mgr : SvcManager) (type : DepType) (name : CString) : SvcDependency :=
  ⟨(mgr.findByName name).getD 0, type, name⟩

def resolved (mgr : SvcManager) (i : ℕ) : List SvcDependency :=
  (mgr.config i).after.map (mgr.resolve .after) ++ (mgr.config i).ready.map (mgr.resolve .requires)

def Known (mgr : SvcManager) (i : ℕ) : Prop :=
  ∀ name ∈ (mgr.config i).after ++ (mgr.config i).ready, mgr.findByName name ≠ none

theorem allNamed_iff : mgr.AllNamed ↔ ∀ i < mgr.count, mgr.Known i := by
  constructor
  · intro h i hi name hname
    exact findByName_ne_none_iff.mpr (h _ (config_mem hi) name hname)
  · intro h cfg hcfg name hname
    obtain ⟨i, hi, rfl⟩ := exists_config hcfg
    exact findByName_ne_none_iff.mp (h i hi name hname)

theorem mem_resolved_iff (hi : i < mgr.count) (h : mgr.Known i) :
    j ∈ (mgr.resolved i).map (·.targetIdx) ↔ mgr.DependsOn i j := by
  have hmap : (mgr.resolved i).map (·.targetIdx) =
      ((mgr.config i).after ++ (mgr.config i).ready).map fun name =>
      (mgr.findByName name).getD 0 := by
    simp [resolved, resolve, comp_def]
  rw [hmap, mem_map]
  refine ⟨fun ⟨name, hname, heq⟩ => ⟨hi, name, hname, ?_⟩,
    fun ⟨_, name, hname, heq⟩ => ⟨name, hname, ?_⟩⟩
  · obtain ⟨k, hk⟩ := Option.ne_none_iff_exists'.mp (h name hname)
    rw [hk] at heq ⊢
    exact congrArg some heq
  · rw [heq, Option.getD_some]

theorem forEach_addDep (i : ℕ) (type : DepType) : ∀ (names : List CString) (mgr : SvcManager),
    (mgr.graph i).deps.length + names.length ≤ svcDepsMax * 3 →
    Ends (forEach (addDep i type) names mgr) (fun _ => ∃ name ∈ names, mgr.findByName name = none)
      fun mgr' => (∀ name ∈ names, mgr.findByName name ≠ none) ∧
        mgr' = mgr.setNode i
        { mgr.graph i with deps := (mgr.graph i).deps ++ names.map (mgr.resolve type) }
  | [], mgr, _ => by
    refine .ok ⟨fun _ h => absurd h (not_mem_nil), ?_⟩
    simp [setNode]
  | name :: names, mgr, hroom => by
    rw [length_cons] at hroom
    rw [forEach, addDep]
    rcases hfind : mgr.findByName name with _ | depIdx
    · exact .error ⟨name, mem_cons_self, hfind⟩
    · dsimp only
      rw [if_neg (by omega), andThen_ok]
      refine (forEach_addDep i type names _ ?_).imp ?_ ?_
      · rw [setNode_self]
        simp only [length_append, length_cons, length_nil]
        omega
      · rintro _ ⟨other, hmem, hnone⟩
        exact ⟨other, mem_cons_of_mem _ hmem, hnone⟩
      · rintro _ ⟨hall, rfl⟩
        refine ⟨fun other hother => ?_, ?_⟩
        · rcases mem_cons.mp hother with rfl | hother
          · rw [hfind]
            exact Option.some_ne_none _
          · exact hall other hother
        · have hresolve : mgr.resolve type name =
            ⟨depIdx, type, name⟩ := by rw [resolve, hfind, Option.getD_some]
          rw [setNode_self, map_cons, hresolve, append_assoc, singleton_append]
          unfold setNode
          rw [update_idem]
          rfl

/-- The graph when the dependencies of the first `n` services are in. -/
def named (mgr : SvcManager) (n : ℕ) : SvcManager :=
  { mgr with graph := fun i =>
      if i < mgr.count then ⟨if i < n then mgr.resolved i else [], 0, 0, false, false⟩
      else mgr.graph i }

theorem named_zero : mgr.named 0 = mgr.clearGraph := by
  simp [named, clearGraph]

theorem named_succ (hi : i < mgr.count) :
    (mgr.named i).setNode i { (mgr.named i).graph i with deps := mgr.resolved i } =
    mgr.named (i + 1) := by
  unfold setNode named
  congr 1
  funext j
  by_cases hj : j = i
  · subst hj
    simp [hi]
  · have : j < i ↔ j < i + 1 := by omega
    simp [update_of_ne hj, this]

theorem addDeps_spec (hi : i < mgr.count) :
    Ends (addDeps i (mgr.named i)) (fun _ => ¬ mgr.Known i) fun mgr' =>
    mgr.Known i ∧ mgr' = mgr.named (i + 1) := by
  have hempty : ((mgr.named i).graph i).deps = [] := by simp [named, hi]
  have hafter : (mgr.config i).after.length ≤ 8 := (mgr.config i).after_le
  have hready : (mgr.config i).ready.length ≤ 8 := (mgr.config i).ready_le
  have hmax : svcDepsMax * 3 = 24 := rfl
  refine Ends.andThen ((forEach_addDep i .after (mgr.config i).after (mgr.named i) ?_).imp ?_
    fun _ h => h) ?_
  · rw [hempty, length_nil]
    omega
  · rintro _ ⟨name, hname, hnone⟩ hknown
    exact hknown name (mem_append_left _ hname) hnone
  · rintro _ ⟨hall, rfl⟩
    refine (forEach_addDep i .requires (mgr.config i).ready _ ?_).imp ?_ ?_
    · rw [setNode_self]
      simp only [hempty, nil_append, length_map]
      omega
    · rintro _ ⟨name, hname, hnone⟩ hknown
      exact hknown name (mem_append_right _ hname) hnone
    · rintro _ ⟨hall', rfl⟩
      refine ⟨fun name hname => ?_, ?_⟩
      · exact (mem_append.mp hname).elim (hall name) (hall' name)
      · rw [← named_succ hi, setNode_self]
        unfold setNode
        rw [update_idem, hempty]
        rfl

theorem names_spec (mgr : SvcManager) :
    Ends (forEach addDeps (range mgr.count) mgr.clearGraph) (fun _ => ¬ mgr.AllNamed)
      fun mgr' => mgr.AllNamed ∧ mgr' = mgr.named mgr.count := by
  refine (forEach_range (fun i mgr' => (∀ j < i, mgr.Known j) ∧
    mgr' = mgr.named i) (fun _ => ¬ mgr.AllNamed)
    ?_ ⟨fun j hj => absurd hj (Nat.not_lt_zero j), named_zero.symm⟩).imp (fun _ h => h)
    fun _ h => ⟨allNamed_iff.mpr h.1, h.2⟩
  rintro i _ hi ⟨hknown, rfl⟩
  refine (addDeps_spec hi).imp (fun _ h hall => h (allNamed_iff.mp hall i hi)) fun _ h =>
    ⟨fun j hj => ?_, h.2⟩
  rcases Nat.lt_succ_iff_lt_or_eq.mp hj with hj | rfl
  · exact hknown j hj
  · exact h.1

section Cycles

variable {n : ℕ} {r : ℕ → ℕ → Prop} {path : List ℕ}

def Seen (mgr : SvcManager) (i : ℕ) : Prop := i < mgr.count ∧ (mgr.graph i).visited = true

/-- The search is below the services of `path`. `r` is the relation that the dependencies stand
for. -/
structure Exploring (n : ℕ) (r : ℕ → ℕ → Prop) (path : List ℕ) (mgr : SvcManager) : Prop where
  count : mgr.count = n
  edges : ∀ i < n, ∀ j, j ∈ (mgr.graph i).deps.map (·.targetIdx) ↔ r i j
  within : ∀ i j, r i j → j < n
  marked : ∀ i < n, (mgr.graph i).inPath = true ↔ i ∈ path
  nodup : path.Nodup
  lt : ∀ i ∈ path, i < n
  chain : path.IsChain r
  apart : ∀ i ∈ path, ¬ mgr.Seen i
  closed : Lib.Closed r mgr.Seen
  acyclic : ∀ i, mgr.Seen i → ¬ TransGen r i i

theorem Exploring.enter (h : Exploring n r path mgr) (hidx : idx < n) (hnew : idx ∉ path)
    (hseen : ¬ mgr.Seen idx) (hlast : ∀ p ∈ path.getLast?, r p idx) :
    Exploring n r (path ++ [idx]) (mgr.setNode idx { mgr.graph idx with inPath := true }) := by
  have hvisited :
    ∀ i, (mgr.setNode idx { mgr.graph idx with inPath := true }).Seen i ↔ mgr.Seen i := by
    intro i
    unfold Seen
    by_cases hi : i = idx
    · subst hi
      rw [setNode_self, setNode_count]
    · rw [setNode_of_ne hi, setNode_count]
  refine ⟨h.count, fun i hi j => ?_, h.within, fun i hi => ?_, ?_, ?_, ?_, ?_, ?_, ?_⟩
  · rw [← h.edges i hi]
    by_cases hne : i = idx
    · subst hne
      rw [setNode_self]
    · rw [setNode_of_ne hne]
  · by_cases hne : i = idx
    · subst hne
      simp
    · rw [setNode_of_ne hne, h.marked i hi]
      simp [hne]
  · exact nodup_append.mpr ⟨h.nodup, nodup_singleton idx,
      fun a ha b hb heq => hnew (mem_singleton.mp hb ▸ heq ▸ ha)⟩
  · exact fun i hi => (mem_append.mp hi).elim (h.lt i) fun hi => mem_singleton.mp hi ▸ hidx
  · refine isChain_append.mpr ⟨h.chain, isChain_singleton idx, fun p hp q hq => ?_⟩
    obtain rfl : idx = q := by simpa using hq
    exact hlast p hp
  · intro i hi hcontra
    rw [hvisited] at hcontra
    exact (mem_append.mp hi).elim (fun hi => h.apart i hi hcontra)
      fun hi => hseen (mem_singleton.mp hi ▸ hcontra)
  · intro i j hi hij
    rw [hvisited] at hi ⊢
    exact h.closed i j hi hij
  · exact fun i hi => h.acyclic i ((hvisited i).mp hi)

theorem Exploring.leave (h : Exploring n r (path ++ [idx]) mgr)
    (hdeps : ∀ j, r idx j → mgr.Seen j) :
    Exploring n r path
    (mgr.setNode idx { mgr.graph idx with inPath := false, visited := true }) := by
  have hidx : idx < n := h.lt idx (by simp)
  have hout : ¬ mgr.Seen idx := h.apart idx (by simp)
  obtain ⟨hnodup, -, hdisj⟩ := nodup_append.mp h.nodup
  have hnew : idx ∉ path := fun hmem => hdisj idx hmem idx (by simp) rfl
  have hvisited :
    ∀ i, (mgr.setNode idx { mgr.graph idx with inPath := false, visited := true }).Seen i ↔
      i = idx ∨ mgr.Seen i := by
    intro i
    unfold Seen
    by_cases hi : i = idx
    · subst hi
      simp [h.count, hidx]
    · rw [setNode_of_ne hi, setNode_count]
      simp [hi]
  refine ⟨h.count, fun i hi j => ?_, h.within, fun i hi => ?_, hnodup,
    fun i hi => h.lt i (mem_append_left _ hi),
    (isChain_append.mp h.chain).1, fun i hi hseen => ?_, fun i j hi hij => ?_, fun i hi => ?_⟩
  · rw [← h.edges i hi]
    by_cases hne : i = idx
    · subst hne
      rw [setNode_self]
    · rw [setNode_of_ne hne]
  · by_cases hne : i = idx
    · subst hne
      simp [hnew]
    · rw [setNode_of_ne hne, h.marked i hi]
      simp [hne]
  · rcases (hvisited i).mp hseen with rfl | hseen
    · exact hnew hi
    · exact h.apart i (mem_append_left _ hi) hseen
  · refine (hvisited j).mpr (.inr ?_)
    rcases (hvisited i).mp hi with rfl | hi
    · exact hdeps j hij
    · exact h.closed i j hi hij
  · rcases (hvisited i).mp hi with rfl | hi
    · exact h.closed.not_transGen hout hdeps
    · exact h.acyclic i hi

theorem length_lt_of_notMem {l : List ℕ} (hl : ∀ i ∈ l, i < n) (hnodup : l.Nodup) (hidx : idx < n)
    (hnew : idx ∉ l) : l.length < n := by
  have hsub : (idx :: l) ⊆ range n := fun i hi =>
    mem_range.mpr ((mem_cons.mp hi).elim (fun hi => hi ▸ hidx) (hl i))
  have hlen := ((nodup_cons.mpr ⟨hnew, hnodup⟩).subperm hsub).length_le
  rw [length_cons, length_range] at hlen
  exact hlen

theorem Exploring.length_lt (h : Exploring n r path mgr) (hidx : idx < n) (hnew : idx ∉ path) :
    path.length < svcMaxServices :=
  (length_lt_of_notMem h.lt h.nodup hidx hnew).trans_le (h.count ▸ mgr.count_le)

/-- `svc_dfs_cycle_check` has room for its path, finds only real cycles, and has otherwise left the
service when it returns. -/
theorem dfsCycleCheck_spec :
    ∀ (room : ℕ) (path : List ℕ) (idx : ℕ) (mgr : SvcManager), Exploring n r path mgr →
    path.length + room = svcMaxServices → idx < n → (∀ p ∈ path.getLast?, r p idx) →
    Ends (dfsCycleCheck room path idx mgr) (fun _ => ¬ Acyclic r)
      fun mgr' => Exploring n r path mgr' ∧ mgr'.Seen idx ∧ ∀ i, mgr.Seen i → mgr'.Seen i := by
  intro room
  induction room with
  | zero =>
    intro path idx mgr h hroom hidx hlast
    refine .ite (fun hin => .error ?_) fun hin => .ite (fun hseen => .ok ?_) fun hseen => ?_
    · exact fun hacyc => hacyc idx (transGen_of_chain h.chain ((h.marked idx hidx).mp hin) hlast)
    · exact ⟨h, ⟨h.count ▸ hidx, hseen⟩, fun _ hi => hi⟩
    · have := h.length_lt hidx fun hmem => hin ((h.marked idx hidx).mpr hmem)
      omega
  | succ room ih =>
    intro path idx mgr h hroom hidx hlast
    refine .ite (fun hin => .error ?_) fun hin => .ite (fun hseen => .ok ?_) fun hseen => ?_
    · exact fun hacyc => hacyc idx (transGen_of_chain h.chain ((h.marked idx hidx).mp hin) hlast)
    · exact ⟨h, ⟨h.count ▸ hidx, hseen⟩, fun _ hi => hi⟩
    · have hnew : idx ∉ path := fun hmem => hin ((h.marked idx hidx).mpr hmem)
      have henter := h.enter hidx hnew (fun hc => hseen hc.2) hlast
      have hmono : ∀ i, mgr.Seen i →
        (mgr.setNode idx { mgr.graph idx with inPath := true }).Seen i := by
        rintro i ⟨hi, hvisited⟩
        refine ⟨hi, ?_⟩
        by_cases hne : i = idx
        · exact absurd (hne ▸ hvisited) hseen
        · rwa [setNode_of_ne hne]
      refine Ends.andThen (forEach_spec (fun rest mgr' => Exploring n r (path ++ [idx]) mgr' ∧
        (∀ i, mgr.Seen i → mgr'.Seen i) ∧ (∀ dep ∈ rest, r idx dep.targetIdx) ∧
        ∀ j, r idx j → j ∈ rest.map (·.targetIdx) ∨ mgr'.Seen j) _ ?_ _ ⟨henter, hmono, ?_, ?_⟩) ?_
      · rintro dep rest mgr' ⟨hex, hmono, hedges, hleft⟩
        have hdep := hedges dep mem_cons_self
        have hlen : (path ++ [idx]).length + room = svcMaxServices := by
          rw [length_append, length_singleton]
          omega
        refine (ih (path ++ [idx]) dep.targetIdx mgr' hex hlen (h.within _ _ hdep) ?_).imp
          (fun _ hq => hq) ?_
        · intro p hp
          rw [getLast?_concat, Option.mem_some_iff] at hp
          exact hp ▸ hdep
        · rintro mgr'' ⟨hex', hseen', hmono'⟩
          refine ⟨hex', fun i hi => hmono' i (hmono i hi),
            fun dep hdep => hedges dep (mem_cons_of_mem _ hdep), fun j hj => ?_⟩
          rcases hleft j hj with hmem | hj
          · rw [map_cons, mem_cons] at hmem
            rcases hmem with rfl | hmem
            · exact .inr hseen'
            · exact .inl hmem
          · exact .inr (hmono' j hj)
      · exact fun dep hdep => (h.edges idx hidx _).mp (mem_map_of_mem hdep)
      · exact fun j hj => .inl ((h.edges idx hidx j).mpr hj)
      · rintro mgr' ⟨hex, hmono, -, hleft⟩
        have hcount : mgr'.count = n := hex.count
        refine .ok ⟨hex.leave fun j hj => (hleft j hj).resolve_left (not_mem_nil),
          ⟨hcount ▸ hidx, ?_⟩, ?_⟩
        · rw [setNode_self]
        · intro i hi
          refine ⟨(hmono i hi).1, ?_⟩
          by_cases hne : i = idx
          · rw [hne, setNode_self]
          · rw [setNode_of_ne hne]
            exact (hmono i hi).2

theorem detectCycles_spec (hcount : mgr.count = n)
    (hedges : ∀ i < n, ∀ j, j ∈ (mgr.graph i).deps.map (·.targetIdx) ↔ r i j)
    (hwithin : ∀ i j, r i j → j < n) :
    Ends mgr.detectCycles (fun _ => ¬ Acyclic r)
      fun mgr' => Acyclic r ∧ mgr'.count = n ∧ ∀ i < n, ∀ j,
      j ∈ (mgr'.graph i).deps.map (·.targetIdx) ↔ r i j := by
  have hclear : ∀ i < n, mgr.clearMarks.graph i =
    { mgr.graph i with visited := false, inPath := false } := fun i hi => if_pos (hcount ▸ hi)
  have hnone : ∀ i, ¬ mgr.clearMarks.Seen i := by
    rintro i ⟨hi, hvisited⟩
    rw [hclear i (hcount ▸ hi)] at hvisited
    cases hvisited
  have hstart : Exploring n r [] mgr.clearMarks := by
    refine ⟨hcount, fun i hi j => ?_, hwithin, fun i hi => ?_, nodup_nil,
      fun i hi => absurd hi not_mem_nil,
      isChain_nil, fun i hi => absurd hi not_mem_nil, fun i j hi => absurd hi (hnone i),
      fun i hi => absurd hi (hnone i)⟩
    · rw [hclear i hi]
      exact hedges i hi j
    · rw [hclear i hi]
      simp
  refine (forEach_range (fun i mgr' => Exploring n r [] mgr' ∧ ∀ j < i, mgr'.Seen j) _ ?_
    ⟨hstart, fun j hj => absurd hj (Nat.not_lt_zero j)⟩).imp (fun _ h => h) ?_
  · rintro i mgr' hi ⟨hex, hdone⟩
    rw [hcount] at hi
    have hlast : ∀ mgr'' : SvcManager, mgr''.Seen i → (∀ j, mgr'.Seen j → mgr''.Seen j) →
        ∀ j < i + 1, mgr''.Seen j := by
      intro mgr'' hseen hmono j hj
      rcases Nat.lt_succ_iff_lt_or_eq.mp hj with hj | rfl
      · exact hmono j (hdone j hj)
      · exact hseen
    refine .ite (fun hvisited => .ok ⟨hex, hlast mgr' ⟨hex.count ▸ hi, hvisited⟩ fun _ h => h⟩)
      fun _ => ?_
    refine (dfsCycleCheck_spec svcMaxServices [] i mgr' hex (Nat.zero_add _) hi ?_).imp
      (fun _ h => h) fun mgr'' h => ⟨h.1, hlast mgr'' h.2.1 h.2.2⟩
    exact fun p hp => absurd hp (by simp)
  · rintro mgr' ⟨hex, hdone⟩
    refine ⟨fun i hcyc => ?_, hex.count, hex.edges⟩
    obtain ⟨j, -, hji⟩ := TransGen.tail'_iff.mp hcyc
    exact hex.acyclic i (hdone i (hcount ▸ hwithin j i hji)) hcyc

end Cycles

end SvcManager

end Xnix
