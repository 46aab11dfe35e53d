import Xnix.Lib.Loops
import Xnix.Vfs

/-!
# The dependency graph of the services

`user/init/svc/svc_graph.c`: names are turned into indices, a depth-first search refuses cycles, and
a sort by levels fixes the order in which services are started. A loop that returns -1 ends with
`.error` and what it printed; a write past the end of one of the arrays has no outcome.
-/

namespace Xnix

def svcDepsMax : ℕ := 8

abbrev svcMaxServices : ℕ := 24

/-- The name and the dependencies in `struct svc_config`. -/
structure SvcConfig where
  name : CString
  after : List CString
  ready : List CString
  after_le : after.length ≤ svcDepsMax
  ready_le : ready.length ≤ svcDepsMax

instance : Inhabited SvcConfig := ⟨⟨[], [], [], Nat.zero_le _, Nat.zero_le _⟩⟩

inductive DepType
  | requires
  | wants
  | after
deriving DecidableEq

structure SvcDependency where
  targetIdx : ℕ
  type : DepType
  name : CString

/-- `struct svc_graph_node` without the endpoints. -/
structure SvcGraphNode where
  deps : List SvcDependency
  topoLevel : ℕ
  pendingDeps : ℕ
  visited : Bool
  inPath : Bool

/-- The part of `struct svc_manager` that the graph is made from and kept in. `topoOrder` is what
the last sort wrote. -/
structure SvcManager where
  configs : List SvcConfig
  graph : ℕ → SvcGraphNode
  topoOrder : List ℕ
  maxTopoLevel : ℤ
  graphValid : Bool
  count_le : configs.length ≤ svcMaxServices

/-- Why a graph is refused, with the names that are printed. -/
inductive SvcError
  | unknownService (name dep : CString) (type : DepType)
  | tooManyDependencies (name : CString)
  | circularDependency (names : List CString)
  | sortFailed

namespace SvcManager

variable (mgr : SvcManager)

def count : ℕ := mgr.configs.length

def config (i : ℕ) : SvcConfig := mgr.configs.getD i default

def setNode (i : ℕ) (node : SvcGraphNode) : SvcManager :=
  { mgr with graph := Function.update mgr.graph i node }

def findByName (name : CString) : Option ℕ := mgr.configs.findIdx? (·.name = name)

/-- What a function that may fail leaves. -/
abbrev Outcome (σ : Type) : Type := Option (Except (SvcManager × SvcError) σ)

/-- The first loop of `svc_build_dependency_graph`. -/
def clearGraph : SvcManager :=
  { mgr with graph := fun i => if i < mgr.count then ⟨[], 0, 0, false, false⟩ else mgr.graph i }

def addDep (i : ℕ) (type : DepType) (name : CString) (mgr : SvcManager) : Outcome SvcManager :=
  match mgr.findByName name with
  | none => some (.error (mgr, .unknownService (mgr.config i).name name type))
  | some depIdx =>
    if svcDepsMax * 3 ≤ (mgr.graph i).deps.length then
      some (.error (mgr, .tooManyDependencies (mgr.config i).name))
    else
      some (.ok (mgr.setNode i
        { mgr.graph i with deps := (mgr.graph i).deps ++ [⟨depIdx, type, name⟩] }))

def addDeps (i : ℕ) (mgr : SvcManager) : Outcome SvcManager :=
  Lib.andThen (Lib.forEach (addDep i .after) (mgr.config i).after mgr)
    (Lib.forEach (addDep i .requires) (mgr.config i).ready)

/-- `svc_dfs_cycle_check`: `.error` for true, `.ok` for false. `room` entries are left in the array
`path`. -/
def dfsCycleCheck (room : ℕ) (path : List ℕ) (idx : ℕ) (mgr : SvcManager) : Outcome SvcManager :=
  if (mgr.graph idx).inPath then
    some (.error (mgr, .circularDependency ((path ++ [idx]).map fun i => (mgr.config i).name)))
  else if (mgr.graph idx).visited then some (.ok mgr)
  else
    match room with
    | 0 => none
    | room + 1 =>
      Lib.andThen
        (Lib.forEach (fun dep => dfsCycleCheck room (path ++ [idx]) dep.targetIdx)
          (mgr.graph idx).deps (mgr.setNode idx { mgr.graph idx with inPath := true }))
        fun mgr => some (.ok
          (mgr.setNode idx { mgr.graph idx with inPath := false, visited := true }))

def clearMarks : SvcManager :=
  { mgr with graph := fun i =>
      if i < mgr.count then { mgr.graph i with visited := false, inPath := false }
        else mgr.graph i }

def detectCycles : Outcome SvcManager :=
  Lib.forEach
    (fun i mgr => if (mgr.graph i).visited then some (.ok mgr)
    else dfsCycleCheck svcMaxServices [] i mgr)
    (List.range mgr.count) mgr.clearMarks

end SvcManager

/-- The local variables of `svc_topological_sort`; `queue` is the array up to `queue_back`. -/
structure SvcSort where
  mgr : SvcManager
  inDegree : ℕ → ℤ
  queue : List ℕ
  queueFront : ℕ

namespace SvcSort

open SvcManager (Outcome)

/-- `queue[queue_back++] = j` and the level of `j`. -/
def enqueue (j level : ℕ) (s : SvcSort) : Outcome SvcSort :=
  if s.queue.length < svcMaxServices then
    some (.ok { s with
      queue := s.queue ++ [j]
      mgr := s.mgr.setNode j { s.mgr.graph j with topoLevel := level } })
  else none

/-- A dependency of `j` when `idx` is done. -/
def release (idx j : ℕ) (dep : SvcDependency) (s : SvcSort) : Outcome SvcSort :=
  if dep.targetIdx = idx then
    let s := { s with inDegree := Function.update s.inDegree j (s.inDegree j - 1) }
    if s.inDegree j = 0 then s.enqueue j ((s.mgr.graph idx).topoLevel + 1) else some (.ok s)
  else some (.ok s)

def takeNext (s : SvcSort) : Outcome SvcSort :=
  match s.queue[s.queueFront]? with
  | none => none
  | some idx =>
    if s.mgr.topoOrder.length < svcMaxServices then
      Lib.forEach (fun j s => Lib.forEach (release idx j) (s.mgr.graph j).deps s)
        (List.range s.mgr.count)
        { s with
          queueFront := s.queueFront + 1
          mgr := { s.mgr with topoOrder := s.mgr.topoOrder ++ [idx] } }
    else none

/-- The loop over the levels. Every level has a service, and there is room for `room` of them. -/
def takeLevels (room level : ℕ) (s : SvcSort) : Outcome (SvcSort × ℕ) :=
  if s.queueFront < s.queue.length then
    match room with
    | 0 => none
    | room + 1 =>
      Lib.andThen (Lib.forEach (fun _ => takeNext) (List.range (s.queue.length - s.queueFront)) s)
        (takeLevels room (level + 1))
  else some (.ok (s, level))

/-- The loop that fills the queue with the services that depend on nothing. -/
def start (mgr : SvcManager) : Outcome SvcSort :=
  Lib.forEach (fun i s => if s.inDegree i = 0 then s.enqueue i 0
    else some (.ok s)) (List.range mgr.count)
    ⟨{ mgr with topoOrder := [] }, fun i => if i < mgr.count then ((mgr.graph i).deps.length : ℤ)
      else 0, [], 0⟩

end SvcSort

namespace SvcManager

def topologicalSort (mgr : SvcManager) : Outcome SvcManager :=
  Lib.andThen (Lib.andThen (SvcSort.start mgr) (SvcSort.takeLevels svcMaxServices 0))
    fun (s, level) =>
    if s.mgr.topoOrder.length ≠ mgr.count then some (.error (s.mgr, .sortFailed))
    else some (.ok { s.mgr with maxTopoLevel := (level : ℤ) - 1 })

def buildDependencyGraph (mgr : SvcManager) : Outcome SvcManager :=
  Lib.andThen
    (Lib.andThen (Lib.andThen (Lib.forEach addDeps (List.range mgr.count) mgr.clearGraph)
      detectCycles) topologicalSort)
    fun mgr => some (.ok { mgr with graphValid := true })

end SvcManager

end Xnix
