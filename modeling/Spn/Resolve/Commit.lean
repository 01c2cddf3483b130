import Spn.Lib.DepthFirst
import Spn.Resolve.Scopes

/-! # The instance graph

What `solve_once` makes of the solved scopes. A node is a name in a scope; the
nodes are hashed from their edges down, and those of one id become one
instance, which is the first of them in the order of the scopes.
-/
namespace Spn.Resolve

open Spn.Lib

/-- `spn_group_node_t`. -/
@[ext] structure GroupNode where
  scope : ℕ
  name : Str
  deriving DecidableEq, Repr

namespace GroupNode

/-- The order of the keys in a table of nodes. -/
def cmp : GroupNode → GroupNode → Ordering := compareLex (compareOn scope) (compareOn name)

instance : Ord GroupNode := ⟨cmp⟩

instance : Std.TransOrd GroupNode := by
  show Std.TransCmp cmp
  unfold cmp
  infer_instance

instance : Std.LawfulEqOrd GroupNode where
  compare_self {_} := Std.ReflOrd.compare_self
  eq_of_compare {a b} h := by
    have h : cmp a b = .eq := h
    simp only [cmp, compareLex, Ordering.then_eq_eq, compareOn] at h
    exact GroupNode.ext (Std.LawfulEqOrd.eq_of_compare h.1) (Std.LawfulEqOrd.eq_of_compare h.2)

end GroupNode

/-- `spn_node_edge_t`. -/
structure NodeEdge where
  scope : ℕ
  name : Str
  node : ResolvedPkg
  kind : DepKind
  edge : DepEdge
  isPrivate : Bool

def NodeEdge.key (e : NodeEdge) : GroupNode := ⟨e.scope, e.name⟩

/-- The comparison `collect_node_edges` skips a repeated edge by. -/
def NodeEdge.same (a b : NodeEdge) : Bool :=
  a.scope = b.scope && a.name = b.name && a.kind = b.kind && a.isPrivate = b.isPrivate

/-- `spn_edge_record_t`. -/
@[ext] structure EdgeRecord where
  hash : ℕ
  kind : DepKind
  isPrivate : Bool
  deriving DecidableEq, Repr

namespace EdgeRecord

/-- `sort_edge_record`. -/
def cmp : EdgeRecord → EdgeRecord → Ordering :=
  compareLex (compareOn hash) (compareLex (compareOn fun r => r.kind.toNat) (compareOn isPrivate))

instance : Std.TransCmp cmp := by
  unfold cmp
  infer_instance

/-- One record may stand before the other. -/
def le (a b : EdgeRecord) : Prop := (cmp a b).isLE = true

instance : DecidableRel le := fun _ _ => inferInstanceAs (Decidable (_ = true))

end EdgeRecord

/-- `sp_hash_str` and `sp_hash_bytes`, of what the resolver hashes. -/
structure Hashing where
  str : Str → ℕ
  version : Version → ℕ → ℕ
  records : List EdgeRecord → ℕ → ℕ

namespace Run

variable (R : Resolver) (run : Run)

/-- `sp_ht_getp(run->scopes[scope].named, name)`. -/
def nodeAt (key : GroupNode) : Option ResolvedPkg :=
  run.scopes[key.scope]?.bind fun scope => scope.named[key.name]?

/-- The scope a dependency of class `edge` leads to. -/
def targetScope (it : ℕ) (node : ResolvedPkg) (dep : Req) : DepEdge → Option ℕ
  | .pruned => none
  | .scope => some it
  | .process => run.findScope dep.qualified node.id
  | .isPrivate => run.findScope node.id.qualified node.id

/-- One dependency in `collect_node_edges`: nothing for one that is skipped. -/
def edgeOf (it : ℕ) (node : ResolvedPkg) (dep : Req) : Option NodeEdge :=
  let edge := R.classifyDep run.registry node dep
  match run.targetScope it node dep edge with
  | none => none
  | some scope =>
    (run.nodeAt ⟨scope, dep.qualified⟩).map fun target =>
      ⟨scope, dep.qualified, target, dep.kind, edge, dep.isPrivate⟩

/-- `collect_node_edges`. -/
def collectNodeEdges (it : ℕ) (node : ResolvedPkg) : List NodeEdge :=
  node.deps.foldl
    (fun edges dep =>
      match run.edgeOf R it node dep with
      | none => edges
      | some e => if edges.any e.same then edges else edges ++ [e])
    []

/-- The nodes a node has edges to; nothing where there is no node. -/
def groupSucc (key : GroupNode) : Option (List GroupNode) :=
  (run.nodeAt key).map fun node => (run.collectNodeEdges R key.scope node).map NodeEdge.key

/-- A depth no walk over the nodes uses up. -/
def groupDepth : ℕ := (run.scopes.map fun scope => scope.named.size).sum + 1

/-- The nodes of all scopes, as the tables list them. -/
def groupNodes (list : ℕ → List (Str × ResolvedPkg) → List (Str × ResolvedPkg)) : List GroupNode :=
  (run.scopes.zipIdx.map fun entry =>
    (list entry.2 entry.1.named.toList).map fun kv => GroupNode.mk entry.2 kv.1).flatten

/-- `check_group_cycles`. -/
def checkGroupCycles (L : Listing) : Verdict :=
  match DepthFirst.visitEach (DepthFirst.visit (run.groupSucc R) run.groupDepth)
      (run.groupNodes fun it => L.named (.cycles it)) ∅ with
  | .ok _ => .ok
  | .cycle key =>
    match run.nodeAt key with
    | some node => .err (.unitCycle node.id.qualified node.id.version)
    | none => .ok
  | .deep => .stuck

/-- `leaf_hash`. -/
def leafHash (H : Hashing) (node : ResolvedPkg) : ℕ :=
  H.version node.id.version (H.str node.id.qualified)

/-- The records of a node's edges, given the hashes of their targets in order. -/
def edgeRecords (it : ℕ) (node : ResolvedPkg) (hashes : List ℕ) : List EdgeRecord :=
  ((run.collectNodeEdges R it node).zip hashes).map fun entry =>
    ⟨entry.2, entry.1.kind, entry.1.isPrivate⟩

/-- The end of `hash_group_node`: the hash of a node whose targets are hashed. -/
def nodeHash (H : Hashing) (key : GroupNode) (hashes : List ℕ) : ℕ :=
  match run.nodeAt key with
  | none => 0
  | some node =>
    let records := (run.edgeRecords R key.scope node hashes).insertionSort EdgeRecord.le
    if records.isEmpty then leafHash H node else H.records records (leafHash H node)

/-- `hash_group_node`: a node that is being hashed counts as a leaf. -/
def hashGroupNode (H : Hashing) :
    Table GroupNode (Option ℕ) → GroupNode → Option (ℕ × Table GroupNode (Option ℕ)) :=
  DepthFirst.eval (fun key => (run.groupSucc R key).getD [])
    (fun key => ((run.nodeAt key).map (leafHash H)).getD 0) (run.nodeHash R H) run.groupDepth

/-- The loop of `solve_once` that hashes all nodes. -/
def hashGroupNodes (H : Hashing) (L : Listing) : Option (Table GroupNode (Option ℕ)) :=
  (DepthFirst.evalEach (run.hashGroupNode R H) (run.groupNodes fun it => L.named (.hashes it)) ∅).map
    Prod.snd

end Run

/-- The hash of a node that was hashed. -/
def hashAt (memo : Table GroupNode (Option ℕ)) (key : GroupNode) : ℕ := (memo[key]?.join).getD 0

/-- The id of the instance a node becomes. -/
def instanceId (memo : Table GroupNode (Option ℕ)) (key : GroupNode) (node : ResolvedPkg) : PkgId :=
  { node.id with hash := hashAt memo key }

namespace Run

variable (R : Resolver) (run : Run)

/-- An edge as an instance keeps it. -/
def resolvedDep (memo : Table GroupNode (Option ℕ)) (e : NodeEdge) : ResolvedDep :=
  ⟨instanceId memo e.key e.node, e.kind, e.edge, e.isPrivate⟩

/-- A node as an instance. -/
def instanceOf (memo : Table GroupNode (Option ℕ)) (key : GroupNode) (node : ResolvedPkg) :
    ResolvedPkg :=
  { node with
    id := instanceId memo key node
    edges := (run.collectNodeEdges R key.scope node).map (resolvedDep memo) }

/-- `commit_instances`, for one node. -/
def commitInstance (memo : Table GroupNode (Option ℕ)) (result : Table PkgId ResolvedPkg)
    (key : GroupNode) : Table PkgId ResolvedPkg :=
  match run.nodeAt key with
  | none => result
  | some node => result.insertIfNew (instanceId memo key node) (run.instanceOf R memo key node)

/-- `commit_instances`. -/
def commitInstances (L : Listing) (memo : Table GroupNode (Option ℕ)) : Table PkgId ResolvedPkg :=
  (run.groupNodes fun it => L.named (.instances it)).foldl (run.commitInstance R memo) ∅

/-- A shared library that occurs twice in a process. -/
structure Duplicate where
  name : Str
  low : Version
  high : Version
  deriving DecidableEq, Repr

/-- The shared libraries a process has so far, `spn_shared_seen_t`. -/
abbrev Shared := Table Str (ResolvedPkg × ℕ)

/-- The walk of `check_dynamic_duplicates` over one scope. -/
def scanScope (memo : Table GroupNode (Option ℕ)) (it : ℕ) :
    List (Str × ResolvedPkg) → Shared → Except Duplicate Shared
  | [], shared => .ok shared
  | (name, node) :: rest, shared =>
    if R.nodeIsShared run.registry node then
      let hash := hashAt memo ⟨it, name⟩
      match shared[node.id.qualified]? with
      | none => scanScope memo it rest (shared.insert node.id.qualified (node, hash))
      | some (prior, seen) =>
        if seen = hash then scanScope memo it rest shared
        else
          let ordered := prior.id.version.le node.id.version
          .error ⟨node.id.qualified,
            if ordered then prior.id.version else node.id.version,
            if ordered then node.id.version else prior.id.version⟩
    else scanScope memo it rest shared

/-- The walk of `check_dynamic_duplicates` over the scopes of a process, the
ones from `it` on. -/
def scanProcess (L : Listing) (memo : Table GroupNode (Option ℕ)) (process : ℕ) :
    ℕ → List Scope → Shared → Except Duplicate Shared
  | _, [], shared => .ok shared
  | it, scope :: rest, shared =>
    if process ∈ scope.processes then
      match run.scanScope R memo it (L.named (.duplicates process it) scope.named.toList) shared with
      | .ok shared => scanProcess L memo process (it + 1) rest shared
      | .error duplicate => .error duplicate
    else scanProcess L memo process (it + 1) rest shared

/-- `check_dynamic_duplicates`: the first duplicate, if there is one. -/
def checkDynamicDuplicates (L : Listing) (memo : Table GroupNode (Option ℕ)) : Option Duplicate :=
  (List.range run.scopes.length).findSome? fun process =>
    match run.scanProcess R L memo process 0 run.scopes ∅ with
    | .ok _ => none
    | .error duplicate => some duplicate

/-- The pins a duplicate makes the caller try: two versions are two. -/
def retryPins (duplicate : Duplicate) : List Pin :=
  if run.forced.isNone ∧ duplicate.low ≠ duplicate.high then
    [⟨duplicate.name, duplicate.low⟩, ⟨duplicate.name, duplicate.high⟩]
  else []

end Run

/-- A run with the hashes of its nodes. -/
structure Solved where
  run : Run
  memo : Table GroupNode (Option ℕ)

/-- The run `solve_once` starts: one scope with the requests of the query. -/
def startRun (R : Resolver) (registry : Registry) (forced : Option Pin) (reqs : List Req) : Run where
  result := ∅
  scopes := [{ Scope.fresh [] rootId with reqs := reqs }]
  boundaries := []
  edges := []
  visited := ∅
  picks := 0
  budget := R.budget
  fatal := false
  forced := forced
  retry := []
  registry := registry
  met := []

/-- `solve_once` once the scopes are solved. -/
def finishRun (R : Resolver) (L : Listing) (H : Hashing) (run : Run) : Verdict × Solved :=
  match computeProcesses run.edges run.scopes with
  | none => (.stuck, ⟨run, ∅⟩)
  | some scopes =>
    let run := { run with scopes := scopes }
    match run.checkGroupCycles R L with
    | .ok =>
      match run.hashGroupNodes R H L with
      | none => (.stuck, ⟨run, ∅⟩)
      | some memo =>
        let run := { run with result := run.commitInstances R L memo }
        match run.checkDynamicDuplicates R L memo with
        | none => (.ok, ⟨run, memo⟩)
        | some duplicate =>
          (.err (.dynamicDuplicate duplicate.name duplicate.low duplicate.high),
            ⟨{ run with retry := run.retryPins duplicate }, memo⟩)
    | failed => (failed, ⟨run, ∅⟩)

/-- `solve_once`. -/
def solveOnce (R : Resolver) (L : Listing) (H : Hashing) (fuel : ℕ) (registry : Registry)
    (forced : Option Pin) (reqs : List Req) : Verdict × Solved :=
  match solveScopes R L fuel fuel 0 false (startRun R registry forced reqs) with
  | (.ok, run) => finishRun R L H run
  | (failed, run) => (failed, ⟨run, ∅⟩)

/-- The retries of `spn_resolve_from_solver`: up to the first success, and the
first error otherwise. The registry keeps what the runs before it loaded. -/
def retryForced (R : Resolver) (L : Listing) (H : Hashing) (fuel : ℕ) (reqs : List Req)
    (first : Err) : List Pin → Solved → Verdict × Solved
  | [], solved => (.err first, solved)
  | pin :: rest, solved =>
    match solveOnce R L H fuel solved.run.registry (some pin) reqs with
    | (.ok, solved) => (.ok, solved)
    | (.stuck, solved) => (.stuck, solved)
    | (.err _, solved) => retryForced R L H fuel reqs first rest solved

/-- `spn_resolve_from_solver`. The instances are `run.result` of the run it ends
with. -/
def resolveFromSolver (R : Resolver) (L : Listing) (H : Hashing) (fuel : ℕ) (registry : Registry)
    (reqs : List Req) : Verdict × Solved :=
  match solveOnce R L H fuel registry none reqs with
  | (.err e, solved) => retryForced R L H fuel reqs e solved.run.retry solved
  | answer => answer

end Spn.Resolve
