import Spn.Lib.Worklist
import Spn.Options.Merge

/-! # Applying options to a session

`spn_session_apply_options` of `session/options.c`. A turn of its loop merges the
options of every node from the requests the edges carry, then looks at the gated
dependencies of every node: an edge whose dependency is gated off is pruned, a
dependency that is gated on and has no edge is missing. After a pruning the nodes
the root no longer reaches are swept and the loop goes round again. The order in
which the table of nodes lists its entries is that of the list; a rebuilt table
lists them in any order.
-/
namespace Spn.Options

open Spn.Resolve Spn.Lib

/-- What is read of a dependency of a loaded package, `spn_requested_dep_t`. -/
structure Dep where
  qualified : Str
  kind : DepKind
  isPrivate : Bool
  gate : List Clause
  options : List Clause
  deriving DecidableEq

/-- `session->resolve`: no two nodes have one id. -/
structure Graph where
  nodes : List Node
  distinct : (nodes.map Node.id).Nodup

/-- The order in which a rebuilt table lists its entries: any one. -/
structure Order where
  list : List Node → List Node
  perm : ∀ nodes, (list nodes).Perm nodes

/-- What is read of a loaded package, `spn_loaded_pkg_t`. The facts of the platform
that go into a fingerprint come as the number `spn_pkg_hash_platform` makes of them. -/
structure Loaded where
  qualified : Str
  name : Str
  version : Version
  commit : Str
  platform : ℕ
  deps : List Dep

/-- What `spn_session_t` has of options. Every node has a loaded package, as the
source asserts. -/
structure Session where
  resolve : Graph
  packages : PkgId → Loaded
  config : List ConfigEntry
  profile : Profile
  options : List (PkgId × List ResolvedOption)
  seeds : List (Str × Request)
  resolves : ℕ

/-- The dependencies a node's package lists. -/
def Session.deps (s : Session) (id : PkgId) : List Dep := (s.packages id).deps

/-- `SPN_GATE_MAX_RESOLVES`. -/
def gateMaxResolves : ℕ := 4

/-- What the call emits. -/
inductive Err
  | violations (all : List Violation)
  | lateGate (pkg dep : Str)
  | unknownPkg (key : Str)
  deriving DecidableEq

/-- `spn_pkg_name_from_qualified(..).name`: what is behind the first slash, or all
of it. -/
def pkgName (qualified : Str) : Str :=
  match qualified.dropWhile (· ≠ 47) with
  | _ :: second => if second = [] then qualified else second
  | [] => qualified

/-- The edge goes to a package of this name, for this kind. -/
def isEdge (qualified : Str) (kind : DepKind) (e : ResolvedDep) : Bool :=
  e.id.qualified = qualified && e.kind = kind

/-- `node_find_edge`. -/
def findEdge (edges : List ResolvedDep) (qualified : Str) (kind : DepKind) : Option ResolvedDep :=
  edges.find? (isEdge qualified kind)

namespace Session

variable (s : Session)

/-- The requests a node makes, with the node each of them goes to. -/
def nodeRequests (node : Node) : List (PkgId × Request) :=
  (s.deps node.id).filterMap fun dep =>
    if dep.options = [] then none
    else (findEdge node.edges dep.qualified dep.kind).map fun edge =>
      (edge.id, ⟨node.name, dep.options⟩)

/-- The first loop: all requests, in the order they are made. -/
def requests : List (PkgId × Request) := s.resolve.nodes.flatMap s.nodeRequests

/-- The requests that go to a node. -/
def asked (id : PkgId) : List Request :=
  (s.requests.filter fun entry => entry.1 = id).map Prod.snd

/-- The options of a node in this turn. -/
def merged (node : Node) : Merged := mergeOptions node s.profile s.config (s.asked node.id)

/-- The second loop, with the tables the first one filled: it stops at the first
node whose merge has violations. -/
def mergeAll : Session × Option (List Violation) :=
  let clean := s.resolve.nodes.takeWhile fun node => (s.merged node).violations = []
  let s' := { s with
    options := clean.map fun node => (node.id, (s.merged node).options)
    seeds := s.requests.map fun entry => (entry.1.qualified, entry.2) }
  match s.resolve.nodes.dropWhile fun node => (s.merged node).violations = [] with
  | [] => (s', none)
  | node :: _ => (s', some (s.merged node).violations)

/-- `sp_ht_getp(session->options, id)`. -/
def optionsOf (id : PkgId) : List ResolvedOption :=
  ((s.options.find? fun entry => entry.1 = id).map Prod.snd).getD []

/-- What the gates of a node are evaluated in. -/
def env (node : Node) : Env := optionsEnv s.profile (s.optionsOf node.id)

end Session

/-- What the third loop keeps: whether it pruned, whether something is missing, and
the names of what was missing first, in this turn or one before. -/
structure Pass where
  pruned : Bool
  missing : Bool
  missingPkg : Str
  missingDep : Str

/-- The body of the third loop for a dependency; the edges of the node change. -/
def gateDep (node : Node) (env : Env) (acc : List ResolvedDep × Pass) (dep : Dep) :
    List ResolvedDep × Pass :=
  let (edges, pass) := acc
  if dep.gate = [] then acc
  else
    match findEdge edges dep.qualified dep.kind, whenEval dep.gate env with
    | none, true =>
      if pass.missingPkg = [] then
        (edges, { pass with missing := true, missingPkg := node.name,
                            missingDep := pkgName dep.qualified })
      else (edges, { pass with missing := true })
    | some _, false =>
      -- `node_prune_edge` takes the edge out that was found
      (edges.eraseP (isEdge dep.qualified dep.kind), { pass with pruned := true })
    | _, _ => acc

namespace Session

variable (s : Session)

/-- The third loop. -/
def gateNodes : List Node → Pass → List Node × Pass
  | [], pass => ([], pass)
  | node :: rest, pass =>
    let (edges, pass) := (s.deps node.id).foldl (gateDep node (s.env node)) (node.edges, pass)
    let (nodes, pass) := gateNodes rest pass
    ({ node with edges := edges } :: nodes, pass)

end Session

theorem gateNodes_ids (s : Session) (nodes : List Node) (pass : Pass) :
    (s.gateNodes nodes pass).1.map Node.id = nodes.map Node.id := by
  induction nodes generalizing pass with
  | nil => rfl
  | cons node rest ih => simp [Session.gateNodes, ih]

/-- The graph after the third loop. -/
def Session.gateAll (s : Session) (pass : Pass) : Graph × Pass :=
  let gated := s.gateNodes s.resolve.nodes pass
  (⟨gated.1, by rw [gateNodes_ids]; exact s.resolve.distinct⟩, gated.2)

namespace Graph

variable (g : Graph)

/-- The targets of the edges of a node; none for an id without a node. -/
def succ (id : PkgId) : List PkgId :=
  match g.nodes.find? fun node => node.id = id with
  | some node => node.edges.map ResolvedDep.id
  | none => []

/-- The nodes that come from the root manifest. -/
def roots : List PkgId := (g.nodes.filter fun node => node.source = .root).map Node.id

/-- How many edges there are. -/
def edgeCount : ℕ := (g.nodes.map fun node => node.edges.length).sum

/-- The nodes of a set, in a new table. -/
def keep (L : Order) (kept : Finset PkgId) : Graph where
  nodes := L.list (g.nodes.filter fun node => node.id ∈ kept)
  distinct := ((L.perm _).map Node.id).nodup_iff.2
    (g.distinct.sublist (List.filter_sublist.map Node.id))

/-- `sweep_unreachable`, with as many steps as there can be pushes. -/
def sweep (L : Order) : Option Graph :=
  (Worklist.close g.succ (g.edgeCount + g.nodes.length + 1)
    (g.roots.foldl Worklist.push (∅, []))).map (g.keep L)

end Graph

/-- `validate_config_keys`: the first key that names no package. -/
def Session.unknownKey (s : Session) : Option Str :=
  (s.config.find? fun entry => !s.resolve.nodes.any fun node =>
    node.name = entry.key ||
      (s.deps node.id).any fun dep => pkgName dep.qualified = entry.key).map ConfigEntry.key

/-- How a turn of the loop ends. -/
inductive Turn
  | again (s : Session) (missing : Str × Str)
  | done (s : Session) (result : Except Err Bool)
  | stuck

/-- One turn. The names of what was missing first stay from turn to turn. -/
def turn (L : Order) (s : Session) (missing : Str × Str) : Turn :=
  match s.mergeAll with
  | (s, some all) => .done s (.error (.violations all))
  | (s, none) =>
    let (graph, pass) := s.gateAll ⟨false, false, missing.1, missing.2⟩
    if pass.pruned then
      match graph.sweep L with
      | none => .stuck
      | some swept => .again { s with resolve := swept } (pass.missingPkg, pass.missingDep)
    else
      let s := { s with resolve := graph }
      if pass.missing then
        if s.resolves < gateMaxResolves then
          .done { s with resolves := s.resolves + 1 } (.ok true)
        else .done s (.error (.lateGate pass.missingPkg pass.missingDep))
      else
        match s.unknownKey with
        | some key => .done s (.error (.unknownPkg key))
        | none => .done s (.ok false)

/-- The loop: `none` when the turns run out. -/
def applyLoop (L : Order) : ℕ → Session → Str × Str → Option (Session × Except Err Bool)
  | 0, _, _ => none
  | fuel + 1, s, missing =>
    match turn L s missing with
    | .again s missing => applyLoop L fuel s missing
    | .done s result => some (s, result)
    | .stuck => none

/-- `spn_session_apply_options`: the session it leaves, and either an error or
whether to resolve again. -/
def applyOptions (L : Order) (s : Session) : Option (Session × Except Err Bool) :=
  applyLoop L (s.resolve.edgeCount + 1) s ([], [])

end Spn.Options
