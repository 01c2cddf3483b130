import Spn.Paths

/-! # The action graph

The data of `dag/types.h` and the operations of `dag/dag.c` that build a graph
and validate it. Artifacts and actions are numbered by their place in their
array; an id's graph tag only feeds assertions and is not kept. The digests of
produced artifacts and the `wrote` flags change while a run is going, so they
live in the run.
-/
namespace Spn.Dag

/-- `spn_dag_digest_t`: 32 bytes. -/
structure Digest where
  bytes : List UInt8
  size : bytes.length = 32
  deriving DecidableEq

namespace Digest

/-- `sp_zero`: the digest of an artifact nobody has produced yet. -/
def zero : Digest := ⟨List.replicate 32 0, by simp⟩

/-- `spn_dag_digest_valid`. -/
def valid (d : Digest) : Bool := d.bytes.any (· ≠ 0)

end Digest

/-- The error codes the modelled functions return, and those that come from
an action or from the file system. -/
inductive Err
  | stalled | cancelled | missingInput
  | duplicateOutput | pinnedOutput | outputName
  | pathKind | treeInput | treeRoot | nestedOutput | nestedInput
  | other (code : ℕ)
  deriving DecidableEq, Repr

inductive ObsKind
  | file | absent | enumeration
  deriving DecidableEq, Repr

/-- `spn_dag_obs_t`: one row of what an action looked at. -/
structure Obs where
  kind : ObsKind
  path : Path
  filter : Str
  deriving DecidableEq, Repr

inductive ArtifactKind
  | value | file | tree
  deriving DecidableEq, Repr

structure Artifact where
  kind : ArtifactKind
  name : Str
  path : Path
  digest : Digest
  producer : Option ℕ
  consumers : List ℕ

inductive ActionKind
  | static | discovered | uncacheable
  deriving DecidableEq, Repr

structure Action where
  kind : ActionKind
  identity : Digest
  consumes : List ℕ
  produces : List ℕ

/-- `spn_dag_t`. -/
structure Graph where
  roots : Roots
  artifacts : List Artifact
  actions : List Action
  paths : List (Path × ℕ)

namespace Graph

def new (roots : Roots) : Graph := ⟨roots, [], [], []⟩

/-- `sp_ht_getp(g->paths, path)`. -/
def findPath (g : Graph) (p : Path) : Option ℕ :=
  (g.paths.find? fun entry => entry.1 = p).map (·.2)

def actionKind (g : Graph) (k : ℕ) : Option ActionKind := (g.actions[k]?).map (·.kind)

def consumes (g : Graph) (k : ℕ) : List ℕ := ((g.actions[k]?).map (·.consumes)).getD []

def produces (g : Graph) (k : ℕ) : List ℕ := ((g.actions[k]?).map (·.produces)).getD []

def consumers (g : Graph) (a : ℕ) : List ℕ := ((g.artifacts[a]?).map (·.consumers)).getD []

def producer (g : Graph) (a : ℕ) : Option ℕ := (g.artifacts[a]?).bind (·.producer)

/-! ## Building -/

/-- `add_artifact`. -/
def addArtifact (g : Graph) (a : Artifact) : Graph × ℕ :=
  ({ g with artifacts := g.artifacts ++ [{ a with consumers := [] }] }, g.artifacts.length)

/-- `spn_dag_add_path`; nothing when the assertion fails. -/
def addPath (g : Graph) (p : Path) (kind : ArtifactKind) : Option (Graph × ℕ) :=
  if p.empty then none
  else
    let existing := g.findPath p
    match existing.filter fun i => (g.artifacts[i]?).map (·.kind) = some kind with
    | some i => some (g, i)
    | none =>
      let (g', i) := g.addArtifact ⟨kind, [], p, .zero, none, []⟩
      some (if existing.isNone then { g' with paths := g'.paths ++ [(p, i)] } else g', i)

/-- `spn_dag_add_value`, given the digest of the data. -/
def addValue (g : Graph) (digest : Digest) : Graph × ℕ :=
  g.addArtifact ⟨.value, [], ⟨.none, []⟩, digest, none, []⟩

/-- `spn_dag_add_output`. -/
def addOutput (g : Graph) (name : Str) : Graph × ℕ :=
  g.addArtifact ⟨.file, name, ⟨.none, []⟩, .zero, none, []⟩

/-- `spn_dag_add_action`. -/
def addAction (g : Graph) (kind : ActionKind) (identity : Digest) : Graph × ℕ :=
  ({ g with actions := g.actions ++ [⟨kind, identity, [], []⟩] }, g.actions.length)

/-- `spn_dag_action_add_input`; nothing when an id is not of this graph. -/
def addInput (g : Graph) (k a : ℕ) : Option Graph :=
  if k < g.actions.length ∧ a < g.artifacts.length then
    some { g with
      actions := g.actions.modify k fun x => { x with consumes := x.consumes ++ [a] }
      artifacts := g.artifacts.modify a fun x => { x with consumers := x.consumers ++ [k] } }
  else none

/-- `sp_fs_get_name`: what follows the last separator. -/
def baseName (s : Str) : Str := (s.reverse.takeWhile (· ≠ slash)).reverse

/-- The name an output takes when it has none: the last part of its path. -/
def outputName (x : Artifact) : Str := if x.name = [] then baseName x.path.sub else x.name

def setName (g : Graph) (a : ℕ) (name : Str) : Graph :=
  { g with artifacts := g.artifacts.modify a fun x => { x with name := name } }

def setProducer (g : Graph) (k a : ℕ) : Graph :=
  { g with
    artifacts := g.artifacts.modify a fun x => { x with producer := some k }
    actions := g.actions.modify k fun x => { x with produces := x.produces ++ [a] } }

/-- `spn_dag_action_add_output`: the graph afterwards and the error, if any; nothing when an id is
not of this graph or the output has an absolute path. The name is stored before the checks on
it. -/
def addActionOutput (g : Graph) (k a : ℕ) : Option (Graph × Option Err) :=
  match g.actions[k]?, g.artifacts[a]? with
  | some action, some artifact =>
    if artifact.producer.isSome then some (g, some .duplicateOutput)
    else if !artifact.path.empty && artifact.path.root = .none then none
    else if !artifact.path.empty && g.roots.pins artifact.path.root then
      some (g, some .pinnedOutput)
    else
      let name := outputName artifact
      let g := g.setName a name
      if name = [] ∨ slash ∈ name then some (g, some .outputName)
      else if action.produces.any fun b => (g.artifacts[b]?).map (·.name) = some name then
        some (g, some .duplicateOutput)
      else some (g.setProducer k a, none)
  | _, _ => none

/-- A graph some sequence of building calls ends in. What has a path is a file
or a tree: `spn_dag_add_file`, `spn_dag_add_tree` and the outputs of a user node
ask for no other kind. -/
inductive Built (hash : List UInt8 → Digest) (roots : Roots) : Graph → Prop
  | new : Built hash roots (new roots)
  | addPath {g p t r} : Built hash roots g → t ≠ .value → g.addPath p t = some r →
      Built hash roots r.1
  | addValue {g} (data : List UInt8) : Built hash roots g →
      Built hash roots (g.addValue (hash data)).1
  | addOutput {g} (name : Str) : Built hash roots g → Built hash roots (g.addOutput name).1
  | addAction {g} (kind : ActionKind) (identity : Digest) : Built hash roots g →
      Built hash roots (g.addAction kind identity).1
  | addInput {g k a g'} : Built hash roots g → g.addInput k a = some g' → Built hash roots g'
  | addActionOutput {g k a r} : Built hash roots g → g.addActionOutput k a = some r →
      Built hash roots r.1

/-! ## Validating -/

/-- The directories `spn_dag_validate` looks for a tree in. -/
def dirsAbove (p : Path) : List Path := p.ancestors.takeWhile (·.sub ≠ [])

def isTree (g : Graph) (i : ℕ) : Bool := (g.artifacts[i]?).map (·.kind) = some .tree

/-- What `spn_dag_validate` finds wrong with one artifact. -/
def violation (g : Graph) (i : ℕ) (x : Artifact) : Option Err :=
  let tree := x.kind = .tree
  if x.path.empty then none
  else if g.findPath x.path ≠ some i then some .pathKind
  else if tree ∧ x.producer = none then some .treeInput
  else if tree ∧ g.roots.intersect (g.roots.pathStr x.path) then some .treeRoot
  else if x.path.root ≠ .none ∧ (dirsAbove x.path).any fun d => (g.findPath d).any g.isTree then
    some (if x.producer.isSome then .nestedOutput else .nestedInput)
  else none

/-- `spn_dag_validate`. -/
def validate (g : Graph) : Option Err :=
  g.artifacts.zipIdx.findSome? fun (x, i) => g.violation i x

end Graph
end Spn.Dag
