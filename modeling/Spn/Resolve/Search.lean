import Spn.Resolve.Canonical

/-! # The search

The functions of `resolve.c` that resolve requests inside one scope. They call
each other in a circle; each takes the function the circle goes on with, and
`resolveDep` closes it over a depth. A `Search` is the part of a run they work
on, with the name table of the scope at hand. A run that is out of depth is
`stuck`, which no source run is, and nothing follows from it.
-/
namespace Spn.Resolve

open Spn.Lib

/-- The kinds `unsatisfiable_err` is called with. -/
inductive Unsat
  | conflictExact | conflict | noMatch
  deriving DecidableEq, Repr

/-- `spn_err_union_t`, as far as the resolver fills it in. -/
inductive Err
  | depCycle (name : Str)
  | pkgUnknown (qualified : Str) (range : Option Range)
  | unsatisfiable (kind : Unsat) (qualified : Str) (range : Option Range)
      (requester : Str) (requesterVersion selected : Version)
  | noManifest (path : Path)
  | manifestIssues (name : Str) (path : Path)
  | pkgMismatch (path : Path) (declared requested : Str)
  | index (name : Str) (diag : IndexErr)
  | tooComplex (id : Str)
  | unitCycle (id : Str) (version : Version)
  | dynamicDuplicate (id : Str) (low high : Version)
  deriving DecidableEq, Repr

inductive Verdict
  | ok
  | err (e : Err)
  | stuck
  deriving DecidableEq, Repr

instance : Ord Path := ⟨Path.cmp⟩

instance : Std.TransOrd Path := inferInstanceAs (Std.TransCmp Path.cmp)

instance : Std.LawfulEqOrd Path where
  compare_self {_} := Std.ReflOrd.compare_self
  eq_of_compare := Path.eq_of_cmp

/-- `spn_resolver_t` and what it is asked over: the index, the manifests on
disk (one that does not parse holds nothing), the profile and the root's
config. `optionsEnv` is the environment `node_options_env` fills for a node. -/
structure Resolver where
  index : Index
  manifests : Table Path (Option PkgInfo)
  linkage : Linkage
  config : List (Str × Option Linkage)
  optionsEnv : ResolvedPkg → Str → Option OptionValue
  budget : ℕ

/-- `spn_pin_t`. -/
structure Pin where
  name : Str
  version : Version
  deriving DecidableEq, Repr

/-- `spn_scope_boundary_t`. -/
structure Boundary where
  owner : PkgId
  edge : DepEdge
  req : Req
  deriving DecidableEq, Repr

/-- The pin a retry forces, and the pins of the scope at hand. -/
structure Holds where
  forced : Option Pin
  pins : List Pin
  deriving DecidableEq, Repr

/-- A request that was taken to a package that is already there: who asked,
under which holds, and the package. A note for the proofs, which no function of
the source reads. -/
structure Meeting where
  requester : PkgId
  holds : Holds
  request : Req
  pkg : ResolvedPkg
  deriving DecidableEq, Repr

/-- The fields of `spn_resolve_run_t` the search works on, with `named` of the
scope at hand. -/
@[ext] structure Search where
  named : Table Str ResolvedPkg
  boundaries : List Boundary
  visited : Finset Str
  picks : ℕ
  budget : ℕ
  fatal : Bool
  registry : Registry
  met : List Meeting

/-- A function of the search: a verdict, and the state it leaves. -/
abbrev Answer := Verdict × Search

namespace Resolver

/-- `spn_pkg_config_find` and `kind_query`. -/
def kindQuery (R : Resolver) (name : Str) : KindQuery where
  config := (R.config.find? fun entry => entry.1 = name).bind Prod.snd
  linkage := R.linkage

/-- `node_is_shared`. A package of the index answers by the targets of its
release, a local one by the libraries the registry has for its name. -/
def nodeIsShared (R : Resolver) (registry : Registry) (node : ResolvedPkg) : Bool :=
  match node.source with
  | .index =>
    match node.origin with
    | .release targets => targets.any fun linkages =>
        !linkages.isEmpty &&
          targetSelectsShared (linkages.foldl LinkageSet.add {}) (R.kindQuery node.name)
    | .manifest _ => false
  | .root | .file =>
    match registry.pkgs[node.id.qualified]? with
    | none => false
    | some pkg => pkg.info.libs.any fun lib => targetSelectsShared lib (R.kindQuery node.name)

/-- `classify_dep`. -/
def classifyDep (R : Resolver) (registry : Registry) (node : ResolvedPkg) (dep : Req) : DepEdge :=
  match dep.kind with
  | .build => .process
  | .test => if node.source = .root then .process else .pruned
  | .package => if dep.isPrivate && R.nodeIsShared registry node then .isPrivate else .scope

/-- The node `resolve_local_package` builds: the dependencies that pass their
gates, in canonical order. -/
def localNode (R : Resolver) (pkg : RegistryPkg) : ResolvedPkg :=
  let node : ResolvedPkg :=
    { id := ⟨pkg.info.qualified, pkg.info.version, 0⟩
      name := pkg.info.name
      source := pkg.source
      priority := 0
      deps := []
      edges := []
      origin := .manifest pkg.manifest }
  let live := pkg.info.deps.filter fun dep => whenEval dep.gate (R.optionsEnv node)
  { node with deps := Req.canonical (live.map Dep.req) }

/-- A dependency of a release as a request. -/
def requestOf (dep : IndexDep) : Req :=
  ⟨dep.qualified, dep.kind, dep.isPrivate, .index dep.range⟩

/-- The node `try_candidate` builds. -/
def releaseNode (R : Resolver) (release : Release) : ResolvedPkg :=
  let node : ResolvedPkg :=
    { id := ⟨release.qualified, release.version, 0⟩
      name := release.name
      source := .index
      priority := 0
      deps := []
      edges := []
      origin := .release release.targets }
  let live := release.deps.filter fun dep => whenEval dep.gate (R.optionsEnv node)
  { node with deps := Req.canonical (live.map requestOf) }

end Resolver

/-- `unsatisfiable_err`. -/
def unsatisfiableErr (requester : ResolvedPkg) (request : Req) (kind : Unsat)
    (selected : Version) : Err :=
  .unsatisfiable kind request.qualified request.source.range? requester.id.qualified
    requester.id.version selected

/-- `find_forced`. -/
def findForced (forced : Option Pin) (name : Str) : Option Version :=
  match forced with
  | some pin => if pin.name = name then some pin.version else none
  | none => none

/-- `find_pin`: the version a name is pinned to, and whether another pin of the
name contradicts it. -/
def findPin (pins : List Pin) (name : Str) : Option (Version × Bool) :=
  match pins.filter fun pin => pin.name = name with
  | [] => none
  | pin :: rest => some (pin.version, rest.any fun other => other.version ≠ pin.version)

/-- `find_forced(..) || find_pin(..)`. -/
def Holds.find (holds : Holds) (name : Str) : Option (Version × Bool) :=
  match findForced holds.forced name with
  | some version => some (version, false)
  | none => findPin holds.pins name

/-- `load_file_pkg`: the package the registry has for the name, or the manifest
at the path, which then has to declare the name. -/
def loadFilePkg (R : Resolver) (registry : Registry) (qualified : Str) (path : Path) :
    Except Err (RegistryPkg × Registry) :=
  match registry.pkgs[qualified]? with
  | some existing => .ok (existing, registry)
  | none =>
    match R.manifests[path]? with
    | none => .error (.noManifest path)
    | some none => .error (.manifestIssues qualified path)
    | some (some info) =>
      if info.qualified ≠ qualified then .error (.pkgMismatch path info.qualified qualified)
      else
        let pkg : RegistryPkg := ⟨.file, info, path⟩
        .ok (pkg, registry.insert pkg)

section

variable (R : Resolver) (holds : Holds) (go : Search → ResolvedPkg → Req → Answer)

/-- The loop of `resolve_deps` and of `solve_reqs`: up to the first error. -/
def resolveEach (node : ResolvedPkg) : List Req → Search → Answer
  | [], s => (.ok, s)
  | dep :: rest, s =>
    match go s node dep with
    | (.ok, s) => resolveEach node rest s
    | failed => failed

/-- `resolve_deps`. -/
def resolveDeps (s : Search) (node : ResolvedPkg) : Answer :=
  let answer := resolveEach go node node.deps
    { s with visited := insert node.id.qualified s.visited }
  (answer.1, { answer.2 with visited := answer.2.visited.erase node.id.qualified })

/-- `restore_named`, and the boundaries cut back to their old length. -/
def Search.restore (s before : Search) : Search :=
  { s with
    named := s.named.restrict before.named
    boundaries := s.boundaries.take before.boundaries.length }

/-- `solve_node`. -/
def solveNode (s : Search) (name : Str) (node : ResolvedPkg) : Answer :=
  let node := { node with priority := s.picks }
  match resolveDeps go { s with picks := s.picks + 1, named := s.named.insert name node } node with
  | (.err e, failed) => (.err e, failed.restore s)
  | answer => answer

/-- The answer of the dependencies, undone when it is an error. -/
def Answer.undone (a : Answer) (s : Search) : Answer :=
  match a with
  | (.err e, failed) => (.err e, failed.restore s)
  | answer => answer

theorem solveNode_eq (s : Search) (name : Str) (node : ResolvedPkg) :
    let placed : ResolvedPkg := { node with priority := s.picks }
    let opened : Search := { s with picks := s.picks + 1, named := s.named.insert name placed }
    solveNode go s name node = Answer.undone (resolveDeps go opened placed) s := rfl

/-- What `resolve_local_package` does once it has the package. -/
def solveLocal (s : Search) (requester : ResolvedPkg) (request : Req) (pkg : RegistryPkg) : Answer :=
  let s := { s with
    met := s.met ++ [⟨requester.id, holds, request, R.localNode pkg⟩] }
  match holds.find request.qualified with
  | some (pinned, contradiction) =>
    if contradiction ∨ pkg.info.version ≠ pinned then
      (.err (unsatisfiableErr requester request .conflictExact pinned), s)
    else solveNode go s request.qualified (R.localNode pkg)
  | none => solveNode go s request.qualified (R.localNode pkg)

/-- `resolve_local_package`. A name the scope already has is taken as it is. -/
def resolveLocalPackage (s : Search) (requester : ResolvedPkg) (request : Req) : Answer :=
  if request.qualified ∈ s.visited then (.err (.depCycle request.qualified), s)
  else
    match s.named[request.qualified]? with
    | some existing =>
      (.ok, { s with met := s.met ++ [⟨requester.id, holds, request, existing⟩] })
    | none =>
      match s.registry.pkgs[request.qualified]?, request.source with
      | some pkg, _ => solveLocal R holds go s requester request pkg
      | none, .file path =>
        match loadFilePkg R s.registry request.qualified path with
        | .error e => (.err e, s)
        | .ok (pkg, registry) =>
          solveLocal R holds go { s with registry := registry } requester request pkg
      | none, _ => (.err (.pkgUnknown request.qualified none), s)

/-- `try_candidate`. -/
def tryCandidate (s : Search) (release : Release) : Answer :=
  if s.fatal ∨ s.budget = 0 then
    (.err (.tooComplex release.qualified), { s with fatal := true })
  else
    solveNode go { s with budget := s.budget - 1 } release.qualified (R.releaseNode release)

/-- The loop over the candidates of a free name; `first` is the error the first
of them left. -/
def tryReleases (requester : ResolvedPkg) (request : Req) (range : Range) :
    List Release → Option Err → Search → Answer
  | [], some first, s => (.err first, s)
  | [], none, s => (.err (unsatisfiableErr requester request .noMatch ⟨0, 0, 0⟩), s)
  | release :: rest, first, s =>
    if release.yanked ∨ ¬ release.version.inRange range then
      tryReleases requester request range rest first s
    else
      match tryCandidate R go s release with
      | (.err e, s) =>
        if s.fatal then (.err e, s)
        else tryReleases requester request range rest (first.or (some e)) s
      | answer => answer

/-- `resolve_index_package`. -/
def resolveIndexPackage (s : Search) (requester : ResolvedPkg) (request : Req) (range : Range) :
    Answer :=
  if request.qualified ∈ s.visited then (.err (.depCycle request.qualified), s)
  else
    match s.named[request.qualified]? with
    | some existing =>
      let s := { s with met := s.met ++ [⟨requester.id, holds, request, existing⟩] }
      if existing.id.version.inRange range then (.ok, s)
      else (.err (unsatisfiableErr requester request .conflict existing.id.version), s)
    | none =>
      match R.index.packages[request.qualified]? with
      | none => (.err (.pkgUnknown request.qualified (some range)), s)
      | some (.error diag) => (.err (.index request.qualified diag), s)
      | some (.ok pkg) =>
        match holds.find request.qualified with
        | some (pinned, contradiction) =>
          if contradiction ∨ ¬ pinned.inRange range then
            (.err (unsatisfiableErr requester request .conflict pinned), s)
          else
            match pkg.releases.find? fun release => release.version = pinned with
            | some release => tryCandidate R go s release
            | none => (.err (unsatisfiableErr requester request .conflict pinned), s)
        | none => tryReleases R go requester request range pkg.releases.reverse none s

end

/-- `resolve_dep`, to a depth of nested requests. -/
def resolveDep (R : Resolver) (holds : Holds) : ℕ → Search → ResolvedPkg → Req → Answer
  | 0, s, _, _ => (.stuck, s)
  | depth + 1, s, node, dep =>
    match R.classifyDep s.registry node dep with
    | .pruned => (.ok, s)
    | .process =>
      (.ok, { s with boundaries := s.boundaries ++ [⟨node.id, .process, dep⟩] })
    | .isPrivate =>
      (.ok, { s with boundaries := s.boundaries ++ [⟨node.id, .isPrivate, dep⟩] })
    | .scope =>
      match dep.source with
      | .index range =>
        resolveIndexPackage R holds (resolveDep R holds depth) s node dep range
      | .root | .file _ => resolveLocalPackage R holds (resolveDep R holds depth) s node dep

/-- The id `solve_reqs` asks under, and the one the first scope is kept by. -/
def rootId : PkgId := ⟨[], ⟨0, 0, 0⟩, 0⟩

/-- The node `solve_reqs` asks as. -/
def rootNode : ResolvedPkg where
  id := rootId
  name := []
  source := .root
  priority := 0
  deps := []
  edges := []
  origin := .release []

/-- `solve_reqs`. -/
def solveReqs (R : Resolver) (holds : Holds) (depth : ℕ) (reqs : List Req) (s : Search) : Answer :=
  resolveEach (resolveDep R holds depth) rootNode reqs s

/-- `spn_witness_t`: the assignment a feasible attempt found. -/
structure Witness where
  vals : List (Str × ResolvedPkg)
  boundaries : List Boundary

/-- `attempt_reqs`. The entries of the name table are captured in the order the
table lists them. -/
def attemptReqs (R : Resolver) (holds : Holds) (depth : ℕ)
    (list : List (Str × ResolvedPkg) → List (Str × ResolvedPkg)) (keep : Bool)
    (reqs : List Req) (s : Search) : Verdict × Search × Option Witness :=
  match solveReqs R holds depth reqs s with
  | (.ok, solved) =>
    let witness : Witness :=
      { vals := (list solved.named.toList).filter fun entry => !s.named.contains entry.1
        boundaries := solved.boundaries.drop s.boundaries.length }
    (.ok, if keep then solved else solved.restore s, some witness)
  | (.err e, failed) => (.err e, failed.restore s, none)
  | (.stuck, s) => (.stuck, s, none)

end Spn.Resolve
