import Spn.Resolve.Search

/-! # Scopes

`resolve_scope` and the loop of `solve_once` around it. A scope is a table of
names that was solved on its own; what a node asks for across a boundary goes to
the scope of that boundary. Wherever the source walks a hash table, the order of
the entries is what a `Listing` says for the place.
-/
namespace Spn.Resolve

open Spn.Lib

/-- `spn_scope_t`. -/
structure Scope where
  root : Str
  owner : PkgId
  reqs : List Req
  cursor : ℕ
  named : Table Str ResolvedPkg
  pins : List Pin
  processes : List ℕ

/-- `spn_scope_edge_t`. -/
structure ScopeEdge where
  src : ℕ
  dst : ℕ
  isPrivate : Bool
  deriving DecidableEq, Repr

/-- `spn_resolve_run_t`, with `query->result` and the registry. -/
structure Run where
  result : Table PkgId ResolvedPkg
  scopes : List Scope
  boundaries : List Boundary
  edges : List ScopeEdge
  visited : Finset Str
  picks : ℕ
  budget : ℕ
  fatal : Bool
  forced : Option Pin
  retry : List Pin
  registry : Registry
  met : List Meeting

/-- A walk over a name table: which scope it lists, and for what. A table is
captured and committed more than once, so these tell the time by the picks. -/
inductive Site
  | witness (scope picks : ℕ)
  | commit (scope picks : ℕ)
  | cycles (scope : ℕ)
  | hashes (scope : ℕ)
  | instances (scope : ℕ)
  | duplicates (process scope : ℕ)
  deriving DecidableEq, Repr

/-- The order in which the hash tables list their entries: any one. -/
structure Listing where
  named : Site → List (Str × ResolvedPkg) → List (Str × ResolvedPkg)
  result : ℕ → List (PkgId × ResolvedPkg) → List (PkgId × ResolvedPkg)
  named_perm : ∀ site entries, (named site entries).Perm entries
  result_perm : ∀ picks entries, (result picks entries).Perm entries

/-- The listing that keeps the order of the keys. -/
def Listing.byKey : Listing where
  named _ entries := entries
  result _ entries := entries
  named_perm _ _ := .refl _
  result_perm _ _ := .refl _

/-- A scope nothing was asked of yet. -/
def Scope.fresh (root : Str) (owner : PkgId) : Scope := ⟨root, owner, [], 0, ∅, [], []⟩

namespace Run

/-- The scope is the one of this key. -/
def isScope (root : Str) (owner : PkgId) (scope : Scope) : Bool :=
  scope.root = root && scope.owner.eqv owner

/-- `find_scope`: its index. -/
def findScope (run : Run) (root : Str) (owner : PkgId) : Option ℕ :=
  run.scopes.findIdx? (isScope root owner)

/-- `find_or_create_scope`. -/
def findOrCreateScope (run : Run) (root : Str) (owner : PkgId) : ℕ × Run :=
  match run.findScope root owner with
  | some it => (it, run)
  | none => (run.scopes.length, { run with scopes := run.scopes ++ [Scope.fresh root owner] })

/-- What the search sees of a run in one of its scopes. -/
def search (run : Run) (scope : Scope) : Search where
  named := scope.named
  boundaries := run.boundaries
  visited := run.visited
  picks := run.picks
  budget := run.budget
  fatal := run.fatal
  registry := run.registry
  met := run.met

/-- A run after a search in one of its scopes. -/
def absorb (run : Run) (it : ℕ) (scope : Scope) (s : Search) : Run :=
  { run with
    scopes := run.scopes.set it { scope with named := s.named }
    boundaries := s.boundaries
    visited := s.visited
    picks := s.picks
    budget := s.budget
    fatal := s.fatal
    registry := s.registry
    met := s.met }

/-- The picks of earlier scopes as pins, `sort_pick_by_priority`. -/
def picksOf (L : Listing) (run : Run) : List Pin :=
  let picks := (L.result run.picks run.result.toList).map Prod.snd
  (picks.insertionSort fun a b => a.priority ≤ b.priority).map fun pick =>
    ⟨pick.id.qualified, pick.id.version⟩

end Run

/-- The walk over the pins: one is kept if an assignment exists that agrees with
it and with those kept before. -/
def walkPins (R : Resolver) (L : Listing) (it : ℕ) (forced : Option Pin) (depth : ℕ)
    (reqs : List Req) : List Pin → List Pin → Option Witness → Search →
    Verdict × Search × List Pin × Option Witness
  | [], kept, witness, s => (.ok, s, kept, witness)
  | pin :: rest, kept, witness, s =>
    match attemptReqs R ⟨forced, kept ++ [pin]⟩ depth (L.named (.witness it s.picks)) false reqs s with
    | (.ok, s, found) => walkPins R L it forced depth reqs rest (kept ++ [pin]) found s
    | (.err e, s, _) =>
      if s.fatal then (.err e, s, kept ++ [pin], witness)
      else walkPins R L it forced depth reqs rest kept witness s
    | (.stuck, s, _) => (.stuck, s, kept ++ [pin], witness)

/-- The assignment of a witness, written into the scope. -/
def Search.adopt (s : Search) (witness : Witness) : Search :=
  { s with
    named := witness.vals.foldl (fun named entry => named.insert entry.1 entry.2) s.named
    boundaries := s.boundaries ++ witness.boundaries }

/-- The body of `resolve_scope` under pins: all of them, then one by one. -/
def resolvePinned (R : Resolver) (L : Listing) (it : ℕ) (forced : Option Pin) (depth : ℕ)
    (reqs : List Req) (pins kept : List Pin) (s : Search) : Verdict × Search × List Pin :=
  match attemptReqs R ⟨forced, kept ++ pins⟩ depth (L.named (.witness it s.picks)) true reqs s with
  | (.ok, s, _) => (.ok, s, kept ++ pins)
  | (.stuck, s, _) => (.stuck, s, kept ++ pins)
  | (.err e, s, _) =>
    if s.fatal then (.err e, s, kept ++ pins)
    else
      match walkPins R L it forced depth reqs pins [] none s with
      | (.ok, s, kept, some witness) => (.ok, s.adopt witness, kept)
      | (.ok, s, kept, none) =>
        let answer := solveReqs R ⟨forced, kept⟩ depth reqs s
        (answer.1, answer.2, kept)
      | (failed, s, kept, _) => (failed, s, kept)

/-- `resolve_scope`. -/
def resolveScope (R : Resolver) (L : Listing) (depth : ℕ) (run : Run) (it : ℕ) (scope : Scope) :
    Verdict × Run :=
  let seen := scope.cursor
  let fresh := Req.canonical (scope.reqs.drop seen)
  let scope := { scope with cursor := scope.reqs.length, reqs := scope.reqs.take seen ++ fresh }
  let run := { run with budget := R.budget }
  if 0 < seen ∨ run.result.size = 0 then
    let answer := solveReqs R ⟨run.forced, scope.pins⟩ depth fresh (run.search scope)
    (answer.1, run.absorb it scope answer.2)
  else
    let answer := resolvePinned R L it run.forced depth fresh (run.picksOf L) scope.pins
      (run.search scope)
    (answer.1, run.absorb it { scope with pins := answer.2.2 } answer.2.1)

namespace Run

/-- `commit_scope`. -/
def commitScope (L : Listing) (run : Run) (it : ℕ) (scope : Scope) : Run :=
  let entries := L.named (.commit it run.picks) scope.named.toList
  { run with result := entries.foldl (fun result entry => result.insertIfNew entry.2.id entry.2) run.result }

/-- One boundary of `process_boundaries`: its scope gets the request as a plain
one. -/
def processBoundary (src : ℕ) (run : Run) (boundary : Boundary) : Run :=
  let root := if boundary.edge = .isPrivate then boundary.owner.qualified else boundary.req.qualified
  let (dst, run) := run.findOrCreateScope root boundary.owner
  let req := { boundary.req with kind := .package, isPrivate := false }
  { run with
    edges := run.edges ++ [⟨src, dst, boundary.edge = .isPrivate⟩]
    scopes := run.scopes.modify dst fun scope => { scope with reqs := scope.reqs ++ [req] } }

/-- `process_boundaries`. -/
def processBoundaries (run : Run) (src : ℕ) : Run :=
  { run.boundaries.foldl (processBoundary src) run with boundaries := [] }

end Run

/-- One scope of the loop in `solve_once`. -/
def solveScope (R : Resolver) (L : Listing) (depth : ℕ) (run : Run) (it : ℕ) (scope : Scope) :
    Verdict × Run :=
  match resolveScope R L depth run it scope with
  | (.ok, run) =>
    match run.scopes[it]? with
    | some scope => (.ok, (run.commitScope L it scope).processBoundaries it)
    | none => (.stuck, run)
  | failed => failed

/-- The loop of `solve_once`: over the scopes, the new ones included, and again
as long as a round found requests nobody had looked at. -/
def solveScopes (R : Resolver) (L : Listing) (depth : ℕ) : ℕ → ℕ → Bool → Run → Verdict × Run
  | 0, _, _, run => (.stuck, run)
  | fuel + 1, it, progress, run =>
    match run.scopes[it]? with
    | none => if progress then solveScopes R L depth fuel 0 false run else (.ok, run)
    | some scope =>
      if scope.cursor = scope.reqs.length then solveScopes R L depth fuel (it + 1) progress run
      else
        match solveScope R L depth run it scope with
        | (.ok, run) => solveScopes R L depth fuel (it + 1) true run
        | failed => failed

/-! ## Processes -/

/-- `scope_add_process`. -/
def Scope.addProcess (scope : Scope) (process : ℕ) : Scope :=
  if process ∈ scope.processes then scope
  else { scope with processes := scope.processes ++ [process] }

/-- The processes of the scopes before they spread: the first scope is one, and
so is the target of every edge that is not private. -/
def seedProcesses (edges : List ScopeEdge) (scopes : List Scope) : List Scope :=
  edges.foldl
    (fun scopes edge =>
      if edge.isPrivate then scopes else scopes.modify edge.dst (·.addProcess edge.dst))
    (scopes.modify 0 (·.addProcess 0))

/-- A private edge of a round in `compute_processes`, and whether it changed
anything. -/
def spreadEdge (state : List Scope × Bool) (edge : ScopeEdge) : List Scope × Bool :=
  let (scopes, changed) := state
  match edge.isPrivate, scopes[edge.src]?, scopes[edge.dst]? with
  | true, some src, some dst =>
    if src.processes.all (· ∈ dst.processes) then (scopes, changed)
    else (scopes.set edge.dst (src.processes.foldl Scope.addProcess dst), true)
  | _, _, _ => (scopes, changed)

/-- The loop of `compute_processes`: rounds over the private edges until nothing
changes. -/
def spreadProcesses (edges : List ScopeEdge) : ℕ → List Scope → Option (List Scope)
  | 0, _ => none
  | fuel + 1, scopes =>
    match edges.foldl spreadEdge (scopes, false) with
    | (scopes, false) => some scopes
    | (scopes, true) => spreadProcesses edges fuel scopes

/-- `compute_processes`. The rounds suffice: every round but the last one adds a
process to a scope. -/
def computeProcesses (edges : List ScopeEdge) (scopes : List Scope) : Option (List Scope) :=
  spreadProcesses edges (scopes.length * scopes.length + 1) (seedProcesses edges scopes)

end Spn.Resolve
