import Spn.Lib.Table
import Spn.Paths
import Spn.Semver

/-! # Packages and requests

The data of `resolve/types.h`, `pkg/types.h`, `index/types.h` and the session's
registry, as far as the resolver reads it. A package goes by its canonical
qualified name; ids an interner gives to names only place entries in hash
tables. A node points at its release or its manifest; of these it keeps what is
read through the pointer.
-/
namespace Spn.Resolve

open Spn.Lib

/-- `spn_linkage_t`. -/
inductive Linkage
  | none | shared | static | source | object
  deriving DecidableEq, Repr

/-- `spn_linkage_set_t`. -/
structure LinkageSet where
  source : Bool := false
  shared : Bool := false
  staticLib : Bool := false
  object : Bool := false
  deriving DecidableEq, Repr

namespace LinkageSet

/-- `spn_linkage_set_has`. -/
def has (s : LinkageSet) : Linkage → Bool
  | .source => s.source
  | .shared => s.shared
  | .static => s.staticLib
  | .object => s.object
  | .none => false

/-- `spn_linkage_set_add`. -/
def add (s : LinkageSet) : Linkage → LinkageSet
  | .source => { s with source := true }
  | .shared => { s with shared := true }
  | .static => { s with staticLib := true }
  | .object => { s with object := true }
  | .none => s

end LinkageSet

/-- `spn_kind_query_t`: the kind the root's config asks for, and the linkage of
the profile. -/
structure KindQuery where
  config : Option Linkage
  linkage : Linkage

/-- `spn_target_select_lib_kind`: nothing where the selection fails. -/
def selectLibKind (supported : LinkageSet) (query : KindQuery) : Option Linkage :=
  match query.config with
  | some kind => if supported.has kind then some kind else none
  | none =>
    match query.linkage with
    | .static | .source => [Linkage.source, .static].find? supported.has
    | .shared | .none => [Linkage.source, .static, .shared].find? supported.has
    | .object => none

/-- `target_selects_shared`. -/
def targetSelectsShared (linkages : LinkageSet) (query : KindQuery) : Bool :=
  selectLibKind linkages query = some .shared

/-- `spn_option_value_t`. -/
inductive OptionValue
  | none
  | bool (b : Bool)
  | str (s : Str)
  deriving DecidableEq, Repr

/-- `spn_when_clause_t`. -/
structure Clause where
  key : Str
  value : OptionValue
  negated : Bool
  deriving DecidableEq, Repr

/-- `spn_when_eval`. -/
def whenEval (clauses : List Clause) (env : Str → Option OptionValue) : Bool :=
  clauses.all fun clause =>
    match env clause.key with
    | none => false
    | some current => decide (current = clause.value) != clause.negated

/-- `spn_pkg_source_t`. -/
inductive PkgSource
  | root | file | index
  deriving DecidableEq, Repr

/-- `spn_dep_kind_t`. -/
inductive DepKind
  | package | build | test
  deriving DecidableEq, Repr

/-- The value of the enumerator. -/
def DepKind.toNat : DepKind → ℕ
  | .package => 0 | .build => 1 | .test => 2

theorem DepKind.toNat_injective : Function.Injective DepKind.toNat := by
  intro a b h
  cases a <;> cases b <;> first | rfl | (simp [DepKind.toNat] at h)

/-- Where a request looks: `source` and the member of the union that goes with
it. -/
inductive ReqSource
  | root
  | file (path : Path)
  | index (range : Range)
  deriving DecidableEq, Repr

namespace ReqSource

/-- The value of the enumerator. -/
def toNat : ReqSource → ℕ
  | .root => 0 | .file _ => 1 | .index _ => 2

def range? : ReqSource → Option Range
  | .index range => some range
  | _ => none

end ReqSource

/-- `spn_requested_dep_t`, without the gate. -/
@[ext] structure Req where
  qualified : Str
  kind : DepKind
  isPrivate : Bool
  source : ReqSource
  deriving DecidableEq, Repr

/-- A dependency a manifest lists. -/
structure Dep where
  req : Req
  gate : List Clause

/-- `spn_index_dep_t`. -/
structure IndexDep where
  qualified : Str
  kind : DepKind
  isPrivate : Bool
  range : Range
  gate : List Clause

/-- `spn_index_release_t`. -/
structure Release where
  qualified : Str
  name : Str
  version : Version
  yanked : Bool
  deps : List IndexDep
  targets : List (List Linkage)

/-- `spn_index_pkg_t`: the releases in ascending order. A line that repeats a
version is refused when the package is parsed. -/
structure IndexPkg where
  releases : List Release
  ascending : releases.Pairwise fun a b => a.version.le b.version = true

/-- What looking a package up in the index can go wrong with. -/
inductive IndexErr
  | manifestIssues (path : Str)
  | corrupt (path : Str)
  | pathDep (dep : Str)
  | other (code : ℕ)
  deriving DecidableEq, Repr

/-- `spn_index_cache_t`: what a lookup answers for each name. -/
structure Index where
  packages : Table Str (Except IndexErr IndexPkg)
  own : ∀ (name : Str) (pkg : IndexPkg), packages[name]? = some (.ok pkg) →
    ∀ release ∈ pkg.releases, release.qualified = name

/-- `spn_pkg_info_t`: a manifest. -/
structure PkgInfo where
  qualified : Str
  name : Str
  version : Version
  deps : List Dep
  libs : List LinkageSet

/-- `spn_registry_pkg_t`. -/
structure RegistryPkg where
  source : PkgSource
  info : PkgInfo
  manifest : Path

/-- `spn_pkg_registry_t`: the local packages by name. Every insertion uses the
name the manifest declares. -/
@[ext] structure Registry where
  pkgs : Table Str RegistryPkg
  own : ∀ (name : Str) (pkg : RegistryPkg), pkgs[name]? = some pkg → pkg.info.qualified = name

/-- `sp_ht_insert(*resolver->registry, id, ..)`. -/
def Registry.insert (registry : Registry) (pkg : RegistryPkg) : Registry where
  pkgs := registry.pkgs.insert pkg.info.qualified pkg
  own name p h := by
    rcases (Table.getElem?_insert_eq_some _).1 h with ⟨rfl, rfl⟩ | ⟨-, h⟩
    · rfl
    · exact registry.own _ _ h

/-- `spn_pkg_id_t`. -/
@[ext] structure PkgId where
  qualified : Str
  version : Version
  hash : ℕ
  deriving DecidableEq, Repr

namespace PkgId

/-- The order of the keys in a table of ids. -/
def cmp : PkgId → PkgId → Ordering :=
  compareLex (compareOn qualified) (compareLex (compareOn version) (compareOn hash))

instance : Ord PkgId := ⟨cmp⟩

instance : Std.TransOrd PkgId := by
  show Std.TransCmp cmp
  unfold cmp
  infer_instance

instance : Std.LawfulEqOrd PkgId where
  compare_self {_} := Std.ReflOrd.compare_self
  eq_of_compare {a b} h := by
    have h : cmp a b = .eq := h
    simp only [cmp, compareLex, Ordering.then_eq_eq, compareOn] at h
    obtain ⟨hq, hv, hh⟩ := h
    exact PkgId.ext (Std.LawfulEqOrd.eq_of_compare hq) (Std.LawfulEqOrd.eq_of_compare hv)
      (Std.LawfulEqOrd.eq_of_compare hh)

/-- `spn_pkg_id_eq`: the hash is not compared. -/
def eqv (a b : PkgId) : Bool := a.qualified = b.qualified ∧ a.version = b.version

end PkgId

/-- `spn_dep_edge_t`. -/
inductive DepEdge
  | scope | process | isPrivate | pruned
  deriving DecidableEq, Repr

/-- `spn_resolved_dep_t`. -/
structure ResolvedDep where
  id : PkgId
  kind : DepKind
  edge : DepEdge
  isPrivate : Bool
  deriving DecidableEq, Repr

/-- What a node reads of its origin: the targets of its release, or the path of
its manifest. -/
inductive Origin
  | release (targets : List (List Linkage))
  | manifest (path : Path)
  deriving DecidableEq, Repr

/-- `spn_resolved_pkg_t`. -/
structure ResolvedPkg where
  id : PkgId
  name : Str
  source : PkgSource
  priority : ℕ
  deps : List Req
  edges : List ResolvedDep
  origin : Origin
  deriving DecidableEq, Repr

end Spn.Resolve
