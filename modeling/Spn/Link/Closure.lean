import Spn.Lib.PostOrder
import Spn.Resolve.Types

/-! # What a target links

`unit/link.c` over the units of a session: the packages behind a target in the order of
the linker's command line, and the shared libraries it needs when it runs. Units are named
by `P` and targets by `T`; the walks mark them, so a walk over `Fintype.card P` units is
never more than that deep.
-/
namespace Spn.Link

instance neZeroTwo : NeZero 2 := ⟨two_ne_zero⟩

open Spn.Lib Spn.Lib.PostOrder
open Spn.Resolve (DepKind Linkage)

/-- `spn_target_kind_t`. -/
inductive TargetKind
  | lib | exe | script | test | exampleExe | configureMetaprogram | buildMetaprogram
  deriving DecidableEq, Repr

/-- `spn_pkg_dep_t`. -/
structure PkgDep (P : Type) where
  unit : P
  kind : DepKind
  isPrivate : Bool
  deriving DecidableEq

/-- What the walks read of `spn_pkg_unit_t`. -/
structure PkgUnit (P T : Type) where
  deps : List (PkgDep P)
  libs : List T

/-- What the walks read of `spn_target_unit_t` and of its `info`. -/
structure TargetUnit (P T : Type) where
  pkg : P
  kind : TargetKind
  libKind : Linkage
  noLink : Bool
  deps : List T

/-- The units behind the pointers. -/
structure Units (P T : Type) where
  pkg : P → PkgUnit P T
  target : T → TargetUnit P T

/-- `spn_closure_entry_t`. -/
structure Entry (P T : Type) where
  pkg : P
  targets : List T
  isPrivate : Bool
  linksCode : Bool
  deriving DecidableEq

/-- `edge_links`. -/
def edgeLinks {P : Type} (dep : PkgDep P) (tests builds : Bool) : Bool :=
  match dep.kind with
  | .package => !builds
  | .test => tests
  | .build => builds

namespace Units

variable {P T : Type} (u : Units P T)

/-- `pkg_is_shared_boundary`. -/
def pkgIsSharedBoundary (p : P) : Bool :=
  (u.pkg p).libs.any fun lib => (u.target lib).libKind = .shared

/-- `pkg_links_code`. -/
def pkgLinksCode (p : P) : Bool :=
  ((u.pkg p).libs.any fun lib =>
    !(u.target lib).noLink && (u.target lib).libKind != .shared) || (u.pkg p).libs.isEmpty

/-- `sibling_code_links`. -/
def siblingCodeLinks (dep : T) : Bool :=
  if (u.target dep).noLink then false
  else
    match (u.target dep).libKind with
    | .static | .source | .object => true
    | .shared | .none => false

variable [DecidableEq P] [DecidableEq T]

/-- `collect`; the `order` of the trail is the `closure` of `search_t`. -/
def collect : ℕ → P → Bool → Bool → Bool → Trail P Bool → Trail P Bool
  | 0, _, _, _, _, s => s
  | depth + 1, p, isPrivate, tests, builds, s =>
    (u.pkg p).deps.foldl (fun s dep =>
      if !edgeLinks dep tests builds then s
      else if dep.unit ∈ s.visited then s
      else
        let s := { s with visited := dep.unit :: s.visited }
        let s :=
          -- a shared library has resolved its dependencies itself
          if u.pkgIsSharedBoundary dep.unit then s
          else collect depth dep.unit (isPrivate || dep.isPrivate) false false s
        { s with order := s.order ++ [(dep.unit, isPrivate || dep.isPrivate)] }) s

/-- `collect_siblings`. -/
def collectSiblings : ℕ → T → Trail T Unit → Trail T Unit
  | 0, _, s => s
  | depth + 1, target, s =>
    (u.target target).deps.foldl (fun s dep =>
      if dep ∈ s.visited then s
      else
        let s := { s with visited := dep :: s.visited }
        let s := if u.siblingCodeLinks dep then collectSiblings depth dep s else s
        { s with order := s.order ++ [(dep, ())] }) s

/-- `collect_runtime`. -/
def collectRuntime : ℕ → P → Bool → Bool → Trail P Unit → Trail P Unit
  | 0, _, _, _, s => s
  | depth + 1, p, tests, builds, s =>
    (u.pkg p).deps.foldl (fun s dep =>
      if !edgeLinks dep tests builds then s
      else if dep.unit ∈ s.visited then s
      else
        let s := collectRuntime depth dep.unit false false
          { s with visited := dep.unit :: s.visited }
        { s with order := s.order ++ [(dep.unit, ())] }) s

/-- `push_unique_runtime_lib`: `unique` holds what is in `libs`. -/
def pushUniqueRuntimeLib (libs : List T) (lib : T) : List T :=
  if (u.target lib).noLink then libs
  else if (u.target lib).libKind ≠ .shared then libs
  else if lib ∈ libs then libs
  else libs ++ [lib]

/-- `collect_runtime_siblings` on what was seen, newest first, and the libraries. -/
def collectRuntimeSiblings : ℕ → T → List T × List T → List T × List T
  | 0, _, s => s
  | depth + 1, target, s =>
    (u.target target).deps.foldl (fun s dep =>
      if dep ∈ s.1 then s
      else collectRuntimeSiblings depth dep (dep :: s.1, u.pushUniqueRuntimeLib s.2 dep)) s

variable [Fintype P] [Fintype T]

/-- `sibling_link_targets`. -/
def siblingLinkTargets (root : T) : List T :=
  (keys (u.collectSiblings (Fintype.card T) root ⟨[root], []⟩).order).reverse

/-- The flags a walk starts with: whether edges of tests and of build scripts count. -/
def rootTests (root : T) : Bool := (u.target root).kind = .test

def rootBuilds (root : T) : Bool := (u.target root).kind = .buildMetaprogram

/-- `spn_target_link_closure`. -/
def targetLinkClosure (root : T) : List (Entry P T) :=
  let rootPkg := (u.target root).pkg
  let first : Entry P T := ⟨rootPkg, u.siblingLinkTargets root, false, true⟩
  if (u.target root).kind = .configureMetaprogram then [first]
  else
    let search := u.collect (Fintype.card P) rootPkg false (u.rootTests root) (u.rootBuilds root)
      ⟨[rootPkg], []⟩
    first :: search.order.reverse.map fun found =>
      ⟨found.1, (u.pkg found.1).libs, found.2, u.pkgLinksCode found.1⟩

/-- `spn_target_runtime_libs`. -/
def targetRuntimeLibs (root : T) : List T :=
  let rootPkg := (u.target root).pkg
  let search := u.collectRuntime (Fintype.card P) rootPkg (u.rootTests root) (u.rootBuilds root)
    ⟨[rootPkg], []⟩
  let siblings := u.collectRuntimeSiblings (Fintype.card T + 1) root ([], [])
  (search.order.flatMap fun found => (u.pkg found.1).libs).foldl u.pushUniqueRuntimeLib siblings.2

end Units

end Spn.Link
