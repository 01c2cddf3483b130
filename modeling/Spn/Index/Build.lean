import Spn.Index.Release
import Spn.Strings

/-! # The release of a package

What a release is built from: `codegen/when.c` and `codegen/options.c` load the gates and
the defaults of a manifest, `codegen/lower.c` lowers its package, its dependencies, its
options and its libraries, `index/release.c` makes the release. An error while a manifest
is loaded or lowered is no package in the end. The checks `validate_*` make of what was
lowered are given: they only refuse more.
-/
namespace Spn.Index

open Spn.Resolve (Linkage LinkageSet OptionValue Clause DepKind)
open Spn.Options (OptionType OptionDefault OptionInfo)
open Spn.Publish (PkgName)
open Spn.Semver

/-! ## Loading -/

/-- A TOML value; of other values nothing is read. -/
inductive Toml
  | str (s : Str)
  | bool (b : Bool)
  | table (fields : List (Str × Toml))
  | arr (elements : List Toml)
  | other

/-- `spn_toml_loader_value_str`, `spn_toml_loader_value_bool`. -/
def Toml.value? : Toml → Option OptionValue
  | .str s => some (.str s)
  | .bool b => some (.bool b)
  | _ => none

/-- The loop body of `spn_toml_loader_read_when`. -/
def tomlClause (field : Str × Toml) : Option Clause :=
  match field.2 with
  | .table [(key, negation)] =>
    if key = str "not" then negation.value?.map fun value => ⟨field.1, value, true⟩ else none
  | value => value.value?.map fun value => ⟨field.1, value, false⟩

/-- `spn_toml_loader_read_when`. -/
def tomlWhen : Option Toml → Option (List Clause)
  | none => some []
  | some (.table fields) => fields.mapM tomlClause
  | some _ => none

/-- The field of a table. -/
def tomlField (fields : List (Str × Toml)) (key : Str) : Option Toml :=
  (fields.find? fun field => field.1 = key).map Prod.snd

/-- An element of an array of defaults. -/
def tomlDefault : Toml → Option OptionDefault
  | .table fields =>
    if fields.all fun field => field.1 = str "value" ∨ field.1 = str "when" then do
      let value ← (tomlField fields (str "value")).bind Toml.value?
      let gate ← tomlWhen (tomlField fields (str "when"))
      return ⟨gate, value⟩
    else none
  | _ => none

/-- `spn_toml_loader_read_option_defaults`. -/
def tomlDefaults : Option Toml → Option (List OptionDefault)
  | none => some []
  | some (.arr elements) => elements.mapM tomlDefault
  | some value => value.value?.map fun value => [⟨[], value⟩]

/-- `spn_cg_dep_t`, with its gates as they are in the file. -/
structure ManifestDep where
  version : List Char
  path : Str
  isPrivate : Option Bool
  gate : Option Toml
  options : Option Toml

/-- `spn_cg_option_t`. -/
structure ManifestOption where
  type : OptionType
  values : List Str
  defaults : Option Toml
  additive : Option Bool
  isPublic : Option Bool
  define : Str

/-- `spn_cg_manifest_t`, as far as a release is made of it. -/
structure Manifest where
  ns : Str
  name : Str
  version : List Char
  url : Str
  commit : Str
  package : List (Str × ManifestDep)
  test : List (Str × ManifestDep)
  build : List (Str × ManifestDep)
  options : List (Str × ManifestOption)
  libs : List (Str × List Str)

/-! ## Lowering -/

/-- `lower_qualify`. -/
def lowerQualify (ns name : Str) : Str :=
  if name = [] then name else (if ns = [] then str "core" else ns) ++ str "/" ++ name

/-- `lower_canonicalize`. -/
def lowerCanonicalize (name : Str) : Str :=
  if name = [] then name
  else
    let pair := cleave name slash
    if pair.2 = [] then lowerQualify (str "core") name else lowerQualify pair.1 pair.2

/-- `spn_requested_dep_t`; a request for a path has no range. -/
structure RequestedDep where
  qualified : Str
  kind : DepKind
  isPrivate : Bool
  range : Option Range
  gate : List Clause
  options : List Clause

/-- `spn_pkg_info_t`, as far as a release is made of it. -/
structure PkgInfo where
  qualified : Str
  version : Version
  url : Str
  commit : Str
  deps : List RequestedDep
  options : OptionDecls
  libs : List (Str × LinkageSet)

/-- `lower_dep`. -/
def lowerDep (kind : DepKind) (entry : Str × ManifestDep) : Option RequestedDep := do
  let (name, dep) := entry
  let gate ← tomlWhen dep.gate
  let options ← tomlWhen dep.options
  let request (range : Option Range) : RequestedDep :=
    ⟨lowerCanonicalize name, kind, dep.isPrivate.getD false, range, gate, options⟩
  if dep.path ≠ [] then
    if dep.version ≠ [] then none else return request none
  else if dep.version = [] then none
  else
    let range ← parseRange dep.version
    return request (some range)

/-- The loop body of `lower_options`. -/
def lowerOption (entry : Str × ManifestOption) : Option OptionDecl := do
  let (name, option) := entry
  let defaults ← tomlDefaults option.defaults
  return {
    name := name
    type := option.type
    additive := option.additive.getD false
    values := option.values
    defaults := defaults
    isPublic := option.isPublic.getD false
    define := option.define }

/-- `spn_linkage_from_str`. -/
def linkageFromStr (s : Str) : Linkage :=
  if s = str "shared" then .shared
  else if s = str "static" then .static
  else if s = str "source" then .source
  else if s = str "object" then .object
  else .none

/-- `lower_linkages`. -/
def lowerLinkages (kinds : List Str) : LinkageSet :=
  kinds.foldl (fun set kind => set.add (linkageFromStr kind)) {}

/-- `spn_pkg_lower`; `checks` are those of `validate_*`, and of what is lowered besides. -/
def lower (checks : Manifest → PkgInfo → Bool) (m : Manifest) : Option PkgInfo := do
  let version ← parse m.version
  let package ← m.package.mapM (lowerDep .package)
  let test ← m.test.mapM (lowerDep .test)
  let build ← m.build.mapM (lowerDep .build)
  let options ← m.options.mapM lowerOption
  let info : PkgInfo := {
    qualified := lowerQualify m.ns m.name
    version := version
    url := m.url
    commit := m.commit
    deps := package ++ test ++ build
    options := .ofList options
    libs := m.libs.map fun lib => (lib.1, lowerLinkages lib.2) }
  if checks m info then some info else none

/-! ## The release -/

/-- `dep_kind_to_index`. -/
def depKindToIndex : DepKind → IndexDepKind
  | .package => .normal
  | .build => .build
  | .test => .test

/-- `spn_pkg_name_from_qualified`. -/
def pkgNameFromQualified (qualified : Str) : PkgName :=
  let pair := cleave qualified slash
  if pair.2 = [] then ⟨str "core", qualified⟩ else ⟨pair.1, pair.2⟩

/-- `spn_pkg_upstream`. -/
def pkgUpstream (info : PkgInfo) : PkgRoot :=
  if info.url = [] then .none else .git info.url info.commit []

/-- A dependency of a release, or the name of the one that is not in an index. -/
def releaseDep (req : RequestedDep) : Except Str IndexDep :=
  match req.range with
  | none => .error req.qualified
  | some range => .ok ⟨depKindToIndex req.kind, req.isPrivate, pkgNameFromQualified req.qualified,
      range, req.gate, req.options⟩

/-- A target of a release. -/
def releaseTarget (lib : Str × LinkageSet) : CgTarget :=
  ⟨lib.1, [Linkage.source, .static, .shared, .object].filter lib.2.has⟩

/-- `spn_index_release_from_pkg`: the name of a dependency that is not in an index for
`SPN_ERR_INDEX_PATH_DEP`. -/
def releaseFromPkg (info : PkgInfo) (published : PkgRoot) : Except Str Release := do
  let upstream := pkgUpstream info
  let deps ← info.deps.mapM releaseDep
  return {
    id := pkgNameFromQualified info.qualified
    version := info.version
    yanked := false
    source := if upstream = .none then published else upstream
    manifest := if upstream = .none then .none else published
    paths := ⟨str "spn.toml", str "spn.c"⟩
    deps := deps
    targets := info.libs.map releaseTarget
    options := info.options }

/-! ## What lowering leaves -/

theorem mem_of_mapM {α β : Type*} {f : α → Option β} {l : List α} {r : List β}
    (h : l.mapM f = some r) {b : β} (hb : b ∈ r) : ∃ a ∈ l, f a = some b := by
  induction l generalizing r with
  | nil =>
    cases h
    cases hb
  | cons a rest ih =>
    simp only [List.mapM_cons, Option.bind_eq_bind, Option.bind_eq_some_iff, Option.pure_def,
      Option.some.injEq] at h
    obtain ⟨b', hb', r', hr', rfl⟩ := h
    rcases List.mem_cons.1 hb with rfl | hmem
    · exact ⟨a, List.mem_cons_self, hb'⟩
    · obtain ⟨a', ha', hfa'⟩ := ih hr' hmem
      exact ⟨a', List.mem_cons_of_mem _ ha', hfa'⟩

theorem mem_of_mapM_except {ε α β : Type*} {f : α → Except ε β} {l : List α} {r : List β}
    (h : l.mapM f = .ok r) {b : β} (hb : b ∈ r) : ∃ a ∈ l, f a = .ok b := by
  induction l generalizing r with
  | nil =>
    cases h
    cases hb
  | cons a rest ih =>
    rw [List.mapM_cons] at h
    cases hfa : f a with
    | error e =>
      rw [hfa] at h
      cases h
    | ok b' =>
      cases hrest : rest.mapM f with
      | error e =>
        rw [hfa, hrest] at h
        cases h
      | ok r' =>
        rw [hfa, hrest] at h
        cases h
        rcases List.mem_cons.1 hb with rfl | hmem
        · exact ⟨a, List.mem_cons_self, hfa⟩
        · obtain ⟨a', ha', hfa'⟩ := ih hrest hmem
          exact ⟨a', List.mem_cons_of_mem _ ha', hfa'⟩

theorem value_ne_none {toml : Toml} {value : OptionValue} (h : toml.value? = some value) :
    value ≠ .none := by
  cases toml <;> cases h <;> exact fun h => by cases h

/-- A clause that is loaded has a value. -/
theorem valued_of_tomlClause {field : Str × Toml} {clause : Clause}
    (h : tomlClause field = some clause) : clause.value ≠ .none := by
  unfold tomlClause at h
  split at h
  · simp only [Option.ite_none_right_eq_some, Option.map_eq_some_iff] at h
    obtain ⟨-, value, hvalue, rfl⟩ := h
    exact value_ne_none hvalue
  · obtain ⟨value, hvalue, rfl⟩ := Option.map_eq_some_iff.1 h
    exact value_ne_none hvalue

theorem valued_of_tomlWhen {toml : Option Toml} {clauses : List Clause}
    (h : tomlWhen toml = some clauses) : Valued clauses := by
  intro clause hclause
  unfold tomlWhen at h
  split at h
  · cases h
    cases hclause
  · obtain ⟨field, -, hfield⟩ := mem_of_mapM h hclause
    exact valued_of_tomlClause hfield
  · cases h

theorem valued_of_tomlDefault {toml : Toml} {entry : OptionDefault}
    (h : tomlDefault toml = some entry) : entry.value ≠ .none ∧ Valued entry.gate := by
  unfold tomlDefault at h
  split at h
  · simp only [Option.ite_none_right_eq_some, Option.bind_eq_bind, Option.bind_eq_some_iff,
      Option.pure_def, Option.some.injEq] at h
    obtain ⟨-, value, ⟨toml, -, hvalue⟩, gate, hgate, rfl⟩ := h
    exact ⟨value_ne_none hvalue, valued_of_tomlWhen hgate⟩
  · cases h

theorem valued_of_tomlDefaults {toml : Option Toml} {defaults : List OptionDefault}
    (h : tomlDefaults toml = some defaults) {entry : OptionDefault} (hmem : entry ∈ defaults) :
    entry.value ≠ .none ∧ Valued entry.gate := by
  unfold tomlDefaults at h
  split at h
  · cases h
    cases hmem
  · obtain ⟨element, -, helement⟩ := mem_of_mapM h hmem
    exact valued_of_tomlDefault helement
  · obtain ⟨value, hvalue, rfl⟩ := Option.map_eq_some_iff.1 h
    rw [List.mem_singleton.1 hmem]
    exact ⟨value_ne_none hvalue, fun clause hclause => by cases hclause⟩

/-- What a package has of being lowered. -/
structure PkgInfo.Lowered (info : PkgInfo) : Prop where
  version : info.version.Fits
  ranges : ∀ dep ∈ info.deps, ∀ range, dep.range = some range →
    ∃ text, parseRange text = some range
  gates : ∀ dep ∈ info.deps, Valued dep.gate ∧ Valued dep.options
  defaults : ∀ option ∈ info.options.list, ∀ entry ∈ option.defaults,
    entry.value ≠ .none ∧ Valued entry.gate

theorem lowerDep_spec {kind : DepKind} {entry : Str × ManifestDep} {dep : RequestedDep}
    (h : lowerDep kind entry = some dep) :
    (∀ range, dep.range = some range → ∃ text, parseRange text = some range) ∧
      Valued dep.gate ∧ Valued dep.options := by
  unfold lowerDep at h
  simp only [Option.bind_eq_bind, Option.bind_eq_some_iff] at h
  obtain ⟨gate, hgate, options, hoptions, h⟩ := h
  split at h
  · split at h
    · cases h
    · cases h
      refine ⟨fun range hrange => ?_, valued_of_tomlWhen hgate, valued_of_tomlWhen hoptions⟩
      cases hrange
  · split at h
    · cases h
    · obtain ⟨range, hrange, h⟩ := Option.bind_eq_some_iff.1 h
      cases h
      refine ⟨fun range' hrange' => ?_, valued_of_tomlWhen hgate, valued_of_tomlWhen hoptions⟩
      cases hrange'
      exact ⟨_, hrange⟩

theorem OptionDecls.mem_of_foldl_insert {list : List OptionDecl} {options : OptionDecls}
    {option : OptionDecl} (h : option ∈ (list.foldl OptionDecls.insert options).list) :
    option ∈ options.list ∨ option ∈ list := by
  induction list generalizing options with
  | nil => exact .inl h
  | cons first rest ih =>
    rcases ih h with hmem | hmem
    · unfold OptionDecls.insert at hmem
      split at hmem
      · exact .inl hmem
      · rcases List.mem_append.1 hmem with hmem | hmem
        · exact .inl hmem
        · exact .inr (List.mem_singleton.1 hmem ▸ List.mem_cons_self)
    · exact .inr (List.mem_cons_of_mem _ hmem)

theorem lower_lowered {checks : Manifest → PkgInfo → Bool} {m : Manifest} {info : PkgInfo}
    (h : lower checks m = some info) : info.Lowered := by
  unfold lower at h
  simp only [Option.bind_eq_bind, Option.bind_eq_some_iff, Option.ite_none_right_eq_some,
    Option.some.injEq] at h
  obtain ⟨version, hversion, package, hpackage, test, htest, build, hbuild, options, hoptions, -,
    rfl⟩ := h
  have hdeps : ∀ dep ∈ package ++ test ++ build, ∃ kind entry, lowerDep kind entry = some dep := by
    intro dep hdep
    rcases List.mem_append.1 hdep with hdep | hdep
    · rcases List.mem_append.1 hdep with hdep | hdep
      · obtain ⟨entry, -, hentry⟩ := mem_of_mapM hpackage hdep
        exact ⟨_, entry, hentry⟩
      · obtain ⟨entry, -, hentry⟩ := mem_of_mapM htest hdep
        exact ⟨_, entry, hentry⟩
    · obtain ⟨entry, -, hentry⟩ := mem_of_mapM hbuild hdep
      exact ⟨_, entry, hentry⟩
  refine ⟨fits_of_parse hversion, fun dep hdep => ?_, fun dep hdep => ?_, fun option hoption => ?_⟩
  · obtain ⟨kind, entry, hentry⟩ := hdeps dep hdep
    exact (lowerDep_spec hentry).1
  · obtain ⟨kind, entry, hentry⟩ := hdeps dep hdep
    exact (lowerDep_spec hentry).2
  · rcases OptionDecls.mem_of_foldl_insert hoption with hmem | hmem
    · cases hmem
    · obtain ⟨entry, -, hentry⟩ := mem_of_mapM hoptions hmem
      simp only [lowerOption, Option.bind_eq_bind, Option.bind_eq_some_iff, Option.pure_def,
        Option.some.injEq] at hentry
      obtain ⟨defaults, hdefaults, rfl⟩ := hentry
      exact fun entry hmem => valued_of_tomlDefaults hdefaults hmem

end Spn.Index
