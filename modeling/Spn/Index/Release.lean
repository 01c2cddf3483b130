import Spn.Index.Codec
import Spn.Publish.Git
import Spn.Semver.Print

/-! # Releases as lines

`spn_index_release_to_json` and `spn_index_parse_rel` of `index/json.c`, which go between
a release and what the generated reader and writer carry; and which releases are read
from their line as they were written.
-/
namespace Spn.Index

open Spn.Resolve (Linkage OptionValue Clause)
open Spn.Options (OptionType OptionDefault OptionInfo)
open Spn.Publish (PkgName)
open Spn.Semver

/-- `spn_pkg_root_t`. -/
inductive PkgRoot
  | none
  | loc (path : Path)
  | git (url rev dir : Str)
  deriving DecidableEq, Repr

/-- `spn_index_dep_t`. -/
structure IndexDep where
  kind : IndexDepKind
  isPrivate : Bool
  id : PkgName
  range : Range
  gate : List Clause
  options : List Clause
  deriving DecidableEq

/-- `spn_option_info_t`, with the two fields that options are not merged by. -/
@[ext] structure OptionDecl extends OptionInfo where
  isPublic : Bool
  define : Str
  deriving DecidableEq

/-- `spn_option_map_t`: the options by name, in the order they were declared. -/
@[ext] structure OptionDecls where
  list : List OptionDecl
  distinct : (list.map fun option => option.name).Nodup

namespace OptionDecls

def empty : OptionDecls := ⟨[], List.nodup_nil⟩

/-- `sp_str_om_insert`: a name that is there keeps its option. -/
def insert (options : OptionDecls) (option : OptionDecl) : OptionDecls :=
  if h : option.name ∈ options.list.map fun option => option.name then options
  else
    { list := options.list ++ [option]
      distinct := by
        rw [List.map_append, List.nodup_append]
        refine ⟨options.distinct, List.nodup_singleton _, fun a ha b hb hab => ?_⟩
        rw [List.map_singleton, List.mem_singleton] at hb
        exact h (hb ▸ hab ▸ ha) }

/-- Options that are put in one after the other. -/
def ofList (list : List OptionDecl) : OptionDecls := list.foldl insert empty

end OptionDecls

/-- `spn_index_release_t`. -/
@[ext] structure Release where
  id : PkgName
  version : Version
  yanked : Bool
  source : PkgRoot
  manifest : PkgRoot
  paths : RelPaths
  deps : List IndexDep
  targets : List CgTarget
  options : OptionDecls

/-! ## Writing -/

/-- What is written of a root. -/
def PkgRoot.cg : PkgRoot → CgSource
  | .git url rev dir => ⟨url, rev, dir⟩
  | .none | .loc _ => {}

def IndexDep.cg (dep : IndexDep) : CgDep (List Clause) where
  ns := dep.id.ns
  name := dep.id.name
  version := rangeToStr dep.range
  kind := dep.kind
  isPrivate := if dep.isPrivate then some true else none
  gate := dep.gate
  options := dep.options

def OptionDecl.cg (option : OptionDecl) : Str × CgOption (List OptionDefault) :=
  (option.name, ⟨option.type, option.values, option.defaults,
    if option.additive then some true else none⟩)

/-- What `spn_index_release_to_json` hands to the generated writer. -/
def Release.cg (release : Release) : CgRelease (List Clause) (List OptionDefault) where
  ns := release.id.ns
  name := release.id.name
  version := versionToStr release.version
  yanked := release.yanked
  source := release.source.cg
  manifest := release.manifest.cg
  paths := release.paths
  deps := release.deps.map IndexDep.cg
  targets := release.targets
  options := release.options.list.map OptionDecl.cg

/-- `spn_index_release_to_json`. -/
def Release.toJson (release : Release) : Str := release.cg.encode.write

/-! ## Reading -/

/-- A root whose url is empty is none. -/
def CgSource.root (source : CgSource) : PkgRoot :=
  if source.url = [] then .none else .git source.url source.rev source.dir

/-- A dependency, if its range can be read. -/
def CgDep.parse (dep : CgDep (List Clause)) : Option IndexDep :=
  (parseRange dep.version).map fun range =>
    ⟨dep.kind, dep.isPrivate.getD false, ⟨dep.ns, dep.name⟩, range, dep.gate, dep.options⟩

/-- A target, without the linkages that have no name. -/
def CgTarget.parse (target : CgTarget) : CgTarget :=
  { target with linkages := target.linkages.filter fun linkage => linkage ≠ .none }

def CgOption.parse (entry : Str × CgOption (List OptionDefault)) : OptionDecl where
  name := entry.1
  type := entry.2.type
  additive := entry.2.additive.getD false
  values := entry.2.values
  defaults := entry.2.defaults
  isPublic := false
  define := []

/-- `spn_index_parse_rel`, when the line has been read. -/
def CgRelease.parse (id : PkgName) (rel : CgRelease (List Clause) (List OptionDefault)) :
    Option Release :=
  if rel.ns = id.ns ∧ rel.name = id.name then do
    let version ← Semver.parse rel.version
    let deps ← rel.deps.mapM CgDep.parse
    return {
      id := ⟨rel.ns, rel.name⟩
      version := version
      yanked := rel.yanked
      source := rel.source.root
      manifest := rel.manifest.root
      paths := rel.paths
      deps := deps
      targets := rel.targets.map CgTarget.parse
      options := .ofList (rel.options.map CgOption.parse) }
  else none

/-- `spn_index_parse_rel`; `read` is the generated reader, before the element codecs. -/
def parseRel (read : Str → Option Doc) (id : PkgName) (json : Str) : Option Release :=
  (read json).bind fun doc => doc.decode.parse id

/-! ## What is read of what was written -/

/-- The define of an option and whether it is public are not part of a release. -/
def OptionDecl.plain (option : OptionDecl) : OptionDecl :=
  { option with isPublic := false, define := [] }

/-- A release as far as its line has it. -/
def Release.plain (release : Release) : Release :=
  { release with options :=
    { list := release.options.list.map OptionDecl.plain
      distinct := by
        rw [List.map_map]
        exact release.options.distinct } }

/-- Every clause has a value. -/
def Valued (clauses : List Clause) : Prop := ∀ clause ∈ clauses, clause.value ≠ .none

/-- No root, or a repository with a url. -/
def PkgRoot.Written : PkgRoot → Prop
  | .none => True
  | .loc _ => False
  | .git url _ _ => url ≠ []

/-- What it takes for a release to be on its line in full. -/
structure Release.Writable (release : Release) : Prop where
  version : release.version.Fits
  source : release.source.Written
  manifest : release.manifest.Written
  ranges : ∀ dep ∈ release.deps, parseRange (rangeToStr dep.range) = some dep.range
  gates : ∀ dep ∈ release.deps, Valued dep.gate ∧ Valued dep.options
  linkages : ∀ target ∈ release.targets, Linkage.none ∉ target.linkages
  defaults : ∀ option ∈ release.options.list, ∀ entry ∈ option.defaults,
    entry.value ≠ .none ∧ Valued entry.gate

/-- The reader yields what the writer was given. -/
def Inverts (read : Str → Option Doc) (release : Release) : Prop :=
  read release.toJson = some release.cg.encode

/-! ## The element codecs -/

theorem readOptionValue_write (value : OptionValue) :
    readOptionValue (writeOptionValue value) = value := by
  cases value <;> rfl

theorem get?_writeOptionValue (key : Str) (value : OptionValue) :
    (writeOptionValue value).get? key = none := by
  cases value <;> rfl

/-- A clause is read back if it has a value. -/
theorem readClause_write (clause : Clause) :
    readClause (clause.key,
      if clause.negated then .obj [(str "not", writeOptionValue clause.value)]
      else writeOptionValue clause.value) =
      if clause.value ≠ .none then some clause else none := by
  obtain ⟨key, value, negated⟩ := clause
  cases negated with
  | false =>
    simp only [readClause, Bool.false_eq_true, if_false, get?_writeOptionValue,
      readOptionValue_write]
    cases value <;> rfl
  | true =>
    have hnot : (Json.obj [(str "not", writeOptionValue value)]).get? (str "not") =
        some (writeOptionValue value) := by simp [Json.get?]
    simp only [readClause, if_true, hnot, readOptionValue_write]
    cases value <;> rfl

/-- The clauses with a value are read back. -/
theorem readWhen_write (clauses : List Clause) :
    readWhen (if whenPresent clauses then some (writeWhen clauses) else none) =
      clauses.filter fun clause => clause.value ≠ .none := by
  cases clauses with
  | nil => rfl
  | cons clause rest =>
    simp only [whenPresent, List.isEmpty_cons, Bool.not_false, if_true, writeWhen, readWhen,
      List.filterMap_map]
    generalize clause :: rest = clauses
    induction clauses with
    | nil => rfl
    | cons clause rest ih =>
      rw [List.filterMap_cons, Function.comp_apply, readClause_write, ih]
      by_cases h : clause.value = .none
      · simp [h]
      · simp [h]

theorem readWhen_eq_self {clauses : List Clause} :
    readWhen (if whenPresent clauses then some (writeWhen clauses) else none) = clauses ↔
      Valued clauses := by
  rw [readWhen_write, List.filter_eq_self]
  simp [Valued]

/-- A default is read back if it has a value, with the clauses of its gate that have one. -/
theorem readOptionDefault_write (entry : OptionDefault) :
    readOptionDefault (.obj ((str "value", writeOptionValue entry.value) ::
      field? (whenPresent entry.gate) "when" (writeWhen entry.gate))) =
      if entry.value ≠ .none then
        some ⟨entry.gate.filter fun clause => clause.value ≠ .none, entry.value⟩
      else none := by
  have hkeys : str "value" ≠ str "when" := by decide
  have hvalue : ∀ fields, (Json.obj ((str "value", writeOptionValue entry.value) :: fields)).get?
      (str "value") = some (writeOptionValue entry.value) := fun fields => by simp [Json.get?]
  have hwhen : (Json.obj ((str "value", writeOptionValue entry.value) ::
      field? (whenPresent entry.gate) "when" (writeWhen entry.gate))).get? (str "when") =
        if whenPresent entry.gate then some (writeWhen entry.gate) else none := by
    unfold field?
    split <;> simp [Json.get?, hkeys]
  simp only [readOptionDefault, hvalue, Option.elim_some, readOptionValue_write, hwhen,
    readWhen_write]
  cases entry.value <;> rfl

theorem readOptionDefaults_write (defaults : List OptionDefault) :
    readOptionDefaults (if optionDefaultsPresent defaults then some (writeOptionDefaults defaults)
      else none) = defaults.filterMap fun entry =>
        if entry.value ≠ .none then
          some ⟨entry.gate.filter fun clause => clause.value ≠ .none, entry.value⟩
        else none := by
  cases defaults with
  | nil => rfl
  | cons entry rest =>
    simp only [optionDefaultsPresent, List.isEmpty_cons, Bool.not_false, if_true,
      writeOptionDefaults, readOptionDefaults, List.filterMap_map]
    exact List.filterMap_congr fun entry _ => readOptionDefault_write entry

theorem filterMap_eq_self {α : Type*} {f : α → Option α} {l : List α} :
    l.filterMap f = l ↔ ∀ a ∈ l, f a = some a := by
  induction l with
  | nil => simp
  | cons a rest ih =>
    rw [List.forall_mem_cons, List.filterMap_cons, ← ih]
    cases hfa : f a with
    | none =>
      simp only [reduceCtorEq, false_and, iff_false]
      intro h
      have hle := List.length_filterMap_le f rest
      rw [h, List.length_cons] at hle
      omega
    | some b => simp

theorem readOptionDefaults_eq_self {defaults : List OptionDefault} :
    readOptionDefaults (if optionDefaultsPresent defaults then some (writeOptionDefaults defaults)
      else none) = defaults ↔ ∀ entry ∈ defaults, entry.value ≠ .none ∧ Valued entry.gate := by
  rw [readOptionDefaults_write, filterMap_eq_self]
  refine forall₂_congr fun entry _ => ?_
  obtain ⟨gate, value⟩ := entry
  by_cases hvalue : value = .none
  · simp [hvalue]
  · simp [hvalue, Valued]

/-! ## The other fields -/

theorem root_cg {root : PkgRoot} : root.cg.root = root ↔ root.Written := by
  cases root with
  | none => simp [PkgRoot.cg, CgSource.root, PkgRoot.Written]
  | loc path => simp [PkgRoot.cg, CgSource.root, PkgRoot.Written]
  | git url rev dir =>
    by_cases h : url = []
    · simp [PkgRoot.cg, CgSource.root, PkgRoot.Written, h]
    · simp [PkgRoot.cg, CgSource.root, PkgRoot.Written, h]

theorem parse_target {target : CgTarget} :
    target.parse = target ↔ Linkage.none ∉ target.linkages := by
  obtain ⟨name, linkages⟩ := target
  simp only [CgTarget.parse, CgTarget.mk.injEq, true_and, List.filter_eq_self]
  constructor
  · intro h hmem
    simpa using h _ hmem
  · intro h linkage hmem
    have hne : linkage ≠ .none := fun heq => h (heq ▸ hmem)
    simpa using hne

theorem getD_flag (flag : Bool) : (if flag then some true else none).getD false = flag := by
  cases flag <;> rfl

/-- A dependency as the codecs leave it. -/
def IndexDep.carried (dep : IndexDep) : CgDep (List Clause) :=
  { dep.cg with
    gate := readWhen (if whenPresent dep.gate then some (writeWhen dep.gate) else none)
    options := readWhen (if whenPresent dep.options then some (writeWhen dep.options) else none) }

theorem parse_carried {dep : IndexDep} : dep.carried.parse = some dep ↔
    parseRange (rangeToStr dep.range) = some dep.range ∧ Valued dep.gate ∧ Valued dep.options := by
  rw [← readWhen_eq_self, ← readWhen_eq_self]
  obtain ⟨kind, isPrivate, id, range, gate, options⟩ := dep
  simp only [CgDep.parse, IndexDep.carried, IndexDep.cg, getD_flag, Option.map_eq_some_iff,
    IndexDep.mk.injEq, true_and]
  constructor
  · rintro ⟨r, hr, rfl, hgate, hoptions⟩
    exact ⟨hr, hgate, hoptions⟩
  · rintro ⟨hr, hgate, hoptions⟩
    exact ⟨range, hr, rfl, hgate, hoptions⟩

/-- An option as the codecs leave it. -/
def OptionDecl.carried (option : OptionDecl) : Str × CgOption (List OptionDefault) :=
  (option.cg.1, { option.cg.2 with
    defaults := readOptionDefaults (if optionDefaultsPresent option.defaults then
      some (writeOptionDefaults option.defaults) else none) })

theorem parse_carried_option {option : OptionDecl} :
    CgOption.parse option.carried = option.plain ↔
      ∀ entry ∈ option.defaults, entry.value ≠ .none ∧ Valued entry.gate := by
  rw [← readOptionDefaults_eq_self]
  obtain ⟨⟨name, type, additive, values, defaults⟩, isPublic, define⟩ := option
  simp [CgOption.parse, OptionDecl.carried, OptionDecl.cg, OptionDecl.plain, getD_flag]

theorem decode_encode (release : Release) : release.cg.encode.decode =
    { release.cg with
      deps := release.deps.map IndexDep.carried
      options := release.options.list.map OptionDecl.carried } := by
  simp only [CgRelease.decode, CgRelease.encode, CgRelease.map, Release.cg, List.map_map]
  rfl

theorem mapM_map_eq_some {α β : Type*} {f : α → β} {g : β → Option α} {l : List α} :
    (l.map f).mapM g = some l ↔ ∀ a ∈ l, g (f a) = some a := by
  induction l with
  | nil => simp
  | cons a rest ih =>
    rw [List.forall_mem_cons, ← ih, List.map_cons, List.mapM_cons]
    cases g (f a) with
    | none => simp
    | some b => cases (rest.map f).mapM g <;> simp

/-! ## The options, put in again -/

theorem OptionDecls.foldl_insert {list : List OptionDecl} {options : OptionDecls}
    (h : ((options.list ++ list).map fun option => option.name).Nodup) :
    (list.foldl OptionDecls.insert options).list = options.list ++ list := by
  induction list generalizing options with
  | nil => simp
  | cons option rest ih =>
    have hnew : option.name ∉ options.list.map fun option => option.name := by
      rw [List.map_append, List.nodup_append] at h
      exact fun hmem => h.2.2 _ hmem _ (by simp) rfl
    have hinsert : (options.insert option).list = options.list ++ [option] := by
      rw [OptionDecls.insert, dif_neg hnew]
    rw [List.foldl_cons, ih (by simpa [hinsert] using h), hinsert, List.append_assoc,
      List.singleton_append]

theorem OptionDecls.ofList_list {list : List OptionDecl}
    (h : (list.map fun option => option.name).Nodup) : (OptionDecls.ofList list).list = list :=
  foldl_insert (show ((empty.list ++ list).map fun option => option.name).Nodup from h)

theorem options_carried {options : OptionDecls} :
    (OptionDecls.ofList ((options.list.map OptionDecl.carried).map CgOption.parse)).list =
      options.list.map OptionDecl.plain ↔
    ∀ option ∈ options.list, ∀ entry ∈ option.defaults,
      entry.value ≠ .none ∧ Valued entry.gate := by
  rw [OptionDecls.ofList_list]
  · rw [List.map_map, List.map_inj_left]
    exact forall₂_congr fun option _ => parse_carried_option
  · rw [List.map_map, List.map_map]
    exact options.distinct

/-! ## The release -/

/-- A release is read from its line as it was written just when all of it is on the line. -/
theorem parseRel_toJson {read : Str → Option Doc} {release : Release}
    (hread : Inverts read release) :
    parseRel read release.id release.toJson = some release.plain ↔ release.Writable := by
  have htargets : release.targets.map CgTarget.parse = release.targets ↔
      ∀ target ∈ release.targets, Linkage.none ∉ target.linkages := by
    nth_rewrite 2 [← List.map_id release.targets]
    rw [List.map_inj_left]
    exact forall₂_congr fun target _ => parse_target
  have hdeps := mapM_map_eq_some (f := IndexDep.carried) (g := CgDep.parse) (l := release.deps)
  have hoptions := @options_carried release.options
  have hparse : parseRel read release.id release.toJson = some release.plain ↔
      Semver.parse (versionToStr release.version) = some release.version ∧
      (release.deps.map IndexDep.carried).mapM CgDep.parse = some release.deps ∧
      release.source.cg.root = release.source ∧ release.manifest.cg.root = release.manifest ∧
      release.targets.map CgTarget.parse = release.targets ∧
      (OptionDecls.ofList ((release.options.list.map OptionDecl.carried).map CgOption.parse)).list =
        release.options.list.map OptionDecl.plain := by
    rw [parseRel, hread, Option.bind_some, decode_encode, CgRelease.parse,
      if_pos ⟨rfl, rfl⟩]
    simp [Release.ext_iff, OptionDecls.ext_iff, Release.plain, Release.cg,
      Option.bind_eq_some_iff]
  have hversion : Semver.parse (versionToStr release.version) = some release.version ↔
      release.version.Fits := ⟨fits_of_parse, parse_versionToStr⟩
  have hranges : (∀ dep ∈ release.deps, dep.carried.parse = some dep) ↔
      (∀ dep ∈ release.deps, parseRange (rangeToStr dep.range) = some dep.range) ∧
      ∀ dep ∈ release.deps, Valued dep.gate ∧ Valued dep.options := by
    rw [← forall₂_and]
    exact forall₂_congr fun dep _ => parse_carried
  rw [hparse, hversion, hdeps, hranges, htargets, hoptions, root_cg, root_cg]
  constructor
  · rintro ⟨hversion, ⟨hranges, hgates⟩, hsource, hmanifest, hlinkages, hdefaults⟩
    exact ⟨hversion, hsource, hmanifest, hranges, hgates, hlinkages, hdefaults⟩
  · intro h
    exact ⟨h.version, ⟨h.ranges, h.gates⟩, h.source, h.manifest, h.linkages, h.defaults⟩

end Spn.Index
