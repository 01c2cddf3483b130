import Spn.Index.Build

/-! # Published releases read back

A release that was made of a lowered package is read from its line as it was written,
unless the url it is published under is empty or a dependency has a pinched range: one
version for both bounds that the bounds do not allow. `<0.0.0` is such a range. It is
written `=0.0.0`, which allows the version.
-/
namespace Spn.Index

open Spn.Resolve (Linkage LinkageSet OptionValue Clause DepKind)
open Spn.Publish (PkgName)
open Spn.Semver

/-- Reading the line of a release succeeds and gives the release, but for what a line does
not have of an option. -/
def ReadsBack (read : Str → Option Doc) (release : Release) : Prop :=
  ∃ back, parseRel read release.id release.toJson = some back ∧ back.plain = release.plain

theorem OptionDecls.ofList_plain (entries : List (Str × CgOption (List Options.OptionDefault))) :
    (OptionDecls.ofList (entries.map CgOption.parse)).list.map OptionDecl.plain =
      (OptionDecls.ofList (entries.map CgOption.parse)).list := by
  refine (List.map_congr_left fun option hoption => ?_).trans (List.map_id _)
  rcases mem_of_foldl_insert hoption with hmem | hmem
  · cases hmem
  · obtain ⟨entry, -, rfl⟩ := List.mem_map.1 hmem
    rfl

/-- What is read has no define and nothing public. -/
theorem plain_of_parseRel {read : Str → Option Doc} {id : PkgName} {json : Str} {back : Release}
    (h : parseRel read id json = some back) : back.plain = back := by
  obtain ⟨doc, -, h⟩ := Option.bind_eq_some_iff.1 h
  unfold CgRelease.parse at h
  simp only [Option.bind_eq_bind, Option.ite_none_right_eq_some, Option.bind_eq_some_iff,
    Option.pure_def, Option.some.injEq] at h
  obtain ⟨-, version, -, deps, -, rfl⟩ := h
  refine Release.ext rfl rfl rfl rfl rfl rfl rfl rfl (OptionDecls.ext ?_)
  exact OptionDecls.ofList_plain _

theorem readsBack_iff {read : Str → Option Doc} {release : Release}
    (hread : Inverts read release) : ReadsBack read release ↔ release.Writable := by
  rw [← parseRel_toJson hread]
  constructor
  · rintro ⟨back, hback, hplain⟩
    rw [hback, ← plain_of_parseRel hback, hplain]
  · intro h
    exact ⟨release.plain, h, plain_of_parseRel h⟩

/-! ## Releases of packages -/

theorem releaseFromPkg_spec {info : PkgInfo} {published : PkgRoot} {release : Release}
    (h : releaseFromPkg info published = .ok release) :
    ∃ deps, info.deps.mapM releaseDep = .ok deps ∧ release =
      { id := pkgNameFromQualified info.qualified
        version := info.version
        yanked := false
        source := if pkgUpstream info = .none then published else pkgUpstream info
        manifest := if pkgUpstream info = .none then .none else published
        paths := ⟨str "spn.toml", str "spn.c"⟩
        deps := deps
        targets := info.libs.map releaseTarget
        options := info.options } := by
  unfold releaseFromPkg at h
  cases hdeps : info.deps.mapM releaseDep with
  | error e =>
    rw [hdeps] at h
    cases h
  | ok deps =>
    rw [hdeps] at h
    cases h
    exact ⟨deps, rfl, rfl⟩

/-- A dependency of the release is one of the package, which names a range. -/
theorem releaseDep_spec {req : RequestedDep} {dep : IndexDep} (h : releaseDep req = .ok dep) :
    req.range = some dep.range ∧ dep.gate = req.gate ∧ dep.options = req.options := by
  unfold releaseDep at h
  cases hrange : req.range with
  | none =>
    rw [hrange] at h
    cases h
  | some range =>
    rw [hrange] at h
    cases h
    exact ⟨rfl, rfl, rfl⟩

theorem written_pkgUpstream (info : PkgInfo) : (pkgUpstream info).Written := by
  unfold pkgUpstream
  split
  · trivial
  · assumption

theorem none_not_mem_releaseTarget (lib : Str × LinkageSet) :
    Linkage.none ∉ (releaseTarget lib).linkages := by
  simp [releaseTarget]

/-- A release of a package that was lowered is read back just when its url is not empty
and none of its ranges is pinched. -/
theorem published_release_reads_back {checks : Manifest → PkgInfo → Bool} {m : Manifest}
    {info : PkgInfo} {url rev dir : Str} {release : Release} {read : Str → Option Doc}
    (hlower : lower checks m = some info)
    (hbuilt : releaseFromPkg info (.git url rev dir) = .ok release)
    (hread : Inverts read release) :
    ReadsBack read release ↔ url ≠ [] ∧ ∀ dep ∈ release.deps, ¬Pinched dep.range := by
  have hlowered := lower_lowered hlower
  obtain ⟨deps, hdeps, rfl⟩ := releaseFromPkg_spec hbuilt
  have hmem : ∀ dep ∈ deps, ∃ req ∈ info.deps, releaseDep req = .ok dep := fun dep hdep =>
    mem_of_mapM_except hdeps hdep
  have hrange : ∀ dep ∈ deps,
      (parseRange (rangeToStr dep.range) = some dep.range ↔ ¬Pinched dep.range) := by
    intro dep hdep
    obtain ⟨req, hreq, hok⟩ := hmem dep hdep
    obtain ⟨text, htext⟩ := hlowered.ranges req hreq _ (releaseDep_spec hok).1
    exact parseRange_rangeToStr htext
  have hwritten : (PkgRoot.git url rev dir).Written ↔ url ≠ [] := Iff.rfl
  rw [readsBack_iff hread, ← hwritten]
  constructor
  · intro h
    refine ⟨?_, fun dep hdep => (hrange dep hdep).1 (h.ranges dep hdep)⟩
    -- the published root is the source, or the manifest of a package with an upstream
    by_cases hup : pkgUpstream info = .none
    · have hsource := h.source
      simpa only [hup, if_true] using hsource
    · have hmanifest := h.manifest
      simpa only [if_neg hup] using hmanifest
  · rintro ⟨hurl, hpinched⟩
    refine ⟨hlowered.version, ?_, ?_, fun dep hdep => (hrange dep hdep).2 (hpinched dep hdep),
      fun dep hdep => ?_, fun target htarget => ?_, hlowered.defaults⟩
    · by_cases hup : pkgUpstream info = .none
      · simpa only [hup, if_true] using hurl
      · simpa only [if_neg hup] using written_pkgUpstream info
    · by_cases hup : pkgUpstream info = .none
      · simp only [hup, if_true, PkgRoot.Written]
      · simpa only [if_neg hup] using hurl
    · obtain ⟨req, hreq, hok⟩ := hmem dep hdep
      obtain ⟨-, hgate, hoptions⟩ := releaseDep_spec hok
      rw [hgate, hoptions]
      exact hlowered.gates req hreq
    · obtain ⟨lib, -, rfl⟩ := List.mem_map.1 htarget
      exact none_not_mem_releaseTarget lib

/-! ## A package without a pinched range, and one with -/

/-- A package that depends on another one in a range. -/
def dependent (range : String) : Manifest where
  ns := []
  name := str "a"
  version := "1.2.0".toList
  url := []
  commit := []
  package := [(str "b", ⟨range.toList, [], none, some (.table [(str "os", .str (str "linux"))]),
    none⟩)]
  test := []
  build := []
  options := [(str "tls", ⟨.bool, [], some (.bool true), some true, none, str "TLS"⟩)]
  libs := [(str "a", [str "static", str "source"])]

/-- What lowering makes of it. -/
def dependentInfo (range : Range) : PkgInfo where
  qualified := str "core/a"
  version := ⟨1, 2, 0⟩
  url := []
  commit := []
  deps := [⟨str "core/b", .package, false, some range, [⟨str "os", .str (str "linux"), false⟩], []⟩]
  options := .ofList [⟨⟨str "tls", .bool, true, [], [⟨[], .bool true⟩]⟩, false, str "TLS"⟩]
  libs := [(str "a", ⟨true, false, true, false⟩)]

/-- The release of it. -/
def dependentRelease (range : Range) : Release where
  id := ⟨str "core", str "a"⟩
  version := ⟨1, 2, 0⟩
  yanked := false
  source := .git (str "u") (str "r") []
  manifest := .none
  paths := ⟨str "spn.toml", str "spn.c"⟩
  deps := [⟨.normal, false, ⟨str "core", str "b"⟩, range, [⟨str "os", .str (str "linux"), false⟩],
    []⟩]
  targets := [⟨str "a", [.source, .static]⟩]
  options := .ofList [⟨⟨str "tls", .bool, true, [], [⟨[], .bool true⟩]⟩, false, str "TLS"⟩]

/-- The reader on the line of one release. -/
def readerOf (release : Release) (json : Str) : Option Doc :=
  if json = release.toJson then some release.cg.encode else none

theorem inverts_readerOf (release : Release) : Inverts (readerOf release) release :=
  if_pos rfl

theorem lower_dependent (range : String) {r : Range} (h : parseRange range.toList = some r)
    (hne : range.toList ≠ []) :
    lower (fun _ _ => true) (dependent range) = some (dependentInfo r) := by
  have hversion : Semver.parse (dependent range).version = some ⟨1, 2, 0⟩ := by
    show Semver.parse "1.2.0".toList = some ⟨1, 2, 0⟩
    decide +kernel
  have hdep : (dependent range).package.mapM (lowerDep .package) = some (dependentInfo r).deps := by
    have hname : lowerCanonicalize (str "b") = str "core/b" := by decide +kernel
    simp only [dependent, List.mapM_cons, List.mapM_nil, lowerDep, tomlWhen, h, hname]
    simp only [ne_eq, not_true_eq_false, if_false, if_neg hne]
    rfl
  have hname : lowerQualify (dependent range).ns (dependent range).name = str "core/a" := by
    show lowerQualify [] (str "a") = str "core/a"
    decide +kernel
  unfold lower
  simp only [hversion, hdep, hname]
  rfl

theorem releaseFromPkg_dependent (r : Range) :
    releaseFromPkg (dependentInfo r) (.git (str "u") (str "r") []) = .ok (dependentRelease r) := by
  have hid : pkgNameFromQualified (str "core/a") = ⟨str "core", str "a"⟩ := by decide +kernel
  have hdep : pkgNameFromQualified (str "core/b") = ⟨str "core", str "b"⟩ := by decide +kernel
  have hdeps : (dependentInfo r).deps.mapM releaseDep = .ok (dependentRelease r).deps := by
    simp only [dependentInfo, List.mapM_cons, List.mapM_nil, releaseDep, hdep]
    rfl
  unfold releaseFromPkg
  simp only [hdeps, show (dependentInfo r).qualified = str "core/a" from rfl, hid]
  rfl

/-- The release of a package with a caret range is read back. -/
theorem published_release_reads_back_caret :
    ReadsBack (readerOf (dependentRelease ⟨⟨⟨1, 0, 0⟩, .geq⟩, ⟨⟨2, 0, 0⟩, .lt⟩, .caret⟩))
      (dependentRelease ⟨⟨⟨1, 0, 0⟩, .geq⟩, ⟨⟨2, 0, 0⟩, .lt⟩, .caret⟩) :=
  (published_release_reads_back (lower_dependent "^1" (by decide +kernel)
    (by decide +kernel)) (releaseFromPkg_dependent _) (inverts_readerOf _)).2
    ⟨by decide +kernel, by decide +kernel⟩

/-- A package that asks for a version before the first can be published, and another
package is read back: one that asks for the first version. -/
theorem published_release_pinched : ∃ info release,
    lower (fun _ _ => true) (dependent "<0.0.0") = some info ∧
    releaseFromPkg info (.git (str "u") (str "r") []) = .ok release ∧
    Inverts (readerOf release) release ∧ ¬ReadsBack (readerOf release) release := by
  refine ⟨_, _, lower_dependent "<0.0.0"
    (r := ⟨⟨⟨0, 0, 0⟩, .geq⟩, ⟨⟨0, 0, 0⟩, .lt⟩, .cmp⟩) (by decide +kernel) (by decide +kernel),
    releaseFromPkg_dependent _, inverts_readerOf _, ?_⟩
  rw [readsBack_iff (inverts_readerOf _)]
  intro h
  exact absurd (h.ranges _ List.mem_cons_self) (by decide +kernel)

end Spn.Index
