import Spn.Lib.Lines
import Spn.Paths
import Spn.Semver

/-! # Package files and clones

A package file of an index has a release on each line. An index is a branch of a remote
repository; a publisher works on a clone of it, of which the commands `external/git.c`
runs change the parts one finds here. Commits with one tree, one stamp and one history
are one commit; a stamp is all that else tells commits apart.
-/
namespace Spn.Publish

open Spn.Lib

/-! ## Package files -/

/-- `spn_pkg_name_t`. -/
structure PkgName where
  ns : Str
  name : Str
  deriving DecidableEq, Repr, Encodable

/-- `spn_index_release_t`, with what else it says as one text. -/
structure Release where
  id : PkgName
  version : Version
  rest : Str
  deriving DecidableEq, Repr, Encodable

/-- `spn_index_jsonl_path`. -/
def jsonlPath (id : PkgName) : Str := id.ns ++ str "/" ++ id.name ++ str ".jsonl"

/-- The separator of the lines. -/
def newline : UInt8 := 10

/-- The generated reader and writer of a release, and whether a line is trimmed away. -/
structure Format where
  write : Release → Str
  read : Str → Option Release
  blank : Str → Bool

/-- What is written on a line is read back from it. -/
structure Format.Lawful (F : Format) : Prop where
  newline : ∀ release, newline ∉ F.write release
  blank : ∀ release, F.blank (F.write release) = false
  read : ∀ release, F.read (F.write release) = some release

/-- `spn_index_parse_rel`. -/
def parseRel (F : Format) (id : PkgName) (line : Str) : Option Release :=
  (F.read line).filter fun release => release.id = id

/-- The loop of `spn_index_parse_pkg` over the lines. -/
def parseLines (F : Format) (id : PkgName) : List Str → List Release → Option (List Release)
  | [], releases => some releases
  | line :: rest, releases =>
    if F.blank line then parseLines F id rest releases
    else
      match parseRel F id line with
      | none => none
      | some release =>
        if releases.any fun other => other.version = release.version then none
        else parseLines F id rest (releases ++ [release])

/-- `spn_index_parse_pkg`, up to the order of the releases. -/
def parsePkg (F : Format) (id : PkgName) (blob : Str) : Option (List Release) :=
  match parseLines F id (lines newline blob) [] with
  | some [] => none
  | releases => releases

/-- The version on a line. -/
def Format.version (F : Format) (line : Str) : Option Version :=
  if F.blank line then none else (F.read line).map Release.version

/-- The versions a package file holds. -/
def Format.versions (F : Format) (blob : Str) : List Version :=
  (lines newline blob).filterMap F.version

section

variable {F : Format} {id : PkgName}

/-- The releases of a file that parses are those of its lines, with a version each. -/
theorem parseLines_versions {ls : List Str} {releases all : List Release}
    (h : parseLines F id ls releases = some all) (hnodup : (releases.map Release.version).Nodup) :
    (all.map Release.version).Nodup ∧
      all.map Release.version = releases.map Release.version ++ ls.filterMap F.version := by
  induction ls generalizing releases with
  | nil =>
    cases h
    exact ⟨hnodup, by simp⟩
  | cons line rest ih =>
    rw [parseLines] at h
    by_cases hblank : F.blank line = true
    · rw [if_pos hblank] at h
      obtain ⟨hall, heq⟩ := ih h hnodup
      refine ⟨hall, ?_⟩
      rw [heq, List.filterMap_cons, Format.version, if_pos hblank]
    · rw [if_neg hblank] at h
      cases hrel : parseRel F id line with
      | none =>
        rw [hrel] at h
        cases h
      | some release =>
        rw [hrel] at h
        simp only at h
        split at h
        case isTrue => cases h
        case isFalse hnew =>
          have hread : F.read line = some release := (Option.filter_eq_some_iff.1 hrel).1
          have hnodup' : ((releases ++ [release]).map Release.version).Nodup := by
            rw [List.map_append]
            refine List.nodup_append.2 ⟨hnodup, List.nodup_singleton _, ?_⟩
            intro v hv w hw hvw
            obtain ⟨other, hother, rfl⟩ := List.mem_map.1 hv
            rw [List.map_singleton, List.mem_singleton] at hw
            exact hnew (List.any_eq_true.2 ⟨other, hother, by simpa using hvw.trans hw⟩)
          obtain ⟨hall, heq⟩ := ih h hnodup'
          refine ⟨hall, ?_⟩
          rw [heq, List.filterMap_cons, Format.version, if_neg hblank, hread]
          simp

theorem parsePkg_versions {blob : Str} {releases : List Release}
    (h : parsePkg F id blob = some releases) :
    (releases.map Release.version).Nodup ∧ F.versions blob = releases.map Release.version := by
  have hlines : parseLines F id (lines newline blob) [] = some releases := by
    unfold parsePkg at h
    split at h
    · cases h
    · exact h
  obtain ⟨hnodup, heq⟩ := parseLines_versions hlines List.nodup_nil
  exact ⟨hnodup, heq.symm⟩

end

/-! ## Clones -/

/-- What the files of a working copy hold. -/
abbrev Tree := Str → Option Str

structure Commit where
  tree : Tree
  stamp : ℕ

/-- The commits of a branch, the newest first. A branch that is not there has none. -/
abbrev History := List Commit

/-- The files of a branch. -/
def History.tree : History → Tree
  | [] => fun _ => none
  | commit :: _ => commit.tree

/-- The clone of a publisher: the branch as it was fetched, whether `origin/HEAD` names
it, the commit that is checked out, what is staged, and the files. -/
structure Clone where
  origin : History
  originHead : Bool
  head : History
  index : Tree
  work : Tree

/-- `git clone`. -/
def cloned (remote : History) : Clone where
  origin := remote
  originHead := !remote.isEmpty
  head := remote
  index := remote.tree
  work := remote.tree

namespace Clone

/-- `git fetch`; a git that follows the head of the remote also names the branch. -/
def fetch (c : Clone) (remote : History) (follow : Bool) : Clone :=
  { c with
    origin := remote
    originHead := c.originHead || (follow && !remote.isEmpty) }

/-- `git checkout --force -B branch origin/branch`: files that are not in the commit go
when they were staged, and stay otherwise. -/
def checkout (c : Clone) : Clone :=
  { c with
    head := c.origin
    index := c.origin.tree
    work := fun path =>
      match c.origin.tree path with
      | some text => some text
      | none => if (c.index path).isSome then none else c.work path }

/-- `git clean -fdq`: files that are not staged go. -/
def clean (c : Clone) : Clone :=
  { c with work := fun path => if (c.index path).isSome then c.work path else none }

/-- `git add`. -/
def add (c : Clone) (path : Str) : Clone :=
  { c with index := Function.update c.index path (c.work path) }

/-- `git commit`: everything that is staged. -/
def commit (c : Clone) (stamp : ℕ) : Clone := { c with head := ⟨c.index, stamp⟩ :: c.head }

/-- A write to the end of a file, which is created if need be. -/
def append (c : Clone) (path : Str) (text : Str) : Clone :=
  { c with work := Function.update c.work path (some ((c.work path).getD [] ++ text)) }

theorem clean_checkout (c : Clone) :
    c.checkout.clean.index = c.origin.tree ∧ c.checkout.clean.work = c.origin.tree := by
  refine ⟨rfl, funext fun path => ?_⟩
  simp only [clean, checkout]
  rcases Option.eq_none_or_eq_some (c.origin.tree path) with h | ⟨text, h⟩ <;> simp [h]

end Clone

end Spn.Publish
