import Spn.Index.RoundTrip

/-! # Appending to a package file

`index_append_release` of `index/index.c` puts the line of a release at the end of a
package file as it is, `spn_index_parse_pkg` of `index/json.c` reads the file line by
line. A line that was not ended is glued to the new one.
-/
namespace Spn.Index

open Spn.Lib
open Spn.Resolve (Clause)
open Spn.Publish (PkgName newline)
open Spn.Semver

section

variable (read : Str → Option Doc) (space : UInt8 → Bool)

/-- `sp_str_trim`; `space` is what it takes for white space. -/
def trim (s : Str) : Str := (s.dropWhile space).rdropWhile space

/-- The loop of `spn_index_parse_pkg`. -/
def parseLines (id : PkgName) : List Str → List Release → Option (List Release)
  | [], releases => some releases
  | line :: rest, releases =>
    if trim space line = [] then parseLines id rest releases
    else
      match parseRel read id (trim space line) with
      | none => none
      | some release =>
        if releases.any fun other => other.version = release.version then none
        else parseLines id rest (releases ++ [release])

/-- `sort_release_by_version`. -/
def byVersion (lhs rhs : Release) : Prop := lhs.version.leq rhs.version = true

instance : DecidableRel byVersion := fun lhs rhs => by unfold byVersion; infer_instance

/-- `spn_index_parse_pkg`: the releases, sorted. -/
def parsePkg (id : PkgName) (blob : Str) : Option (List Release) :=
  match parseLines read space id (lines newline blob) [] with
  | none | some [] => none
  | some releases => some (releases.insertionSort byVersion)

/-- `index_append_release`: what the file holds afterwards. -/
def appendRelease (blob : Str) (release : Release) : Str := blob ++ (release.toJson ++ [newline])

end

/-! ## The line of a release -/

theorem hexDigit_ne_newline : ∀ n < 16, hexDigit n ≠ newline := by decide

theorem newline_not_mem_escape (c : UInt8) : newline ∉ escape c := by
  unfold escape
  split
  · rename_i h
    rcases h with rfl | rfl <;> decide
  · split
    · have hhigh := hexDigit_ne_newline (c.toNat / 16) (by have := c.toNat_lt; omega)
      have hlow := hexDigit_ne_newline (c.toNat % 16) (by omega)
      have hlead : newline ∉ str "\\u00" := by decide +kernel
      simp [hlead, hhigh.symm, hlow.symm]
    · rename_i h
      intro hmem
      rw [← List.mem_singleton.1 hmem] at h
      exact h (by decide)

theorem newline_not_mem_jsonStr (s : Str) : newline ∉ jsonStr s := by
  have hbody : newline ∉ s.flatMap escape := by
    rw [List.mem_flatMap]
    rintro ⟨c, -, hc⟩
    exact newline_not_mem_escape c hc
  have hquote : newline ≠ 0x22 := by decide
  simp only [jsonStr, List.mem_cons, List.mem_append, hquote, hbody, List.not_mem_nil, or_self,
    not_false_eq_true]

mutual

/-- A value is written on one line. -/
theorem newline_not_mem_write : ∀ json : Json, newline ∉ json.write
  | .null => by
    rw [Json.write]
    decide +kernel
  | .bool b => by
    rw [Json.write]
    cases b <;> decide +kernel
  | .str s => by
    rw [Json.write]
    exact newline_not_mem_jsonStr s
  | .arr elements => by
    have hopen : newline ∉ str "[" := by decide +kernel
    have hclose : newline ∉ str "]" := by decide +kernel
    rw [Json.write]
    simp [hopen, hclose, newline_not_mem_writeEach elements]
  | .obj fields => by
    have hopen : newline ∉ str "\x7b" := by decide +kernel
    have hclose : newline ∉ str "\x7d" := by decide +kernel
    rw [Json.write]
    simp [hopen, hclose, newline_not_mem_writeFields fields]

theorem newline_not_mem_writeEach : ∀ elements : List Json, newline ∉ writeEach elements
  | [] => by
    rw [writeEach]
    exact List.not_mem_nil
  | [element] => by
    rw [writeEach]
    exact newline_not_mem_write element
  | element :: next :: rest => by
    have hcomma : newline ∉ str "," := by decide +kernel
    rw [writeEach]
    · simp [hcomma, newline_not_mem_write element, newline_not_mem_writeEach (next :: rest)]
    · simp

theorem newline_not_mem_writeFields :
    ∀ fields : List (Str × Json), newline ∉ writeFields fields
  | [] => by
    rw [writeFields]
    exact List.not_mem_nil
  | [(key, value)] => by
    have hcolon : newline ∉ str ":" := by decide +kernel
    rw [writeFields]
    simp [hcolon, newline_not_mem_jsonStr key, newline_not_mem_write value]
  | (key, value) :: next :: rest => by
    have hcolon : newline ∉ str ":" := by decide +kernel
    have hcomma : newline ∉ str "," := by decide +kernel
    rw [writeFields]
    · simp [hcolon, hcomma, newline_not_mem_jsonStr key, newline_not_mem_write value,
        newline_not_mem_writeFields (next :: rest)]
    · simp

end

theorem toJson_eq (release : Release) : ∃ body, release.toJson = 0x7b :: (body ++ [0x7d]) := by
  have hopen : str "\x7b" = [0x7b] := by decide +kernel
  have hclose : str "\x7d" = [0x7d] := by decide +kernel
  unfold Release.toJson CgRelease.write CgRelease.json
  rw [Json.write, hopen, hclose]
  exact ⟨_, rfl⟩

theorem newline_not_mem_toJson (release : Release) : newline ∉ release.toJson :=
  newline_not_mem_write _

/-! ## Trimming -/

/-- A brace is not white space. -/
structure Trims (space : UInt8 → Bool) : Prop where
  left : space 0x7b = false
  right : space 0x7d = false

section

variable {read : Str → Option Doc} {space : UInt8 → Bool} {id : PkgName}

theorem trim_eq_nil {s : Str} : trim space s = [] ↔ ∀ c ∈ s, space c = true := by
  rw [trim, List.rdropWhile_eq_nil_iff]
  constructor
  · intro h
    have hnil : s.dropWhile space = [] := by
      by_contra hne
      have hhead := List.head_dropWhile_not space hne
      rw [h _ (List.head_mem hne)] at hhead
      cases hhead
    exact List.dropWhile_eq_nil_iff.1 hnil
  · intro h c hc
    exact h c (List.dropWhile_sublist space |>.mem hc)

/-- White space before the line of a release is trimmed away, and nothing else is. -/
theorem trim_toJson (hspace : Trims space) {tail : Str} (htail : trim space tail = [])
    (release : Release) : trim space (tail ++ release.toJson) = release.toJson := by
  obtain ⟨body, hbody⟩ := toJson_eq release
  have hdrop : (tail ++ release.toJson).dropWhile space = release.toJson := by
    rw [List.dropWhile_append_of_pos (trim_eq_nil.1 htail), hbody, List.dropWhile_cons_of_neg]
    simp [hspace.left]
  rw [trim, hdrop, hbody, ← List.cons_append, List.rdropWhile_concat_neg]
  simp [hspace.right]

theorem trim_append_ne_nil (hspace : Trims space) (tail : Str) (release : Release) :
    trim space (tail ++ release.toJson) ≠ [] := by
  obtain ⟨body, hbody⟩ := toJson_eq release
  intro h
  have hopen := trim_eq_nil.1 h 0x7b (by rw [hbody]; simp)
  rw [hspace.left] at hopen
  cases hopen

/-! ## The lines -/

theorem parseLines_append (ls ls' : List Str) (releases : List Release) :
    parseLines read space id (ls ++ ls') releases =
      (parseLines read space id ls releases).bind (parseLines read space id ls') := by
  induction ls generalizing releases with
  | nil => rfl
  | cons line rest ih =>
    rw [List.cons_append, parseLines, parseLines]
    by_cases hblank : trim space line = []
    · rw [if_pos hblank, if_pos hblank, ih]
    · rw [if_neg hblank, if_neg hblank]
      cases parseRel read id (trim space line) with
      | none => rfl
      | some release =>
        simp only
        split
        · rfl
        · exact ih _

/-- The last line of a file, if it has anything on it. -/
theorem parseLines_last {line : Str} {releases all : List Release}
    (hline : trim space line ≠ []) (h : parseLines read space id [line] releases = some all) :
    ∃ release, parseRel read id (trim space line) = some release ∧
      (∀ other ∈ releases, other.version ≠ release.version) ∧ all = releases ++ [release] := by
  rw [parseLines, if_neg hline] at h
  cases hrel : parseRel read id (trim space line) with
  | none =>
    rw [hrel] at h
    cases h
  | some release =>
    rw [hrel] at h
    simp only at h
    split at h
    · cases h
    · rename_i hany
      cases h
      refine ⟨release, rfl, fun other hother heq => hany ?_, rfl⟩
      exact List.any_eq_true.2 ⟨other, hother, by simpa using heq⟩

theorem parseLines_last_of {line : Str} {releases : List Release} {release : Release}
    (hline : trim space line ≠ []) (hrel : parseRel read id (trim space line) = some release)
    (hnew : ∀ other ∈ releases, other.version ≠ release.version) :
    parseLines read space id [line] releases = some (releases ++ [release]) := by
  have hany : ¬(releases.any fun other => other.version = release.version) = true := by
    rw [List.any_eq_true]
    rintro ⟨other, hother, heq⟩
    exact hnew other hother (by simpa using heq)
  rw [parseLines, if_neg hline, hrel]
  simp only
  rw [if_neg hany, parseLines]

/-- The releases of a file have a version each. -/
theorem parseLines_distinct {ls : List Str} {releases all : List Release}
    (h : parseLines read space id ls releases = some all)
    (hdistinct : (releases.map Release.version).Nodup) : (all.map Release.version).Nodup := by
  induction ls generalizing releases with
  | nil =>
    cases h
    exact hdistinct
  | cons line rest ih =>
    by_cases hblank : trim space line = []
    · rw [parseLines, if_pos hblank] at h
      exact ih h hdistinct
    · rw [← List.singleton_append, parseLines_append] at h
      obtain ⟨releases', hline, hrest⟩ := Option.bind_eq_some_iff.1 h
      obtain ⟨release, -, hnew, rfl⟩ := parseLines_last hblank hline
      refine ih hrest ?_
      rw [List.map_append, List.map_singleton, List.nodup_append]
      refine ⟨hdistinct, List.nodup_singleton _, fun v hv w hw hvw => ?_⟩
      obtain ⟨other, hother, rfl⟩ := List.mem_map.1 hv
      exact hnew other hother (hvw.trans (List.mem_singleton.1 hw))

/-! ## Sorting -/

instance : Std.Total byVersion where
  total lhs rhs := by
    unfold byVersion
    rw [Version.leq_iff, Version.leq_iff]
    exact le_total _ _

instance : IsTrans Release byVersion where
  trans a b c := by
    unfold byVersion
    rw [Version.leq_iff, Version.leq_iff, Version.leq_iff]
    exact le_trans

/-- Releases with a version each are sorted in one way. -/
theorem eq_of_sorted {a b : List Release} (ha : a.Pairwise byVersion) (hb : b.Pairwise byVersion)
    (hperm : a.Perm b) (hdistinct : (a.map Release.version).Nodup) : a = b := by
  refine hperm.eq_of_pairwise (fun x y hx hy hxy hyx => ?_) ha hb
  have hversion : x.version = y.version := by
    unfold byVersion at hxy hyx
    rw [Version.leq_iff] at hxy hyx
    exact Version.triple_inj.1 (le_antisymm hxy hyx)
  exact List.inj_on_of_nodup_map hdistinct hx (hperm.mem_iff.2 hy) hversion

/-! ## The file -/

theorem parsePkg_eq_some {blob : Str} {old : List Release} :
    parsePkg read space id blob = some old ↔ ∃ releases, releases ≠ [] ∧
      parseLines read space id (lines newline blob) [] = some releases ∧
      old = releases.insertionSort byVersion := by
  unfold parsePkg
  cases parseLines read space id (lines newline blob) [] with
  | none => simp
  | some releases =>
    cases releases with
    | nil => simp
    | cons release rest => simp [eq_comm]

/-- The lines of a file and of the file that was appended to differ in the last one. -/
theorem lines_appendRelease (blob : Str) (release : Release) : ∃ ls,
    lines newline blob =
      ls ++ (if unfinished newline blob = [] then [] else [unfinished newline blob]) ∧
    lines newline (appendRelease blob release) =
      ls ++ [unfinished newline blob ++ release.toJson] := by
  obtain ⟨init, hblob, hterminated, hnew⟩ := exists_unfinished newline blob
  generalize unfinished newline blob = tail at hblob hnew ⊢
  refine ⟨lines newline init, ?_, ?_⟩
  · rw [hblob, lines_append hterminated]
    by_cases htail : tail = []
    · simp [htail, lines]
    · rw [if_neg htail, lines_of_not_mem hnew htail]
  · have hline : newline ∉ tail ++ release.toJson := by
      simp [hnew, newline_not_mem_toJson release]
    rw [appendRelease, hblob, List.append_assoc, ← List.append_assoc tail,
      lines_append hterminated, lines_line hline]

/-- The new line is read alone where the file ended in a line break, or in white space. -/
theorem parsePkg_append_of_blank (hspace : Trims space) {blob : Str} {old : List Release}
    {release back : Release} (hblob : parsePkg read space id blob = some old)
    (hnew : ∀ other ∈ old, other.version ≠ release.version)
    (htail : trim space (unfinished newline blob) = [])
    (hback : back.version = release.version) :
    parsePkg read space id (appendRelease blob release) = some (old.orderedInsert byVersion back) ↔
      parseRel read id release.toJson = some back := by
  obtain ⟨releases, -, hreleases, rfl⟩ := parsePkg_eq_some.1 hblob
  obtain ⟨ls, hlines, happended⟩ := lines_appendRelease blob release
  generalize unfinished newline blob = tail at hlines happended htail
  have hls : parseLines read space id ls [] = some releases := by
    rw [hlines, parseLines_append] at hreleases
    obtain ⟨releases', hls, hrest⟩ := Option.bind_eq_some_iff.1 hreleases
    have hskip : parseLines read space id (if tail = [] then [] else [tail]) releases' =
        some releases' := by
      split
      · rfl
      · rw [parseLines, if_pos htail, parseLines]
    rw [hskip] at hrest
    rw [hls, hrest]
  have hdistinct := parseLines_distinct hls List.nodup_nil
  have hline : trim space (tail ++ release.toJson) = release.toJson :=
    trim_toJson hspace htail release
  have hne : trim space (tail ++ release.toJson) ≠ [] := trim_append_ne_nil hspace tail release
  have hperm := List.perm_insertionSort byVersion releases
  rw [parsePkg_eq_some, happended, parseLines_append, hls, Option.bind_some]
  constructor
  · rintro ⟨all, -, hall, hsorted⟩
    obtain ⟨found, hfound, hfresh, rfl⟩ := parseLines_last hne hall
    rw [hline] at hfound
    -- the new release is the one that the old ones do not have
    have hmem : found ∈ (releases.insertionSort byVersion).orderedInsert byVersion back := by
      rw [hsorted, List.mem_insertionSort]
      simp
    rcases (List.mem_orderedInsert byVersion).1 hmem with rfl | hmem
    · exact hfound
    · exact absurd rfl (hfresh found ((List.mem_insertionSort byVersion).1 hmem))
  · intro hback'
    have hfresh : ∀ other ∈ releases, other.version ≠ back.version := fun other hother =>
      hback ▸ hnew other ((List.mem_insertionSort byVersion).2 hother)
    have hinserted : ((releases.insertionSort byVersion).orderedInsert byVersion back).Perm
        (releases ++ [back]) :=
      (List.perm_orderedInsert byVersion _ _).trans
        ((hperm.cons back).trans (List.perm_append_singleton back releases).symm)
    have hversions : ((releases ++ [back]).map Release.version).Nodup := by
      rw [List.map_append, List.map_singleton, List.nodup_append]
      refine ⟨hdistinct, List.nodup_singleton _, fun v hv w hw hvw => ?_⟩
      obtain ⟨other, hother, rfl⟩ := List.mem_map.1 hv
      exact hfresh other hother (hvw.trans (List.mem_singleton.1 hw))
    refine ⟨releases ++ [back], by simp, parseLines_last_of hne (by rw [hline, hback']) hfresh, ?_⟩
    exact eq_of_sorted ((List.pairwise_insertionSort byVersion releases).orderedInsert back _)
      (List.pairwise_insertionSort byVersion _)
      (hinserted.trans (List.perm_insertionSort byVersion _).symm)
      ((hinserted.map Release.version).nodup_iff.2 hversions)

/-- A line that was not ended takes the new one with it. -/
theorem parsePkg_append_of_unfinished (hspace : Trims space) {blob : Str} {old : List Release}
    {release back : Release} (hblob : parsePkg read space id blob = some old)
    (htail : trim space (unfinished newline blob) ≠ []) :
    parsePkg read space id (appendRelease blob release) ≠
      some (old.orderedInsert byVersion back) := by
  obtain ⟨releases, -, hreleases, rfl⟩ := parsePkg_eq_some.1 hblob
  obtain ⟨ls, hlines, happended⟩ := lines_appendRelease blob release
  have hunfinished : unfinished newline blob ≠ [] := fun h => htail (by rw [h]; rfl)
  rw [if_neg hunfinished] at hlines
  generalize unfinished newline blob = tail at hlines happended htail
  rw [hlines, parseLines_append] at hreleases
  obtain ⟨before, hls, hlast⟩ := Option.bind_eq_some_iff.1 hreleases
  obtain ⟨last, -, -, rfl⟩ := parseLines_last htail hlast
  intro h
  obtain ⟨all, -, hall, hsorted⟩ := parsePkg_eq_some.1 h
  rw [happended, parseLines_append, hls, Option.bind_some] at hall
  obtain ⟨glued, -, -, rfl⟩ := parseLines_last (trim_append_ne_nil hspace tail release) hall
  have hlength := congrArg List.length hsorted
  simp only [List.orderedInsert_length, List.length_insertionSort, List.length_append,
    List.length_singleton] at hlength
  omega

/-- A package file that is read, with a release of a new version at its end, is read with
the release in its place just when the file ended in a line break, or in white space, and
the release is on its line in full. -/
theorem append_keeps_readable (hspace : Trims space) {blob : Str} {old : List Release}
    {release : Release} (hblob : parsePkg read space release.id blob = some old)
    (hnew : ∀ other ∈ old, other.version ≠ release.version) (hread : Inverts read release) :
    parsePkg read space release.id (appendRelease blob release) =
        some (old.orderedInsert byVersion release.plain) ↔
      trim space (unfinished newline blob) = [] ∧ release.Writable := by
  rw [← parseRel_toJson hread]
  by_cases htail : trim space (unfinished newline blob) = []
  · rw [parsePkg_append_of_blank hspace hblob hnew htail (by rfl)]
    exact (and_iff_right htail).symm
  · exact iff_of_false (parsePkg_append_of_unfinished hspace hblob htail) fun h => htail h.1

/-- A file of one line. -/
theorem parsePkg_line (hspace : Trims space) {blob : Str} {release : Release}
    (hlines : lines newline blob = [release.toJson])
    (hrel : parseRel read release.id release.toJson = some release.plain) :
    parsePkg read space release.id blob = some [release.plain] := by
  have htrim : trim space release.toJson = release.toJson :=
    @trim_toJson _ hspace [] rfl release
  have hne : trim space release.toJson ≠ [] := trim_append_ne_nil hspace [] release
  rw [parsePkg_eq_some, hlines]
  exact ⟨[release.plain], List.cons_ne_nil _ _,
    parseLines_last_of hne (by rw [htrim, hrel]) (fun _ h => by cases h), rfl⟩

end

/-! ## A file that ends in a line break, and one that does not -/

/-- The blank, the tabulator and the ends of lines. -/
def isSpace (c : UInt8) : Bool := c = 0x20 ∨ c = 0x09 ∨ c = 0x0a ∨ c = 0x0d

theorem trims_isSpace : Trims isSpace := ⟨by decide, by decide⟩

/-- Two releases of one package. -/
def oldRelease : Release := dependentRelease ⟨⟨⟨1, 0, 0⟩, .geq⟩, ⟨⟨2, 0, 0⟩, .lt⟩, .caret⟩

def nextRelease : Release := { oldRelease with version := ⟨1, 3, 0⟩ }

/-- The reader on the lines of the two. -/
def readerOfBoth (json : Str) : Option Doc :=
  if json = oldRelease.toJson then some oldRelease.cg.encode else readerOf nextRelease json

theorem toJson_ne : nextRelease.toJson ≠ oldRelease.toJson := by
  decide +kernel

theorem inverts_old : Inverts readerOfBoth oldRelease := if_pos rfl

theorem inverts_next : Inverts readerOfBoth nextRelease := by
  rw [Inverts, readerOfBoth, if_neg toJson_ne]
  exact inverts_readerOf nextRelease

theorem writable_old : oldRelease.Writable where
  version := by decide
  source := by
    show str "u" ≠ []
    decide +kernel
  manifest := trivial
  ranges := by decide +kernel
  gates dep hdep := by
    rw [List.mem_singleton.1 hdep]
    exact ⟨fun clause hclause => by rw [List.mem_singleton.1 hclause]; simp,
      fun clause hclause => by cases hclause⟩
  linkages := by decide
  defaults option hoption entry hentry := by
    rw [List.mem_singleton.1 hoption] at hentry
    rw [List.mem_singleton.1 hentry]
    exact ⟨by simp, fun clause hclause => by cases hclause⟩

theorem writable_next : nextRelease.Writable :=
  { writable_old with version := by decide }

theorem parsePkg_old {blob : Str} (hlines : lines newline blob = [oldRelease.toJson]) :
    parsePkg readerOfBoth isSpace nextRelease.id blob = some [oldRelease.plain] :=
  parsePkg_line trims_isSpace hlines ((parseRel_toJson inverts_old).2 writable_old)

theorem fresh_next : ∀ other ∈ [oldRelease.plain], other.version ≠ nextRelease.version := by
  intro other hother
  rw [List.mem_singleton.1 hother]
  decide

/-- After a line break the new release is read behind the old one. -/
theorem append_keeps_readable_terminated :
    parsePkg readerOfBoth isSpace nextRelease.id
        (appendRelease (oldRelease.toJson ++ [newline]) nextRelease) =
      some ([oldRelease.plain].orderedInsert byVersion nextRelease.plain) := by
  have hblob := parsePkg_old (lines_line (newline_not_mem_toJson oldRelease))
  have htail : trim isSpace (unfinished newline (oldRelease.toJson ++ [newline])) = [] := by
    decide +kernel
  exact (append_keeps_readable trims_isSpace hblob fresh_next inverts_next).2
    ⟨htail, writable_next⟩

/-- Without one the file is read, and is not read any more when a release was appended. -/
theorem append_unterminated :
    parsePkg readerOfBoth isSpace nextRelease.id oldRelease.toJson = some [oldRelease.plain] ∧
    Inverts readerOfBoth nextRelease ∧ nextRelease.Writable ∧
    parsePkg readerOfBoth isSpace nextRelease.id (appendRelease oldRelease.toJson nextRelease) =
      none := by
  have hne : oldRelease.toJson ≠ [] := by decide +kernel
  refine ⟨parsePkg_old (lines_of_not_mem (newline_not_mem_toJson _) hne), inverts_next,
    writable_next, ?_⟩
  have hlines : lines newline (appendRelease oldRelease.toJson nextRelease) =
      [oldRelease.toJson ++ nextRelease.toJson] := by
    rw [appendRelease, ← List.append_assoc, lines_line]
    simp [newline_not_mem_toJson]
  have hread : readerOfBoth (oldRelease.toJson ++ nextRelease.toJson) = none := by
    decide +kernel
  have htrim : trim isSpace (oldRelease.toJson ++ nextRelease.toJson) =
      oldRelease.toJson ++ nextRelease.toJson := by
    decide +kernel
  simp [parsePkg, hlines, parseLines, htrim, parseRel, hread, hne]

end Spn.Index
