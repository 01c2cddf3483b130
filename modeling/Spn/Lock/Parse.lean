import Spn.Lock.Text

/-! # Reading a lock

`spn_lock_file_parse` of `lock/lock.c`, given the parser. An assertion that fails yields
nothing. An entry is read back but for what its text leaves out and the reader fills in.
-/
namespace Spn.Lock

open Spn.Lib Spn.Lib.Toml
open Spn.Resolve (PkgSource)
open Spn.Index (RelPaths)

/-- `spn_pkg_source_from_str`. -/
def sourceFromStr (s : Str) : Option PkgSource :=
  if s = str "root" then some .root
  else if s = str "file" then some .file
  else if s = str "index" then some .index
  else none

/-- `spn_semver_from_str`, of bytes. -/
def versionFromStr (s : Str) : Version := Semver.fromStr (s.map fun b => Char.ofNat b.toNat)

/-- A pointer whose fields are empty where they are absent. -/
def parsePointer (url rev dir : Str) (fields : Fields) : Pointer where
  url := (fields.str? url).getD []
  rev := (fields.str? rev).getD []
  dir := (fields.str? dir).getD []

/-- The body of the loop of `spn_lock_file_parse`. -/
def parseEntry (fields : Fields) : Option LockEntry := do
  let name ← fields.str? (str "name")
  let version ← fields.str? (str "version")
  let commit ← fields.str? (str "commit")
  let kind ← sourceFromStr (← fields.str? (str "kind"))
  return {
    name, commit, kind
    version := versionFromStr version
    deps := (fields.arr? (str "deps")).getD []
    dependents := 0
    source := parsePointer (str "source_url") (str "source_rev") (str "source_dir") fields
    manifest := parsePointer (str "manifest_url") (str "manifest_rev") (str "manifest_dir") fields
    paths := ⟨(fields.str? (str "manifest_file")).getD (str "spn.toml"),
      (fields.str? (str "script_file")).getD (str "spn.c")⟩ }

/-- `sp_ht_insert(lock.system_deps, dep, true)`. -/
def LockFile.insertSystem (lock : LockFile) (dep : Str) : LockFile :=
  { lock with systemDeps := lock.systemDeps.insert dep () }

/-- `spn_lock_file_parse`. A text that is no TOML gives an empty lock. -/
def lockParse (parse : Str → Option Doc) (toml : Str) : Option LockFile :=
  match parse toml with
  | none => some LockFile.init
  | some root =>
    let systemDeps := match root.table? (str "package") with
      | none => []
      | some pkg => (pkg.arr? (str "system_deps")).getD []
    let lock := systemDeps.foldl LockFile.insertSystem LockFile.init
    match root.array? (str "dep") with
    | none => some lock
    | some deps => do
      let entries ← deps.mapM parseEntry
      return (entries.foldl LockFile.insert lock).buildDependents

/-! ## What an entry reads back as -/

/-- A pointer without a URL is not written. -/
def Pointer.read (pointer : Pointer) : Pointer := if pointer.url = [] then {} else pointer

/-- A path that is empty is not written, and is read as the default. -/
def readPaths (paths : RelPaths) : RelPaths where
  manifest := if paths.manifest = [] then str "spn.toml" else paths.manifest
  script := if paths.script = [] then str "spn.c" else paths.script

def LockEntry.read (entry : LockEntry) : LockEntry :=
  { entry with
    source := entry.source.read
    manifest := entry.manifest.read
    paths := readPaths entry.paths
    dependents := 0 }

theorem sourceFromStr_sourceToStr (source : PkgSource) :
    sourceFromStr (sourceToStr source) = some source := by
  cases source <;> decide +kernel

/-- What is written of a version is digits and dots. -/
theorem mem_versionToStr {version : Version} {c : Char}
    (h : c ∈ Semver.versionToStr version) : Semver.isDigit c = true ∨ c = '.' := by
  simp only [Semver.versionToStr, List.mem_append, List.mem_cons] at h
  rcases h with h | rfl | h | rfl | h
  · exact .inl (Semver.isDigit_of_mem_decimal h)
  · exact .inr rfl
  · exact .inl (Semver.isDigit_of_mem_decimal h)
  · exact .inr rfl
  · exact .inl (Semver.isDigit_of_mem_decimal h)

theorem versionFromStr_versionToStr {version : Version} (h : version.Fits) :
    versionFromStr (versionToStr version) = version := by
  have hchars : ((Semver.versionToStr version).map fun c => Char.ofNat c.toNat.toUInt8.toNat) =
      Semver.versionToStr version := by
    refine (List.map_congr_left fun c hc => ?_).trans (List.map_id _)
    have hlt : c.toNat < 256 := by
      rcases mem_versionToStr hc with h | rfl
      · simp only [Semver.isDigit, Bool.and_eq_true, decide_eq_true_eq, Char.le_def] at h
        exact lt_of_le_of_lt (UInt32.le_iff_toNat_le.1 h.2) (by decide)
      · decide
    have hbyte : c.toNat.toUInt8.toNat = c.toNat := by
      simp [Nat.mod_eq_of_lt hlt]
    rw [hbyte, id, Char.ofNat_toNat]
  calc versionFromStr (versionToStr version)
      = Semver.fromStr ((Semver.versionToStr version).map fun c =>
          Char.ofNat c.toNat.toUInt8.toNat) := by
        simp [versionFromStr, versionToStr, Index.versionText, Function.comp_def]
    _ = version := by rw [hchars, Semver.fromStr_versionToStr h]

theorem Pointer.read_eq (pointer : Pointer) : pointer.read =
    { url := if pointer.url ≠ [] then pointer.url else []
      rev := if pointer.url ≠ [] then pointer.rev else []
      dir := if pointer.url ≠ [] ∧ pointer.dir ≠ [] then pointer.dir else [] } := by
  obtain ⟨url, rev, dir⟩ := pointer
  by_cases hurl : url = []
  · simp [Pointer.read, hurl]
  · by_cases hdir : dir = [] <;> simp [Pointer.read, hurl, hdir]

theorem readPaths_eq (paths : RelPaths) : readPaths paths =
    { manifest := if paths.manifest ≠ [] then paths.manifest else str "spn.toml"
      script := if paths.script ≠ [] then paths.script else str "spn.c" } := by
  simp only [readPaths, ite_not]

/-- An entry is read back but for what its text leaves out. -/
theorem parseEntry_entryFields {entry : LockEntry} (h : entry.version.Fits) :
    parseEntry (entryFields entry) = some entry.read := by
  simp (disch := decide +kernel) only [parseEntry, parsePointer, Fields.str?, Fields.arr?,
    entryFields, pointerFields, List.append_assoc, get?_cons_self, get?_cons_ne, get?_opt_ne,
    get?_opt_self, get?_nil, getD_str?, getD_arr?]
  have hdeps : (if entry.deps ≠ [] then entry.deps else []) = entry.deps := by
    split_ifs with hne <;> simp_all
  simp only [Option.bind_some, Value.str?, Option.bind_eq_bind, sourceFromStr_sourceToStr,
    versionFromStr_versionToStr h, Option.pure_def, decide_eq_true_eq, LockEntry.read,
    Pointer.read_eq, readPaths_eq, hdeps]

/-- What is written of an entry says all of it. -/
structure LockEntry.Readable (entry : LockEntry) : Prop where
  source : entry.source.url = [] → entry.source = {}
  manifest : entry.manifest.url = [] → entry.manifest = {}
  paths : entry.paths.manifest ≠ [] ∧ entry.paths.script ≠ []

theorem Pointer.read_eq_self {pointer : Pointer} :
    pointer.read = pointer ↔ (pointer.url = [] → pointer = {}) := by
  unfold Pointer.read
  split_ifs with h
  · exact ⟨fun h _ => h.symm, fun hp => (hp h).symm⟩
  · simp [h]

theorem readPaths_eq_self {paths : RelPaths} :
    readPaths paths = paths ↔ paths.manifest ≠ [] ∧ paths.script ≠ [] := by
  have hmanifest : str "spn.toml" ≠ [] := by decide +kernel
  have hscript : str "spn.c" ≠ [] := by decide +kernel
  obtain ⟨manifest, script⟩ := paths
  by_cases hm : manifest = [] <;> by_cases hs : script = [] <;>
    simp [readPaths, hm, hs, hmanifest, hscript]

theorem LockEntry.read_eq_bare {entry : LockEntry} :
    entry.read = entry.bare ↔ entry.Readable := by
  constructor
  · intro h
    exact ⟨Pointer.read_eq_self.1 (congrArg LockEntry.source h),
      Pointer.read_eq_self.1 (congrArg LockEntry.manifest h),
      readPaths_eq_self.1 (congrArg LockEntry.paths h)⟩
  · intro h
    simp only [read, bare, Pointer.read_eq_self.2 h.source, Pointer.read_eq_self.2 h.manifest,
      readPaths_eq_self.2 h.paths]

/-! ## What a lock reads back as -/

theorem mapM_parseEntry {entries : List LockEntry} (h : ∀ entry ∈ entries, entry.version.Fits) :
    (entries.map entryFields).mapM parseEntry = some (entries.map LockEntry.read) := by
  induction entries with
  | nil => rfl
  | cons entry rest ih =>
    rw [List.map_cons, List.mapM_cons, parseEntry_entryFields (h _ List.mem_cons_self),
      ih fun entry he => h _ (List.mem_cons_of_mem _ he)]
    rfl

namespace LockFile

/-- A lock with its entries read back, but for the dependents. -/
def read (lock : LockFile) : LockFile where
  entries := lock.entries.map fun _ entry => entry.read
  own name entry h := by
    obtain ⟨before, hbefore, rfl⟩ := Option.map_eq_some_iff.1
      ((Std.ExtTreeMap.getElem?_map ..).symm.trans h)
    exact (lock.own name before hbefore :)
  systemDeps := lock.systemDeps

theorem getElem?_read (lock : LockFile) (name : Str) :
    lock.read.entries[name]? = lock.entries[name]?.map LockEntry.read := by
  simp [read]

/-- Entries of different names are inserted in any order. -/
theorem getElem?_foldl_insert {entries : List LockEntry}
    (h : entries.Pairwise fun a b => a.name ≠ b.name) (lock : LockFile) (name : Str)
    (entry : LockEntry) :
    (entries.foldl insert lock).entries[name]? = some entry ↔
      entry ∈ entries ∧ entry.name = name ∨
        (∀ other ∈ entries, other.name ≠ name) ∧ lock.entries[name]? = some entry := by
  have hfold : (entries.foldl insert lock).entries =
      (entries.map fun entry => (entry.name, entry)).foldl
        (fun t entry => t.insert entry.1 entry.2) lock.entries := by
    clear h
    induction entries generalizing lock with
    | nil => rfl
    | cons entry rest ih => exact ih _
  rw [hfold, Table.getElem?_foldl_insert (List.pairwise_map.2 h)]
  refine or_congr ⟨?_, ?_⟩ (and_congr_left fun _ => ⟨?_, ?_⟩)
  · intro hmem
    obtain ⟨other, hother, heq⟩ := List.mem_map.1 hmem
    cases heq
    exact ⟨hother, rfl⟩
  · rintro ⟨hmem, rfl⟩
    exact List.mem_map.2 ⟨entry, hmem, rfl⟩
  · intro hnone other hmem hname
    exact hnone other (List.mem_map.2 ⟨other, hmem, by rw [hname]⟩)
  · intro hnone other hmem
    obtain ⟨_, hother, heq⟩ := List.mem_map.1 hmem
    cases heq
    exact hnone _ hother rfl

theorem systemDeps_foldl_insert (entries : List LockEntry) (lock : LockFile) :
    (entries.foldl insert lock).systemDeps = lock.systemDeps := by
  induction entries generalizing lock with
  | nil => rfl
  | cons entry rest ih => exact ih _

theorem foldl_insertSystem (deps : List Str) (lock : LockFile) :
    (deps.foldl insertSystem lock).entries = lock.entries ∧
    (deps.foldl insertSystem lock).systemDeps =
      deps.foldl (fun t dep => t.insert dep ()) lock.systemDeps := by
  induction deps generalizing lock with
  | nil => exact ⟨rfl, rfl⟩
  | cons dep rest ih => exact ih _

/-- A lock without entries has no dependents to name. -/
theorem buildDependents_eq_self {lock : LockFile} (h : lock.entries = ∅) :
    lock.buildDependents = lock := by
  unfold buildDependents
  rw [h]
  rfl

/-- The entries of a lock, by their names. -/
theorem entries_distinct (lock : LockFile) :
    (lock.entries.toList.map Prod.snd).Pairwise fun a b => a.name ≠ b.name := by
  refine List.pairwise_map.2 (lock.entries.toList_distinct.imp_of_mem ?_)
  rintro ⟨a, entry⟩ ⟨b, other⟩ ha hb hne heq
  have hown := lock.own _ _ (lock.entries.mem_toList_iff.1 ha)
  have hother := lock.own _ _ (lock.entries.mem_toList_iff.1 hb)
  exact hne (hown.symm.trans (heq.trans hother))

theorem mem_entries (lock : LockFile) (entry : LockEntry) :
    entry ∈ lock.entries.toList.map Prod.snd ↔ lock.entries[entry.name]? = some entry := by
  constructor
  · intro h
    obtain ⟨⟨name, _⟩, hmem, rfl⟩ := List.mem_map.1 h
    have hget := lock.entries.mem_toList_iff.1 hmem
    rwa [← lock.own _ _ hget] at hget
  · intro h
    exact List.mem_map.2 ⟨(entry.name, entry), lock.entries.mem_toList_iff.2 h, rfl⟩

/-- Inserting what the entries read back as. -/
theorem foldl_insert_read (lock : LockFile) :
    ((lock.entries.toList.map Prod.snd).map LockEntry.read).foldl insert
      ((lock.systemDeps.toList.map Prod.fst).foldl insertSystem init) = lock.read := by
  refine LockFile.ext ?_ ?_
  · refine Std.ExtTreeMap.ext_getElem? fun name => Option.ext fun entry => ?_
    have hdistinct : ((lock.entries.toList.map Prod.snd).map LockEntry.read).Pairwise
        fun a b => a.name ≠ b.name := List.pairwise_map.2 lock.entries_distinct
    rw [getElem?_foldl_insert hdistinct, getElem?_read, Option.map_eq_some_iff]
    constructor
    · rintro (⟨hmem, rfl⟩ | ⟨-, hget⟩)
      · obtain ⟨before, hbefore, rfl⟩ := List.mem_map.1 hmem
        exact ⟨before, (lock.mem_entries before).1 hbefore, rfl⟩
      · rw [(foldl_insertSystem _ _).1] at hget
        simp [init] at hget
    · rintro ⟨before, hget, rfl⟩
      have hname := lock.own _ _ hget
      refine .inl ⟨List.mem_map_of_mem ((lock.mem_entries before).2 ?_), hname⟩
      rwa [hname]
  · rw [systemDeps_foldl_insert, (foldl_insertSystem _ _).2]
    rw [List.foldl_map]
    exact lock.systemDeps.foldl_insert_toList

end LockFile

/-- What the parser of a lock makes of its text. -/
theorem lockParse_text {S : Syntax} {build : Build} {lock : LockFile}
    (h : S.Reads (lockDoc build lock))
    (hfits : ∀ entry ∈ lock.entries.toList.map Prod.snd, entry.version.Fits) :
    lockParse S.parse ((lockDoc build lock).text S.quote) = some lock.read.buildDependents := by
  have hspn : str "spn" ≠ str "package" := by decide +kernel
  set deps := lock.systemDeps.toList.map Prod.fst with hdeps
  have hsystem : (match (lockDoc build lock).table? (str "package") with
      | none => []
      | some pkg => (pkg.arr? (str "system_deps")).getD []) = deps := by
    by_cases hempty : deps = []
    · simp [lockDoc, Doc.table?, ← hdeps, hempty, hspn]
    · simp [lockDoc, Doc.table?, ← hdeps, hempty, hspn, Fields.arr?, get?_cons_self, Value.arr?]
  rw [lockParse, h]
  simp only [hsystem]
  by_cases hempty : lock.entries.toList.map Prod.snd = []
  · have harray : (lockDoc build lock).array? (str "dep") = none := by
      simp [lockDoc, Doc.array?, arraysOf, hempty]
    have hread := lock.foldl_insert_read
    rw [hempty] at hread
    simp only [harray, ← hread, List.map_nil, List.foldl_nil, ← hdeps]
    rw [LockFile.buildDependents_eq_self]
    exact (LockFile.foldl_insertSystem _ _).1
  · have harray : (lockDoc build lock).array? (str "dep") =
        some ((lock.entries.toList.map Prod.snd).map entryFields) := by
      have hne : (lock.entries.toList.map Prod.snd).map entryFields ≠ [] :=
        mt List.map_eq_nil_iff.1 hempty
      simp only [lockDoc, Doc.array?, arraysOf, if_neg hne]
      simp
    simp only [harray, mapM_parseEntry hfits, Option.bind_eq_bind, Option.bind_some,
      Option.pure_def, ← lock.foldl_insert_read, ← hdeps]

end Spn.Lock
