import Spn.Lib.Toml
import Spn.Lock.Build
import Spn.Semver.Print

/-! # The text of a lock

`spn_toml_writer` of `external/tom.c` and `spn_lock_file_to_str` of `lock/lock.c`: a lock is
printed by hand. What is printed is the text of a document, the one the reader is to get
from a parser.
-/
namespace Spn.Lock

open Spn.Lib Spn.Lib.Toml
open Spn.Resolve (PkgSource)

/-! ## The writer -/

/-- `spn_toml_context_kind_t`. -/
inductive ContextKind
  | root | table | array
  deriving DecidableEq, Repr

/-- `spn_toml_context_t`. -/
structure Context where
  kind : ContextKind
  key : Str
  headerWritten : Bool
  deriving DecidableEq, Repr

/-- `spn_toml_writer_t`: what is written, and the contexts, the innermost first. -/
structure Writer where
  stack : List Context
  out : Str
  deriving DecidableEq, Repr

namespace Writer

/-- `spn_toml_writer_new`. -/
def new : Writer := ⟨[⟨.root, [], true⟩], []⟩

def write (writer : Writer) (text : Str) : Writer := { writer with out := writer.out ++ text }

/-- The keys of the contexts from the outside in, but for the root. -/
def path (writer : Writer) : Str := joined [0x2e] ((writer.stack.reverse.drop 1).map Context.key)

/-- `top->header_written = true`. -/
def markHeader (writer : Writer) : Writer :=
  { writer with stack := writer.stack.modifyHead fun top => { top with headerWritten := true } }

/-- `spn_toml_ensure_header_written`. -/
def ensureHeaderWritten (writer : Writer) : Option Writer := do
  let top ← writer.stack.head?
  if top.headerWritten then return writer
  let header := if top.kind = .table then [0x5b] ++ (writer.path ++ [0x5d]) else []
  return (writer.write (header ++ [0x0a])).markHeader

/-- `spn_toml_begin_table`. -/
def beginTable (writer : Writer) (key : Str) : Writer :=
  { writer with stack := ⟨.table, key, false⟩ :: writer.stack }

/-- `spn_toml_begin_array`. -/
def beginArray (writer : Writer) (key : Str) : Writer :=
  { writer with stack := ⟨.array, key, false⟩ :: writer.stack }

/-- `spn_toml_end_table` and `spn_toml_end_array`. -/
def close (kind : ContextKind) (writer : Writer) : Option Writer :=
  match writer.stack with
  | top :: below :: rest =>
    if top.kind = kind then some { stack := below :: rest, out := writer.out ++ [0x0a] } else none
  | _ => none

def endTable : Writer → Option Writer := close .table

def endArray : Writer → Option Writer := close .array

/-- `spn_toml_append_array_table`. -/
def appendArrayTable (writer : Writer) : Option Writer :=
  match writer.stack with
  | top :: _ :: _ =>
    if top.kind = .array then
      let blank := if top.headerWritten then [0x0a] else []
      some (writer.write (blank ++ ([0x5b, 0x5b] ++ (writer.path ++ [0x5d, 0x5d, 0x0a])))).markHeader
    else none
  | _ => none

variable (quote : Str → Str)

/-- `spn_toml_append_str`. -/
def appendStr (key value : Str) (writer : Writer) : Option Writer := do
  let writer ← writer.ensureHeaderWritten
  return writer.write (key ++ ([0x20, 0x3d, 0x20] ++ (quote value ++ [0x0a])))

/-- The loop of `spn_toml_append_str_carr`. -/
def elements : List Str → Str
  | [] => []
  | [value] => quote value
  | value :: rest => quote value ++ ([0x2c, 0x20] ++ elements rest)

/-- `spn_toml_append_str_array`. -/
def appendStrArray (key : Str) (values : List Str) (writer : Writer) : Option Writer := do
  let writer ← writer.ensureHeaderWritten
  return writer.write
    (key ++ ([0x20, 0x3d, 0x20, 0x5b] ++ (elements quote values ++ [0x5d, 0x0a])))

/-- `spn_toml_writer_write`. -/
def finish (writer : Writer) : Option Str :=
  if writer.stack.length = 1 then some writer.out else none

end Writer

/-! ## Writing a lock -/

/-- `spn_pkg_source_to_str`. -/
def sourceToStr : PkgSource → Str
  | .root => str "root"
  | .file => str "file"
  | .index => str "index"

/-- `spn_semver_to_str`, as bytes. -/
def versionToStr (version : Version) : Str := Index.versionText (Semver.versionToStr version)

/-- What is compiled in: `SPN_VERSION` and `spn_build_commit`. -/
structure Build where
  version : Str
  commit : Str
  deriving DecidableEq, Repr

section

variable (quote : Str → Str)

/-- The block of `spn_lock_file_to_str` for a pointer: without a URL nothing is written. -/
def appendPointer (url rev dir : Str) (pointer : Pointer) (writer : Writer) : Option Writer :=
  if pointer.url = [] then some writer
  else do
    let writer ← writer.appendStr quote url pointer.url
    let writer ← writer.appendStr quote rev pointer.rev
    if pointer.dir = [] then return writer
    writer.appendStr quote dir pointer.dir

/-- A string that is written unless it is empty. -/
def appendNonempty (key value : Str) (writer : Writer) : Option Writer :=
  if value = [] then some writer else writer.appendStr quote key value

/-- The body of the loop over the entries. -/
def appendEntry (writer : Writer) (entry : LockEntry) : Option Writer := do
  let writer ← writer.appendArrayTable
  let writer ← writer.appendStr quote (str "name") entry.name
  let writer ← writer.appendStr quote (str "version") (versionToStr entry.version)
  let writer ← writer.appendStr quote (str "commit") entry.commit
  let writer ← writer.appendStr quote (str "kind") (sourceToStr entry.kind)
  let writer ← appendPointer quote (str "source_url") (str "source_rev") (str "source_dir")
    entry.source writer
  let writer ← appendPointer quote (str "manifest_url") (str "manifest_rev") (str "manifest_dir")
    entry.manifest writer
  let writer ← appendNonempty quote (str "manifest_file") entry.paths.manifest writer
  let writer ← appendNonempty quote (str "script_file") entry.paths.script writer
  if entry.deps = [] then return writer
  writer.appendStrArray quote (str "deps") entry.deps

/-- `spn_lock_file_to_str`. The tables list their keys in alphabetical order. -/
def lockToStr (build : Build) (lock : LockFile) : Option Str := do
  let writer := Writer.new.beginTable (str "spn")
  let writer ← writer.appendStr quote (str "version") build.version
  let writer ← writer.appendStr quote (str "commit") build.commit
  let writer ← writer.endTable
  let systemDeps := lock.systemDeps.toList.map Prod.fst
  let writer ← if systemDeps = [] then some writer
    else do
      let writer := writer.beginTable (str "package")
      let writer ← writer.appendStrArray quote (str "system_deps") systemDeps
      writer.endTable
  let writer := writer.beginArray (str "dep")
  let writer ← (lock.entries.toList.map Prod.snd).foldlM (appendEntry quote) writer
  let writer ← writer.endArray
  writer.finish

end

/-! ## The document of a lock -/

/-- The fields of a pointer. -/
def pointerFields (url rev dir : Str) (pointer : Pointer) : Fields :=
  Fields.opt (pointer.url ≠ []) url (.str pointer.url) ++
    (Fields.opt (pointer.url ≠ []) rev (.str pointer.rev) ++
      Fields.opt (pointer.url ≠ [] ∧ pointer.dir ≠ []) dir (.str pointer.dir))

/-- The fields of an entry. -/
def entryFields (entry : LockEntry) : Fields :=
  (str "name", .str entry.name) ::
  (str "version", .str (versionToStr entry.version)) ::
  (str "commit", .str entry.commit) ::
  (str "kind", .str (sourceToStr entry.kind)) ::
  (pointerFields (str "source_url") (str "source_rev") (str "source_dir") entry.source ++
    (pointerFields (str "manifest_url") (str "manifest_rev") (str "manifest_dir") entry.manifest ++
      (Fields.opt (entry.paths.manifest ≠ []) (str "manifest_file") (.str entry.paths.manifest) ++
        (Fields.opt (entry.paths.script ≠ []) (str "script_file") (.str entry.paths.script) ++
          (Fields.opt (entry.deps ≠ []) (str "deps") (.arr entry.deps) ++ [])))))

/-- An array that is there only with elements. -/
def arraysOf (name : Str) (elements : List Fields) : List (Str × List Fields) :=
  if elements = [] then [] else [(name, elements)]

/-- The document of a lock. -/
def lockDoc (build : Build) (lock : LockFile) : Doc where
  tables :=
    (str "spn", [(str "version", .str build.version), (str "commit", .str build.commit)]) ::
      if lock.systemDeps.toList.map Prod.fst = [] then []
      else [(str "package", [(str "system_deps", .arr (lock.systemDeps.toList.map Prod.fst))])]
  arrays := arraysOf (str "dep") ((lock.entries.toList.map Prod.snd).map entryFields)

/-! ## What is printed is the text of the document -/

namespace Writer

/-- The innermost context has its header. -/
def Open (writer : Writer) : Prop := ∃ top ∈ writer.stack.head?, top.headerWritten = true

variable {writer : Writer} {quote : Str → Str}

theorem open_write (h : writer.Open) (text : Str) : (writer.write text).Open := h

theorem write_write (writer : Writer) (a b : Str) :
    (writer.write a).write b = writer.write (a ++ b) := by
  simp [write]

theorem write_nil (writer : Writer) : writer.write [] = writer := by
  simp [write]

theorem ensureHeaderWritten_open (h : writer.Open) : writer.ensureHeaderWritten = some writer := by
  obtain ⟨top, htop, hwritten⟩ := h
  simp [ensureHeaderWritten, Option.mem_def.1 htop, hwritten]

theorem elements_eq (values : List Str) :
    elements quote values = joined [0x2c, 0x20] (values.map quote) := by
  induction values with
  | nil => rfl
  | cons value rest ih => cases rest with
    | nil => rfl
    | cons next rest =>
      rw [elements, ih]
      · rfl
      · exact List.cons_ne_nil _ _

theorem appendStr_open (h : writer.Open) (key value : Str) :
    writer.appendStr quote key value = some (writer.write (fieldText quote (key, .str value))) := by
  simp [appendStr, ensureHeaderWritten_open h, fieldText, Value.text]

theorem appendStrArray_open (h : writer.Open) (key : Str) (values : List Str) :
    writer.appendStrArray quote key values =
      some (writer.write (fieldText quote (key, .arr values))) := by
  simp [appendStrArray, ensureHeaderWritten_open h, fieldText, Value.text, elements_eq]

end Writer

section

variable {writer : Writer} {quote : Str → Str}

/-- The text of some fields. -/
def fieldsText (quote : Str → Str) (fields : Fields) : Str := fields.flatMap (fieldText quote)

theorem elementText_eq (name : Str) (fields : Fields) : elementText quote name fields =
    [0x5b, 0x5b] ++ (name ++ ([0x5d, 0x5d, 0x0a] ++ fieldsText quote fields)) := by
  rw [elementText, fieldsText]

theorem fieldsText_append (a b : Fields) :
    fieldsText quote (a ++ b) = fieldsText quote a ++ fieldsText quote b :=
  List.flatMap_append

theorem fieldsText_cons (field : Str × Value) (rest : Fields) :
    fieldsText quote (field :: rest) = fieldText quote field ++ fieldsText quote rest :=
  List.flatMap_cons

theorem fieldsText_opt {present : Bool} {key : Str} {value : Value} :
    fieldsText quote (Fields.opt present key value) =
      if present then fieldText quote (key, value) else [] := by
  cases present <;> simp [fieldsText, Fields.opt]

theorem appendPointer_open (h : writer.Open) (url rev dir : Str) (pointer : Pointer) :
    appendPointer quote url rev dir pointer writer =
      some (writer.write (fieldsText quote (pointerFields url rev dir pointer))) := by
  simp only [appendPointer, pointerFields, fieldsText_append, fieldsText_opt]
  by_cases hurl : pointer.url = []
  · simp [hurl, Writer.write_nil]
  · by_cases hdir : pointer.dir = [] <;>
      simp [hurl, hdir, Writer.appendStr_open, h, Writer.open_write, Writer.write_write]

theorem appendNonempty_open (h : writer.Open) (key value : Str) :
    appendNonempty quote key value writer =
      some (writer.write (fieldsText quote (Fields.opt (value ≠ []) key (.str value)))) := by
  simp only [appendNonempty, fieldsText_opt]
  by_cases hvalue : value = [] <;> simp [hvalue, Writer.appendStr_open h, Writer.write_nil]

/-- The writer inside of the array of the entries. -/
def inArray (headerWritten : Bool) (out : Str) : Writer :=
  ⟨[⟨.array, str "dep", headerWritten⟩, ⟨.root, [], true⟩], out⟩

theorem inArray_open (out : Str) : (inArray true out).Open := ⟨_, rfl, rfl⟩

theorem write_inArray (headerWritten : Bool) (out text : Str) :
    (inArray headerWritten out).write text = inArray headerWritten (out ++ text) := by
  rw [Writer.write, inArray, inArray]

theorem appendArrayTable_inArray (headerWritten : Bool) (out : Str) :
    (inArray headerWritten out).appendArrayTable =
      some (inArray true (out ++ ((if headerWritten then [0x0a] else []) ++
        ([0x5b, 0x5b] ++ (str "dep" ++ [0x5d, 0x5d, 0x0a]))))) := by
  simp [inArray, Writer.appendArrayTable, Writer.path, Writer.write, Writer.markHeader, joined]

/-- An entry is written as the element of the array that has its fields. -/
theorem appendEntry_inArray (headerWritten : Bool) (out : Str) (entry : LockEntry) :
    appendEntry quote (inArray headerWritten out) entry =
      some (inArray true (out ++ ((if headerWritten then [0x0a] else []) ++
        elementText quote (str "dep") (entryFields entry)))) := by
  have hopen := inArray_open
  have hdeps : ∀ out, (if entry.deps = [] then some (inArray true out)
      else (inArray true out).appendStrArray quote (str "deps") entry.deps) =
      some (inArray true (out ++
        fieldsText quote (Fields.opt (entry.deps ≠ []) (str "deps") (.arr entry.deps)))) := by
    intro out
    rw [fieldsText_opt]
    by_cases h : entry.deps = [] <;>
      simp [h, Writer.appendStrArray_open (hopen _), write_inArray]
  simp only [appendEntry, appendArrayTable_inArray, Option.bind_eq_bind, Option.bind_some,
    Writer.appendStr_open (hopen _), appendPointer_open (hopen _), appendNonempty_open (hopen _),
    write_inArray, Option.pure_def, hdeps]
  simp only [elementText_eq, entryFields, fieldsText_cons, fieldsText_append, List.append_nil,
    List.append_assoc]

/-- The entries are written as the array of their fields. -/
theorem appendEntries_inArray (out : Str) (entries : List LockEntry) :
    entries.foldlM (appendEntry quote) (inArray false out) =
      some (inArray (entries ≠ [])
        (out ++ (arraysOf (str "dep") (entries.map entryFields)).flatMap (arrayText quote))) := by
  have hrest : ∀ (rest : List LockEntry) (out : Str),
      rest.foldlM (appendEntry quote) (inArray true out) = some (inArray true
        (out ++ (rest.map fun entry => elementText quote (str "dep") (entryFields entry)).flatMap
          fun next => [0x0a] ++ next)) := by
    intro rest
    induction rest with
    | nil => simp
    | cons entry rest ih =>
      intro out
      simp [List.foldlM_cons, appendEntry_inArray, ih]
  cases entries with
  | nil => simp [arraysOf]
  | cons entry rest =>
    simp [List.foldlM_cons, appendEntry_inArray, hrest, arraysOf, arrayText, joined_cons,
      Function.comp_def]

/-- The writer at the top, and inside of a table. -/
def atRoot (out : Str) : Writer := ⟨[⟨.root, [], true⟩], out⟩

def inTable (name out : Str) : Writer := ⟨[⟨.table, name, true⟩, ⟨.root, [], true⟩], out⟩

theorem inTable_open (name out : Str) : (inTable name out).Open := ⟨_, rfl, rfl⟩

theorem write_inTable (name out text : Str) :
    (inTable name out).write text = inTable name (out ++ text) := by
  rw [Writer.write, inTable, inTable]

theorem endTable_inTable (name out : Str) :
    (inTable name out).endTable = some (atRoot (out ++ [0x0a])) := by
  simp [inTable, atRoot, Writer.endTable, Writer.close]

theorem endArray_inArray (headerWritten : Bool) (out : Str) :
    (inArray headerWritten out).endArray = some (atRoot (out ++ [0x0a])) := by
  simp [inArray, atRoot, Writer.endArray, Writer.close]

/-- The first field of a table comes after its header. -/
theorem ensureHeaderWritten_beginTable (name out : Str) :
    ((atRoot out).beginTable name).ensureHeaderWritten =
      some (inTable name (out ++ ([0x5b] ++ (name ++ [0x5d, 0x0a])))) := by
  simp [atRoot, inTable, Writer.beginTable, Writer.ensureHeaderWritten, Writer.path, joined,
    Writer.write, Writer.markHeader]

theorem appendStr_beginTable (name key value out : Str) :
    ((atRoot out).beginTable name).appendStr quote key value = some (inTable name
      (out ++ ([0x5b] ++ (name ++ ([0x5d, 0x0a] ++ fieldText quote (key, .str value)))))) := by
  simp [Writer.appendStr, ensureHeaderWritten_beginTable, write_inTable, fieldText, Value.text]

theorem appendStrArray_beginTable (name key : Str) (values : List Str) (out : Str) :
    ((atRoot out).beginTable name).appendStrArray quote key values = some (inTable name
      (out ++ ([0x5b] ++ (name ++ ([0x5d, 0x0a] ++ fieldText quote (key, .arr values)))))) := by
  simp [Writer.appendStrArray, ensureHeaderWritten_beginTable, write_inTable, fieldText,
    Value.text, Writer.elements_eq]

/-- No assertion of the writer fails, and what is printed is the text of the document. -/
theorem lockToStr_eq (build : Build) (lock : LockFile) :
    lockToStr quote build lock = some ((lockDoc build lock).text quote) := by
  have hnew : Writer.new = atRoot [] := rfl
  have hbegin : ∀ out, (atRoot out).beginArray (str "dep") = inArray false out := fun _ => rfl
  have hfinish : ∀ out, (atRoot out).finish = some out := fun _ => rfl
  by_cases hdeps : lock.systemDeps.toList.map Prod.fst = []
  · simp only [lockToStr, lockDoc, hnew, appendStr_beginTable, Option.bind_eq_bind,
      Option.bind_some, Writer.appendStr_open (inTable_open _ _), write_inTable, endTable_inTable,
      hdeps, if_true, hbegin, appendEntries_inArray, endArray_inArray, hfinish]
    simp [Doc.text, tableText]
  · simp only [lockToStr, lockDoc, hnew, appendStr_beginTable, Option.bind_eq_bind,
      Option.bind_some, Writer.appendStr_open (inTable_open _ _), write_inTable, endTable_inTable,
      hdeps, if_false, appendStrArray_beginTable, hbegin, appendEntries_inArray, endArray_inArray,
      hfinish]
    simp [Doc.text, tableText]

end

end Spn.Lock
