import Spn.Options.Merge

/-! # The JSON of a release

`codegen/json.c`, the element codecs of `codegen/when.c` and `codegen/options.c`, and the
writer that `tools/gen` makes of `codegen/schema/release.jtd.json`. The reader it makes is
given; what it yields for a gate or for the defaults of an option is a JSON value, which
the element codecs take apart.
-/
namespace Spn.Index

open Spn.Resolve Spn.Options

/-! ## Values -/

/-- A JSON value. Numbers are like null to every codec here. -/
inductive Json
  | null
  | bool (b : Bool)
  | str (s : Str)
  | arr (elements : List Json)
  | obj (fields : List (Str × Json))

namespace Json

/-- `yyjson_obj_get`: the first field of that name. -/
def get? (key : Str) : Json → Option Json
  | .obj fields => (fields.find? fun field => field.1 = key).map Prod.snd
  | _ => none

end Json

/-- A digit of `hex`. -/
def hexDigit (n : ℕ) : UInt8 := if n < 10 then (0x30 + n).toUInt8 else (0x57 + n).toUInt8

/-- One byte as `spn_codegen_json_str` writes it. -/
def escape (c : UInt8) : Str :=
  if c = 0x22 ∨ c = 0x5c then [0x5c, c]
  else if c < 0x20 then str "\\u00" ++ [hexDigit (c.toNat / 16), hexDigit (c.toNat % 16)]
  else [c]

/-- `spn_codegen_json_str`. -/
def jsonStr (s : Str) : Str := 0x22 :: (s.flatMap escape ++ [0x22])

/-- `spn_codegen_json_bool`. -/
def jsonBool (b : Bool) : Str := if b then str "true" else str "false"

mutual

/-- A value without blanks. -/
def Json.write : Json → Str
  | .null => str "null"
  | .bool b => jsonBool b
  | .str s => jsonStr s
  | .arr elements => str "[" ++ (writeEach elements ++ str "]")
  | .obj fields => str "\x7b" ++ (writeFields fields ++ str "\x7d")

def writeEach : List Json → Str
  | [] => []
  | [element] => element.write
  | element :: rest => element.write ++ (str "," ++ writeEach rest)

def writeFields : List (Str × Json) → Str
  | [] => []
  | [(key, value)] => jsonStr key ++ (str ":" ++ value.write)
  | (key, value) :: rest =>
    jsonStr key ++ (str ":" ++ (value.write ++ (str "," ++ writeFields rest)))

end

/-! ## Gates and defaults -/

/-- `spn_toml_loader_write_option_value`. -/
def writeOptionValue : OptionValue → Json
  | .str s => .str s
  | .bool b => .bool b
  | .none => .null

/-- `spn_json_option_value`. -/
def readOptionValue : Json → OptionValue
  | .bool b => .bool b
  | .str s => .str s
  | _ => .none

/-- `spn_codegen_write_when`. -/
def writeWhen (clauses : List Clause) : Json :=
  .obj (clauses.map fun clause => (clause.key,
    if clause.negated then .obj [(str "not", writeOptionValue clause.value)]
    else writeOptionValue clause.value))

/-- The loop body of `spn_json_read_when`: a clause without a value is skipped. -/
def readClause (field : Str × Json) : Option Clause :=
  let (negated, value) :=
    match field.2.get? (str "not") with
    | some negation => (true, negation)
    | none => (false, field.2)
  match readOptionValue value with
  | .none => none
  | value => some ⟨field.1, value, negated⟩

/-- `spn_json_read_when`. -/
def readWhen : Option Json → List Clause
  | some (.obj fields) => fields.filterMap readClause
  | _ => []

/-- A field that is written only where it is present. -/
def field? (present : Bool) (key : String) (value : Json) : List (Str × Json) :=
  if present then [(str key, value)] else []

/-- `spn_codegen_when_present`. -/
def whenPresent (clauses : List Clause) : Bool := !clauses.isEmpty

/-- `spn_codegen_write_option_defaults`. -/
def writeOptionDefaults (defaults : List OptionDefault) : Json :=
  .arr (defaults.map fun entry => .obj ((str "value", writeOptionValue entry.value) ::
    field? (whenPresent entry.gate) "when" (writeWhen entry.gate)))

/-- The loop body of `spn_json_read_option_defaults`: an element without a value is
skipped. -/
def readOptionDefault : Json → Option OptionDefault
  | .obj fields =>
    match ((Json.obj fields).get? (str "value")).elim .none readOptionValue with
    | .none => none
    | value => some ⟨readWhen ((Json.obj fields).get? (str "when")), value⟩
  | _ => none

/-- `spn_json_read_option_defaults`. -/
def readOptionDefaults : Option Json → List OptionDefault
  | some (.arr elements) => elements.filterMap readOptionDefault
  | _ => []

/-- `spn_codegen_option_defaults_present`. -/
def optionDefaultsPresent (defaults : List OptionDefault) : Bool := !defaults.isEmpty

/-! ## The schema -/

/-- `spn_index_dep_kind_t`. -/
inductive IndexDepKind
  | normal | build | test
  deriving DecidableEq, Repr

/-- `spn_index_dep_kind_to_str`. -/
def IndexDepKind.toStr : IndexDepKind → Str
  | .normal => str "normal"
  | .build => str "build"
  | .test => str "test"

/-- `spn_linkage_to_str`. -/
def linkageToStr : Linkage → Str
  | .shared => str "shared"
  | .static => str "static"
  | .source => str "source"
  | .object => str "object"
  | .none => []

/-- `spn_option_type_to_str`. -/
def optionTypeToStr : OptionType → Str
  | .bool => str "bool"
  | .enum => str "enum"
  | .none => []

/-- `spn_cg_release_source_t`. -/
structure CgSource where
  url : Str := []
  rev : Str := []
  dir : Str := []
  deriving DecidableEq, Repr

/-- `spn_cg_release_paths_t`, and `spn_index_rel_paths_t` with it. -/
structure RelPaths where
  manifest : Str
  script : Str
  deriving DecidableEq, Repr

/-- `spn_cg_release_dep_t`; `W` is what stands for a gate. Versions are characters, as the
parser of ranges has them. -/
structure CgDep (W : Type) where
  ns : Str
  name : Str
  version : List Char
  kind : IndexDepKind
  isPrivate : Option Bool
  gate : W
  options : W

/-- `spn_cg_release_option_t`; `D` is what stands for the defaults. -/
structure CgOption (D : Type) where
  type : OptionType
  values : List Str
  defaults : D
  additive : Option Bool

/-- `spn_cg_release_target_t`. -/
structure CgTarget where
  name : Str
  linkages : List Linkage
  deriving DecidableEq, Repr

/-- `spn_cg_release_t`. -/
structure CgRelease (W D : Type) where
  ns : Str
  name : Str
  version : List Char
  yanked : Bool
  source : CgSource
  manifest : CgSource
  paths : RelPaths
  deps : List (CgDep W)
  targets : List CgTarget
  options : List (Str × CgOption D)

/-- A release whose gates and defaults are JSON, where they are there at all: what the
generated reader and writer carry. -/
abbrev Doc := CgRelease (Option Json) (Option Json)

/-- The element codecs on every gate and on every list of defaults. -/
def CgRelease.map {W W' D D' : Type} (gate : W → W') (defaults : D → D')
    (rel : CgRelease W D) : CgRelease W' D' where
  ns := rel.ns
  name := rel.name
  version := rel.version
  yanked := rel.yanked
  source := rel.source
  manifest := rel.manifest
  paths := rel.paths
  deps := rel.deps.map fun dep =>
    ⟨dep.ns, dep.name, dep.version, dep.kind, dep.isPrivate, gate dep.gate, gate dep.options⟩
  targets := rel.targets
  options := rel.options.map fun entry =>
    (entry.1, ⟨entry.2.type, entry.2.values, defaults entry.2.defaults, entry.2.additive⟩)

/-- The gates and the defaults are written where they are present. -/
def CgRelease.encode (rel : CgRelease (List Clause) (List OptionDefault)) : Doc :=
  rel.map (fun clauses => if whenPresent clauses then some (writeWhen clauses) else none)
    fun defaults =>
      if optionDefaultsPresent defaults then some (writeOptionDefaults defaults) else none

/-- The gates and the defaults are read. -/
def CgRelease.decode (doc : Doc) : CgRelease (List Clause) (List OptionDefault) :=
  doc.map readWhen readOptionDefaults

/-- The text of a version. -/
def versionText (text : List Char) : Str := text.map fun c => c.toNat.toUInt8

/-- The text that is present is not empty. -/
def strField? (key : String) (s : Str) : List (Str × Json) := field? (!s.isEmpty) key (.str s)

/-- A list that is present is not empty. -/
def arrField? (key : String) (elements : List Json) : List (Str × Json) :=
  field? (!elements.isEmpty) key (.arr elements)

/-- A flag that is present. -/
def boolField? (key : String) (flag : Option Bool) : List (Str × Json) :=
  flag.elim [] fun b => [(str key, .bool b)]

/-- A value that is present. -/
def extField? (key : String) (value : Option Json) : List (Str × Json) :=
  value.elim [] fun json => [(str key, json)]

/-- An object of optional fields is present where one of them is. -/
def objField? (key : String) (fields : List (Str × Json)) : List (Str × Json) :=
  field? (!fields.isEmpty) key (.obj fields)

def CgSource.fields (source : CgSource) : List (Str × Json) :=
  strField? "url" source.url ++ strField? "rev" source.rev ++ strField? "dir" source.dir

def RelPaths.fields (paths : RelPaths) : List (Str × Json) :=
  strField? "manifest" paths.manifest ++ strField? "script" paths.script

def CgDep.json (dep : CgDep (Option Json)) : Json :=
  .obj ([(str "namespace", .str dep.ns), (str "name", .str dep.name),
      (str "version", .str (versionText dep.version)), (str "kind", .str dep.kind.toStr)] ++
    boolField? "private" dep.isPrivate ++ extField? "when" dep.gate ++
    extField? "options" dep.options)

def CgTarget.json (target : CgTarget) : Json :=
  .obj [(str "name", .str target.name),
    (str "linkages", .arr (target.linkages.map fun linkage => .str (linkageToStr linkage)))]

def CgOption.json (option : CgOption (Option Json)) : Json :=
  .obj ([(str "type", .str (optionTypeToStr option.type))] ++
    arrField? "values" (option.values.map .str) ++ extField? "default" option.defaults ++
    boolField? "additive" option.additive)

/-- `spn_cg_release_write`. -/
def CgRelease.json (doc : Doc) : Json :=
  .obj ([(str "namespace", .str doc.ns), (str "name", .str doc.name),
      (str "version", .str (versionText doc.version)), (str "yanked", .bool doc.yanked)] ++
    objField? "source" doc.source.fields ++ objField? "manifest" doc.manifest.fields ++
    objField? "paths" doc.paths.fields ++ arrField? "deps" (doc.deps.map CgDep.json) ++
    arrField? "targets" (doc.targets.map CgTarget.json) ++
    objField? "options" (doc.options.map fun entry => (entry.1, entry.2.json)))

/-- `spn_release_write_compact`, after the element codecs. -/
def CgRelease.write (doc : Doc) : Str := doc.json.write

end Spn.Index
