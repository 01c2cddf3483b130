import Spn.Paths

/-! # Type definitions

`tools/jtd.c`: a JSON document read as a JSON type definition. The members of the `definitions`
object are parsed one by one into a table; the entries of a discriminator's mapping are looked up
in the table while they are parsed, other references when all is parsed. Documents are JSON values;
what reads them from text is not part of the model.
-/
namespace Spn.Jtd

/-- A JSON value. -/
inductive Json
  | null
  | bool (value : Bool)
  | number (text : Str)
  | string (value : Str)
  | array (items : List Json)
  | object (members : List (Str × Json))

mutual

/-- How deep values lie in each other. -/
def Json.depth : Json → ℕ
  | .array items => depthItems items + 1
  | .object members => depthMembers members + 1
  | _ => 1

def depthItems : List Json → ℕ
  | [] => 0
  | v :: rest => max v.depth (depthItems rest)

def depthMembers : List (Str × Json) → ℕ
  | [] => 0
  | m :: rest => max m.2.depth (depthMembers rest)

end

/-- `jtd_err_t`, of what parsing and resolving report. -/
inductive Err
  | schemaNotObject | multipleForms | typeNotString | unknownType | enumEmpty | enumNotString
  | enumDuplicate | propertiesNotObject | discriminatorNotString | mappingNotObject
  | mappingNotProperties | refNotString | metadataNotObject | nullableNotBool
  | additionalPropertiesNotBool | additionalPropertiesWithoutProperties | propertiesDuplicate
  | discriminatorTagRedefined | definitionsNotRoot | refUnresolved | refCycle | unknownMember
  | unrecognizedForm
  deriving DecidableEq, Repr

/-- `jtd_diagnostic_t`. What a member of the union holds is empty where the code has none. -/
structure Diagnostic where
  code : Err
  path : Str
  text : Str
  deriving DecidableEq, Repr

/-- `jtd_type_t`. -/
inductive PrimitiveType
  | boolean | float32 | float64 | int8 | uint8 | int16 | uint16 | int32 | uint32 | int64 | uint64
  | string | timestamp
  deriving DecidableEq, Repr

/-- `JTD_PRIMITIVES`. -/
def primitives : List (Str × PrimitiveType) :=
  [(str "boolean", .boolean), (str "float32", .float32), (str "float64", .float64),
    (str "int8", .int8), (str "uint8", .uint8), (str "int16", .int16), (str "uint16", .uint16),
    (str "int32", .int32), (str "uint32", .uint32), (str "int64", .int64), (str "uint64", .uint64),
    (str "string", .string), (str "timestamp", .timestamp)]

/-- What schemas of all forms have. -/
structure Shared where
  nullable : Bool
  metadata : List (Str × Str)
  deriving DecidableEq, Repr

/-- `jtd_schema_t`. The target of a reference is the place of its definition in the table. -/
inductive Schema
  | empty (shared : Shared)
  | type (shared : Shared) (type : PrimitiveType)
  | enumeration (shared : Shared) (values : List Str)
  | elements (shared : Shared) (schema : Schema)
  | properties (shared : Shared) (required optional : List (Str × Schema)) (additional : Bool)
  | values (shared : Shared) (schema : Schema)
  | discriminator (shared : Shared) (tag : Str) (mapping : List (Str × Schema))
  | ref (shared : Shared) (name : Str) (target : Option ℕ)

def Schema.shared : Schema → Shared
  | .empty shared => shared
  | .type shared _ => shared
  | .enumeration shared _ => shared
  | .elements shared _ => shared
  | .properties shared _ _ _ => shared
  | .values shared _ => shared
  | .discriminator shared _ _ => shared
  | .ref shared _ _ => shared

/-- `as.ref.name`, of a reference. -/
def Schema.refName : Schema → Str
  | .ref _ name _ => name
  | _ => []

/-- `jtd_definition_t`. -/
structure Definition where
  name : Str
  schema : Schema

/-- `jtd_definition`. -/
def definition (defs : List Definition) (name : Str) : Option Schema :=
  (defs.find? fun d => d.name = name).map Definition.schema

/-! ## Paths in a document -/

def tilde : UInt8 := 0x7e

/-- `jtd_path_escape`. -/
def pathEscape (seg : Str) : Str :=
  seg.flatMap fun c => if c = tilde then str "~0" else if c = slash then str "~1" else [c]

/-- `jtd_path_seg`. -/
def pathSeg (base seg : Str) : Str := base ++ slash :: pathEscape seg

def rootPath : Str := str "#"

def definitionsPath : Str := str "#/definitions"

/-! ## Parsing -/

/-- `yyjson_obj_get`. -/
def getMember (members : List (Str × Json)) (key : Str) : Option Json :=
  (members.find? fun m => m.1 = key).map Prod.snd

/-- The value of an entry of the metadata, unless it is left out. -/
def metadataValue : Json → Option Str
  | .string value => some value
  | .bool value => some (if value then str "true" else str "false")
  | _ => none

def parseMetadata (members : List (Str × Json)) (path : Str) :
    Except Diagnostic (List (Str × Str)) :=
  match getMember members (str "metadata") with
  | none => .ok []
  | some (.object entries) =>
    .ok (entries.filterMap fun m => (metadataValue m.2).map fun value => (m.1, value))
  | some _ => .error ⟨.metadataNotObject, pathSeg path (str "metadata"), []⟩

def parseNullable (members : List (Str × Json)) (path : Str) : Except Diagnostic Bool :=
  match getMember members (str "nullable") with
  | none => .ok false
  | some (.bool nullable) => .ok nullable
  | some _ => .error ⟨.nullableNotBool, path, []⟩

/-- `jtd_parse_shared`. -/
def parseShared (members : List (Str × Json)) (path : Str) : Except Diagnostic Shared := do
  let metadata ← parseMetadata members path
  let nullable ← parseNullable members path
  .ok ⟨nullable, metadata⟩

/-- `jtd_schema_key`. -/
def schemaKey (key : Str) : Bool :=
  key ∈ [str "metadata", str "nullable", str "type", str "enum", str "elements", str "properties",
    str "optionalProperties", str "additionalProperties", str "values", str "discriminator",
    str "mapping", str "ref"]

/-- `jtd_root_key`. -/
def rootKey (key : Str) : Bool := schemaKey key || key = str "definitions"

/-- `jtd_validate_keys` and `jtd_validate_root_keys`. -/
def validateKeys (known : Str → Bool) (members : List (Str × Json)) (path : Str) :
    Except Diagnostic Unit :=
  match members.find? fun m => !known m.1 with
  | some m => .error ⟨.unknownMember, pathSeg path m.1, m.1⟩
  | none => .ok ()

/-- What is asked of a key before its value is parsed, and of a key and its schema after. -/
structure Asks where
  before : Str → Str → Except Diagnostic Unit
  after : Str → Str → Schema → Except Diagnostic Unit

/-- The loops over the members of an object each of which is a schema. -/
def parseMembers (parse : Json → Str → Except Diagnostic Schema) (asks : Asks) (base : Str) :
    List (Str × Json) → Except Diagnostic (List (Str × Schema))
  | [] => .ok []
  | m :: rest => do
    asks.before (pathSeg base m.1) m.1
    let child ← parse m.2 (pathSeg base m.1)
    asks.after (pathSeg base m.1) m.1 child
    let children ← parseMembers parse asks base rest
    .ok ((m.1, child) :: children)

def Asks.nothing : Asks := ⟨fun _ _ => .ok (), fun _ _ _ => .ok ()⟩

/-- An optional property is not a required one. -/
def Asks.notRequired (required : List (Str × Schema)) : Asks where
  before path key :=
    if required.any fun p => key = p.1 then .error ⟨.propertiesDuplicate, path, []⟩ else .ok ()
  after _ _ _ := .ok ()

def parseAdditional (props object additional : Option Json) (path : Str) :
    Except Diagnostic Bool :=
  match additional with
  | none => .ok false
  | some (.bool value) =>
    if props.isNone && object.isNone then
      .error ⟨.additionalPropertiesWithoutProperties, pathSeg path (str "additionalProperties"), []⟩
    else .ok value
  | some _ => .error ⟨.additionalPropertiesNotBool, pathSeg path (str "additionalProperties"), []⟩

/-- The properties of an object, if there is one. -/
def parsePropertyMap (parse : Json → Str → Except Diagnostic Schema) (asks : Asks)
    (path member : Str) : Option Json → Except Diagnostic (List (Str × Schema))
  | none => .ok []
  | some (.object members) => parseMembers parse asks (pathSeg path member) members
  | some _ => .error ⟨.propertiesNotObject, path, []⟩

/-- `jtd_parse_properties`. -/
def parseProperties (parse : Json → Str → Except Diagnostic Schema) (shared : Shared)
    (props object additional : Option Json) (path : Str) : Except Diagnostic Schema := do
  let more ← parseAdditional props object additional path
  let required ← parsePropertyMap parse .nothing path (str "properties") props
  let optional ←
    parsePropertyMap parse (.notRequired required) path (str "optionalProperties") object
  .ok (.properties shared required optional more)

/-- The members of a schema that say which form it has. -/
structure Keywords where
  type : Option Json
  enumeration : Option Json
  elements : Option Json
  base : Option Json
  optional : Option Json
  additional : Option Json
  values : Option Json
  discriminator : Option Json
  mapping : Option Json
  ref : Option Json

def keywords (members : List (Str × Json)) : Keywords where
  type := getMember members (str "type")
  enumeration := getMember members (str "enum")
  elements := getMember members (str "elements")
  base := getMember members (str "properties")
  optional := getMember members (str "optionalProperties")
  additional := getMember members (str "additionalProperties")
  values := getMember members (str "values")
  discriminator := getMember members (str "discriminator")
  mapping := getMember members (str "mapping")
  ref := getMember members (str "ref")

def Keywords.hasProperties (o : Keywords) : Bool :=
  o.base.isSome || o.optional.isSome || o.additional.isSome

def Keywords.hasDiscriminator (o : Keywords) : Bool := o.discriminator.isSome || o.mapping.isSome

/-- How many forms there are members of. -/
def Keywords.forms (o : Keywords) : ℕ :=
  o.type.isSome.toNat + o.enumeration.isSome.toNat + o.elements.isSome.toNat +
    o.hasProperties.toNat + o.values.isSome.toNat + o.hasDiscriminator.toNat + o.ref.isSome.toNat

def parseType (shared : Shared) (v : Json) (path : Str) : Except Diagnostic Schema :=
  match v with
  | .string name =>
    match primitives.find? fun p => name = p.1 with
    | some p => .ok (.type shared p.2)
    | none => .error ⟨.unknownType, path, name⟩
  | _ => .error ⟨.typeNotString, path, []⟩

/-- The loop over the values of an enumeration. -/
def parseEnumValues (path : Str) : List Str → List Json → Except Diagnostic (List Str)
  | values, [] => .ok values
  | values, .string value :: rest =>
    if value ∈ values then .error ⟨.enumDuplicate, path, value⟩
    else parseEnumValues path (values ++ [value]) rest
  | _, _ :: _ => .error ⟨.enumNotString, path, []⟩

def parseEnum (shared : Shared) (v : Json) (path : Str) : Except Diagnostic Schema :=
  match v with
  | .array items =>
    (parseEnumValues path [] items).bind fun values =>
      if values = [] then .error ⟨.enumEmpty, path, []⟩ else .ok (.enumeration shared values)
  | _ => .error ⟨.enumNotString, path, []⟩

/-- What is checked of an entry of a mapping when it has been parsed: its path, the tag of the
discriminator and its schema. -/
abbrev Check := Str → Str → Schema → Except Diagnostic Unit

def parseDiscriminator (parse : Json → Str → Except Diagnostic Schema) (check : Check)
    (shared : Shared) (discriminator mapping : Option Json) (path : Str) :
    Except Diagnostic Schema :=
  match discriminator with
  | some (.string tag) =>
    match mapping with
    | some (.object members) =>
      (parseMembers parse ⟨fun _ _ => .ok (), fun cpath _ child => check cpath tag child⟩
        (pathSeg path (str "mapping")) members).map fun entries =>
          .discriminator shared tag entries
    | _ => .error ⟨.mappingNotObject, path, []⟩
  | _ => .error ⟨.discriminatorNotString, path, []⟩

def parseRef (shared : Shared) (v : Json) (path : Str) : Except Diagnostic Schema :=
  match v with
  | .string name => .ok (.ref shared name none)
  | _ => .error ⟨.refNotString, path, []⟩

/-- The form the members are of, when they are of one. -/
def parseForm (parse : Json → Str → Except Diagnostic Schema) (check : Check) (o : Keywords)
    (shared : Shared) (path : Str) : Except Diagnostic Schema :=
  if let some v := o.type then parseType shared v path
  else if let some v := o.enumeration then parseEnum shared v path
  else if let some v := o.elements then
    (parse v (pathSeg path (str "elements"))).map (.elements shared)
  else if o.hasProperties then parseProperties parse shared o.base o.optional o.additional path
  else if let some v := o.values then
    (parse v (pathSeg path (str "values"))).map (.values shared)
  else if o.hasDiscriminator then
    parseDiscriminator parse check shared o.discriminator o.mapping path
  else if let some v := o.ref then parseRef shared v path
  else .error ⟨.unrecognizedForm, path, []⟩

/-- `jtd_parse_schema_object`. -/
def parseSchemaObject (parse : Json → Str → Except Diagnostic Schema) (check : Check)
    (members : List (Str × Json)) (path : Str) : Except Diagnostic Schema := do
  let shared ← parseShared members path
  let o := keywords members
  if o.forms > 1 then .error ⟨.multipleForms, path, []⟩
  else if o.forms = 0 then .ok (.empty shared)
  else parseForm parse check o shared path

/-- `jtd_parse_schema`. The fuel is how deep the value may be. -/
def parseSchema (check : Check) : ℕ → Json → Str → Except Diagnostic Schema
  | fuel + 1, .object members, path =>
    if (getMember members (str "definitions")).isSome then
      .error ⟨.definitionsNotRoot, pathSeg path (str "definitions"), []⟩
    else do
      validateKeys schemaKey members path
      parseSchemaObject (parseSchema check fuel) check members path
  | _, _, path => .error ⟨.schemaNotObject, path, []⟩

/-! ## References -/

/-- The loop that follows the references of an entry, no more often than there are definitions;
nothing when a name has none. -/
def resolvePayload (defs : List Definition) : ℕ → Schema → Option Schema
  | hops + 1, .ref _ name _ => (definition defs name).bind (resolvePayload defs hops)
  | _, payload => some payload

/-- A property of the payload has the name of the tag. -/
def tagRedefined (tag path : Str) (props : List (Str × Schema)) : Except Diagnostic Unit :=
  match props.find? fun p => p.1 = tag with
  | some p => .error ⟨.discriminatorTagRedefined, pathSeg path p.1, []⟩
  | none => .ok ()

/-- What is checked of an entry of a mapping against the definitions there are. -/
def checkMapping (defs : List Definition) : Check := fun cpath tag child =>
  match resolvePayload defs defs.length child with
  | none => .error ⟨.refUnresolved, cpath, child.refName⟩
  | some (.properties shared required optional _) =>
    if child.shared.nullable || shared.nullable then .error ⟨.mappingNotProperties, cpath, []⟩
    else do
      tagRedefined tag (pathSeg cpath (str "properties")) required
      tagRedefined tag (pathSeg cpath (str "optionalProperties")) optional
  | some _ => .error ⟨.mappingNotProperties, cpath, []⟩

mutual

/-- `jtd_walk_schema`: the schemas with their paths, in the order of the visits. -/
def Schema.walk (path : Str) : Schema → List (Str × Schema)
  | .elements shared schema =>
    (path, .elements shared schema) :: schema.walk (pathSeg path (str "elements"))
  | .properties shared required optional additional =>
    (path, .properties shared required optional additional) ::
      (walkAll (pathSeg path (str "properties")) required ++
        walkAll (pathSeg path (str "optionalProperties")) optional)
  | .values shared schema =>
    (path, .values shared schema) :: schema.walk (pathSeg path (str "values"))
  | .discriminator shared tag mapping =>
    (path, .discriminator shared tag mapping) :: walkAll (pathSeg path (str "mapping")) mapping
  | .empty shared => [(path, .empty shared)]
  | .type shared type => [(path, .type shared type)]
  | .enumeration shared values => [(path, .enumeration shared values)]
  | .ref shared name target => [(path, .ref shared name target)]

def walkAll (path : Str) : List (Str × Schema) → List (Str × Schema)
  | [] => []
  | p :: rest => p.2.walk (pathSeg path p.1) ++ walkAll path rest

end

mutual

/-- The schema when every reference has been given its target. -/
def Schema.linkTo (find : Str → Option ℕ) : Schema → Schema
  | .elements shared schema => .elements shared (schema.linkTo find)
  | .properties shared required optional additional =>
    .properties shared (linkAll find required) (linkAll find optional) additional
  | .values shared schema => .values shared (schema.linkTo find)
  | .discriminator shared tag mapping => .discriminator shared tag (linkAll find mapping)
  | .empty shared => .empty shared
  | .type shared type => .type shared type
  | .enumeration shared values => .enumeration shared values
  | .ref shared name _ => .ref shared name (find name)

def linkAll (find : Str → Option ℕ) : List (Str × Schema) → List (Str × Schema)
  | [] => []
  | p :: rest => (p.1, p.2.linkTo find) :: linkAll find rest

end

/-- `jtd_result_t`, of a document that is accepted. -/
structure Result where
  root : Schema
  definitions : List Definition

/-- `jtd_walk`. -/
def Result.walk (r : Result) : List (Str × Schema) :=
  r.root.walk rootPath ++
    r.definitions.flatMap fun d => d.schema.walk (pathSeg definitionsPath d.name)

/-- The place in the table of the first definition of a name. -/
def targetOf (defs : List Definition) (name : Str) : Option ℕ :=
  defs.findIdx? fun d => d.name = name

/-- A reference whose name has no definition. -/
def unresolved (defs : List Definition) (node : Str × Schema) : Bool :=
  match node.2 with
  | .ref _ name _ => (definition defs name).isNone
  | _ => false

/-- `jtd_link_refs`. -/
def linkRefs (r : Result) : Except Diagnostic Result :=
  match r.walk.find? (unresolved r.definitions) with
  | some node => .error ⟨.refUnresolved, node.1, node.2.refName⟩
  | none =>
    let find := targetOf r.definitions
    .ok ⟨r.root.linkTo find, r.definitions.map fun d => ⟨d.name, d.schema.linkTo find⟩⟩

/-- The loop over the members of `definitions`: each is parsed against those before it. -/
def parseDefinitions (fuel : ℕ) :
    List Definition → List (Str × Json) → Except Diagnostic (List Definition)
  | defs, [] => .ok defs
  | defs, m :: rest => do
    let schema ← parseSchema (checkMapping defs) fuel m.2 (pathSeg definitionsPath m.1)
    parseDefinitions fuel (defs ++ [⟨m.1, schema⟩]) rest

/-- The definitions of a document, if there is an object of them. -/
def readDefinitions (fuel : ℕ) : Option Json → Except Diagnostic (List Definition)
  | none => .ok []
  | some (.object members) => parseDefinitions fuel [] members
  | some _ => .error ⟨.schemaNotObject, definitionsPath, []⟩

/-- `jtd_parse_root_schema`, of an object. -/
def parseRootSchema (check : Check) (fuel : ℕ) (members : List (Str × Json)) :
    Except Diagnostic Schema := do
  validateKeys rootKey members rootPath
  parseSchemaObject (parseSchema check fuel) check members rootPath

/-- `jtd_run`. -/
def run (root : Json) : Except Diagnostic Result :=
  match root with
  | .object members => do
    let defs ← readDefinitions root.depth (getMember members (str "definitions"))
    let schema ← parseRootSchema (checkMapping defs) root.depth members
    linkRefs ⟨schema, defs⟩
  | _ => .error ⟨.schemaNotObject, rootPath, []⟩

/-- A schema of a result: the place of its definition in the table when it is the schema of one, and
the path it is visited at. -/
structure Node where
  place : Option ℕ
  path : Str
  schema : Schema

/-- The schemas of a result, in the order of the visits. -/
def Result.nodes (r : Result) : List Node :=
  (r.root.walk rootPath).map (fun v => ⟨none, v.1, v.2⟩) ++
    r.definitions.zipIdx.flatMap fun d =>
      ⟨some d.2, pathSeg definitionsPath d.1.name, d.1.schema⟩ ::
        ((d.1.schema.walk (pathSeg definitionsPath d.1.name)).tail.map fun v => ⟨none, v.1, v.2⟩)

/-- The schema of the definition at a place of the table. -/
def Result.entry (r : Result) (i : ℕ) : Option Node :=
  (r.definitions[i]?).map fun d => ⟨some i, pathSeg definitionsPath d.name, d.schema⟩

/-- Where a reference of a result leads to: its target, or else the definition of its name. -/
def Result.next (r : Result) (name : Str) (target : Option ℕ) : Option Node :=
  (target <|> targetOf r.definitions name).bind r.entry

/-- The reference is one of those seen: the references seen are the first, and definitions, which
are told apart by their places. -/
def Node.among (node : Node) (seen : List (Option ℕ)) : Bool :=
  node.place.isSome && node.place ∈ seen

/-- `jtd_resolve_deep`. A schema is told from others by its place: references lead to definitions
only. Nothing when the fuel ends. -/
def Result.resolveDeep (r : Result) :
    ℕ → List (Option ℕ) → Node → Option (Except Diagnostic Node)
  | 0, _, _ => none
  | fuel + 1, seen, node =>
    match node.schema with
    | .ref _ name target =>
      if node.among seen then some (.error ⟨.refCycle, node.path, name⟩)
      else
        match r.next name target with
        | none => some (.error ⟨.refUnresolved, node.path, name⟩)
        | some next => r.resolveDeep fuel (seen ++ [node.place]) next
    | _ => some (.ok node)

end Spn.Jtd
