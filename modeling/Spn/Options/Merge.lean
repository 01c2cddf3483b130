import Spn.Resolve.Types

/-! # Merging the options of a package

`spn_pkg_options_merge` of `pkg/options.c` with what it calls of `when/when.c`. The
options of a package are settled in the order they are declared; an option that is
settled can be read by the gates of the defaults after it. The define of an option
and whether it is public play no part here.
-/
namespace Spn.Options

open Spn.Resolve

/-- `spn_when_env_t`. -/
abbrev Env := Str → Option OptionValue

/-- `spn_when_env_set`. -/
def Env.set (env : Env) (key : Str) (value : OptionValue) : Env :=
  fun k => if k = key then some value else env k

/-- `spn_option_type_t`. -/
inductive OptionType
  | none | bool | enum
  deriving DecidableEq, Repr

/-- `spn_option_default_t`. -/
structure OptionDefault where
  gate : List Clause
  value : OptionValue
  deriving DecidableEq

/-- `spn_option_info_t`. -/
structure OptionInfo where
  name : Str
  type : OptionType
  additive : Bool
  values : List Str
  defaults : List OptionDefault
  deriving DecidableEq

/-- `spn_option_value_ok`. -/
def OptionInfo.valueOk (option : OptionInfo) (value : OptionValue) : Bool :=
  match option.type, value with
  | .none, _ => false
  | .bool, .bool _ => true
  | .bool, _ => false
  | .enum, .str s => s ∈ option.values
  | .enum, _ => false

/-- `spn_option_resolve`: the first default whose gate holds. -/
def OptionInfo.resolve (option : OptionInfo) (env : Env) : OptionValue :=
  match option.defaults.find? fun d => whenEval d.gate env with
  | some d => d.value
  | none => .none

/-- `spn_option_map_t`: the options by name, in the order of the declaration. -/
structure OptionMap where
  list : List OptionInfo
  distinct : (list.map OptionInfo.name).Nodup

def OptionMap.empty : OptionMap := ⟨[], List.nodup_nil⟩

/-- `sp_str_om_getp`. -/
def OptionMap.get? (options : OptionMap) (name : Str) : Option OptionInfo :=
  options.list.find? fun option => option.name = name

/-- `spn_option_setter_kind_t`. -/
inductive SetterKind
  | none | default | profile | rootManifest | union | consumer
  deriving DecidableEq, Repr

/-- `spn_option_setter_t`. -/
structure Setter where
  kind : SetterKind
  name : Str := []
  deriving DecidableEq, Repr

/-- `spn_resolved_option_t`. -/
structure ResolvedOption where
  name : Str
  value : OptionValue
  setter : Setter
  isDefault : Bool
  deriving DecidableEq, Repr

/-- `spn_option_err_t`. -/
inductive OptionErr
  | undeclared | badValue | conflict | veto | noValue | lateGate | unknownPkg
  deriving DecidableEq, Repr

/-- `spn_option_violation_t`. -/
structure Violation where
  kind : OptionErr
  pkg : Str
  option : Str
  value : OptionValue := .none
  a : Setter := ⟨.none, []⟩
  b : Setter := ⟨.none, []⟩
  deriving DecidableEq, Repr

/-- `spn_pkg_config_t`. -/
structure PkgConfig where
  kind : Option Linkage
  options : List Clause
  defaultsDeclined : Bool
  deriving DecidableEq

/-- `spn_pkg_config_entry_t`. -/
structure ConfigEntry where
  key : Str
  value : PkgConfig
  deriving DecidableEq

/-- `spn_option_request_t`. -/
structure Request where
  consumer : Str
  options : List Clause
  deriving DecidableEq

/-- What option merging reads of a profile: the facts a gate can ask for, and the
options set for the root. -/
structure Profile where
  facts : Env
  options : List Clause

/-- A node of the session's graph, `spn_resolved_pkg_t`. A package whose source is a
repository has the hash of the patches to it. -/
structure Node where
  id : PkgId
  name : Str
  options : OptionMap
  source : PkgSource
  edges : List ResolvedDep
  patches : Option ℕ

/-- `spn_pkg_config_find`. -/
def configFind (config : List ConfigEntry) (name : Str) : Option PkgConfig :=
  (config.find? fun entry => entry.key = name).map ConfigEntry.value

/-- `option_set_t`. -/
structure OptionSet where
  clauses : Option (List Clause)
  setter : Setter
  defaultsDeclined : Bool

/-- Whether the root's config declines the defaults of the package of this name. -/
def declined (config : List ConfigEntry) (name : Str) : Bool :=
  (configFind config name).any PkgConfig.defaultsDeclined

/-- `find_set`. -/
def findSet (node : Node) (profile : Profile) (config : List ConfigEntry) : OptionSet :=
  if node.source = .root then
    ⟨some profile.options, ⟨.profile, []⟩, declined config node.name⟩
  else
    ⟨(configFind config node.name).map PkgConfig.options, ⟨.rootManifest, []⟩,
      declined config node.name⟩

/-- `claim_t`. -/
structure Claim where
  option : Str
  setter : Setter
  value : OptionValue
  negated : Bool
  deriving DecidableEq

/-- `setter_consumer`. -/
def setterConsumer (name : Str) : Setter := ⟨.consumer, name⟩

/-- `gather_claims`. -/
def gatherClaims (node : Node) (setter : Setter) :
    List Clause → List Claim × List Violation → List Claim × List Violation
  | [], acc => acc
  | clause :: rest, (claims, violations) =>
    match node.options.get? clause.key with
    | none => gatherClaims node setter rest
        (claims, violations ++
          [{ kind := .undeclared, pkg := node.name, option := clause.key, a := setter }])
    | some option =>
      if !option.valueOk clause.value then
        gatherClaims node setter rest
          (claims, violations ++
            [{ kind := .badValue, pkg := node.name, option := clause.key, value := clause.value
               a := setter }])
      else if clause.negated ∧ setter.kind ≠ .consumer then
        gatherClaims node setter rest (claims, violations)
      else
        gatherClaims node setter rest
          (claims ++ [⟨clause.key, setter, clause.value, clause.negated⟩], violations)

/-- What one option is settled to so far. -/
structure Settling where
  value : OptionValue
  setter : Setter
  settled : Bool
  union : Bool
  last : Option Claim
  violations : List Violation

/-- The loop over the claims that settles an option; a claim that is no consumer's
ends it. -/
def settleClaims (node : Node) (option : OptionInfo) : List Claim → Settling → Settling
  | [], s => s
  | claim :: rest, s =>
    if claim.option ≠ option.name ∨ claim.negated then settleClaims node option rest s
    else if claim.setter.kind ≠ .consumer then
      { s with value := claim.value, setter := claim.setter, settled := true }
    else if option.additive then
      let union := s.union || claim.value = .bool true
      settleClaims node option rest
        { s with value := .bool union, setter := ⟨.union, []⟩, settled := true, union := union }
    else
      let violations := match s.last with
        | some last =>
          if last.value ≠ claim.value then
            [{ kind := .conflict, pkg := node.name, option := option.name, value := claim.value,
               a := last.setter, b := claim.setter : Violation }]
          else []
        | none => []
      settleClaims node option rest
        { s with value := claim.value, setter := claim.setter, settled := true, last := some claim,
                 violations := s.violations ++ violations }

/-- The value an option has when no claim settles it. -/
def OptionInfo.fallback (option : OptionInfo) (defaultsDeclined : Bool) (env : Env) : OptionValue :=
  let value := if defaultsDeclined then .none else option.resolve env
  if value = .none ∧ option.type = .bool then .bool false else value

/-- The claims that forbid the value an option was settled to. -/
def vetoes (node : Node) (option : OptionInfo) (claims : List Claim) (value : OptionValue)
    (setter : Setter) : List Violation :=
  (claims.filter fun claim => claim.option = option.name ∧ claim.negated ∧ value = claim.value).map
    fun claim => { kind := .veto, pkg := node.name, option := option.name, value := claim.value,
                   a := claim.setter, b := setter }

/-- The loop of `spn_pkg_options_merge` over the options. -/
def mergeEach (node : Node) (defaultsDeclined : Bool) (claims : List Claim) :
    List OptionInfo → Env → List Violation → List ResolvedOption × List Violation
  | [], _, violations => ([], violations)
  | option :: rest, env, violations =>
    let fallback := option.fallback defaultsDeclined env
    let s := settleClaims node option claims ⟨.none, ⟨.default, []⟩, false, false, none, violations⟩
    let value := if s.settled then s.value else fallback
    let missing := if value = .none then
        [{ kind := .noValue, pkg := node.name, option := option.name }]
      else []
    let resolved := ⟨option.name, value, s.setter, value = fallback⟩
    let env := if value = .none then env else env.set option.name value
    let (options, violations) := mergeEach node defaultsDeclined claims rest env
      (s.violations ++ missing ++ vetoes node option claims value s.setter)
    (resolved :: options, violations)

/-- `spn_merged_options_t`. -/
structure Merged where
  options : List ResolvedOption
  violations : List Violation

/-- `spn_pkg_options_merge`. -/
def mergeOptions (node : Node) (profile : Profile) (config : List ConfigEntry)
    (requests : List Request) : Merged :=
  let set := findSet node profile config
  let start := match set.clauses with
    | some clauses => gatherClaims node set.setter clauses ([], [])
    | none => ([], [])
  let (claims, violations) := requests.foldl
    (fun acc request => gatherClaims node (setterConsumer request.consumer) request.options acc) start
  let (options, violations) :=
    mergeEach node set.defaultsDeclined claims node.options.list profile.facts violations
  ⟨options, violations⟩

/-- `spn_when_env_add_options`, over the facts of the profile. -/
def optionsEnv (profile : Profile) (options : List ResolvedOption) : Env :=
  options.foldl (fun env option => if option.value = .none then env
    else env.set option.name option.value) profile.facts

end Spn.Options
