import Spn.Options.Apply

/-! # The fingerprint of a unit

`spn_unit_fingerprint` of `unit/fingerprint.c`. A fingerprint is the digest of a
record that holds the digests of what a unit is built from: among them the options
that differ from their defaults, and the fingerprints of the packages it depends on.
-/
namespace Spn.Options

open Spn.Resolve Spn.Lib

/-- The digests of `hash/digest/digest.c`, for each shape of what is hashed. -/
structure Digest (Input : Type) where
  str : Str → ℕ
  combine : List ℕ → ℕ
  edges : List (ℕ × ℕ × ℕ) → ℕ
  input : Input → ℕ

/-- No two different texts have one digest, and none has the digest that stands for
nothing. -/
structure Digest.CollisionFree {Input : Type} (D : Digest Input) : Prop where
  str : Function.Injective D.str
  combine : Function.Injective D.combine
  combine_ne : ∀ parts, D.combine parts ≠ 0
  edges : Function.Injective D.edges
  edges_ne : ∀ records, D.edges records ≠ 0
  input : Function.Injective D.input

/-- `spn_linking_t`. -/
structure Linking where
  linkage : Linkage
  runtime : ℕ
  libc : ℕ
  deriving DecidableEq

/-- `spn_arg_t`. -/
structure Arg where
  text : Str
  path : Path
  deriving DecidableEq

/-- What is read of a build: the profile and the toolchain. -/
structure Build where
  mode : ℕ
  opt : ℕ
  sanitizers : ℕ
  linking : Linking
  standard : ℕ
  arch : ℕ
  os : ℕ
  abi : ℕ
  linker : ℕ
  sdk : ℕ
  toolchain : Str
  compiler : Arg
  archiver : Arg
  cxx : Arg
  linkArgs : List Str
  identity : ℕ
  artifact : Option Str

/-- The toolchain's part of `fingerprint_input_t`. -/
structure ToolchainInput where
  name : ℕ
  cc : ℕ
  cxx : ℕ
  ar : ℕ
  url : ℕ
  identity : ℕ
  ld : ℕ
  linkArgs : ℕ
  deriving DecidableEq

/-- `fingerprint_input_t`. -/
structure FingerprintInput where
  qualified : ℕ
  commit : ℕ
  options : ℕ
  deps : ℕ
  patches : ℕ
  version : Version
  mode : ℕ
  opt : ℕ
  sanitizers : ℕ
  linking : Linking
  standard : ℕ
  arch : ℕ
  os : ℕ
  abi : ℕ
  sdk : ℕ
  platform : ℕ
  toolchain : ToolchainInput
  deriving DecidableEq

/-- The enumerator of the kind of a value. -/
def kindOf : OptionValue → ℕ
  | .none => 0
  | .bool _ => 1
  | .str _ => 2

variable (D : Digest FingerprintInput)

/-- The last of the four parts `hash_options` combines. -/
def payload : OptionValue → ℕ
  | .str s => D.str s
  | .bool b => b.toNat
  | .none => 0

/-- `hash_options`, on the options the session has for a package. -/
def hashOptions : Option (List ResolvedOption) → ℕ
  | none => 0
  | some options => options.foldl (fun hash option =>
      if option.isDefault then hash
      else D.combine [hash, D.str option.name, kindOf option.value, payload D option.value]) 0

/-- `hash_arg`. -/
def hashArg (arg : Arg) : ℕ :=
  D.combine [D.str arg.text, arg.path.root.toNat, D.str arg.path.sub]

/-- `hash_strs`. -/
def hashStrs (strs : List Str) : ℕ := strs.foldl (fun hash s => D.combine [hash, D.str s]) 0

/-- `fingerprint_edge_t`: the hash, the kind and the private flag. -/
abbrev EdgeKey := ℕ × ℕ × ℕ

/-- `sort_fingerprint_edges`. -/
def EdgeKey.le (a b : EdgeKey) : Prop :=
  a.1 < b.1 ∨ a.1 = b.1 ∧ (a.2.1 < b.2.1 ∨ a.2.1 = b.2.1 ∧ a.2.2 ≤ b.2.2)

instance : DecidableRel EdgeKey.le := fun a b => by unfold EdgeKey.le; infer_instance

namespace Session

variable (s : Session)

/-- `sp_ht_getp(session->resolve, id)`. -/
def node? (id : PkgId) : Option Node := s.resolve.nodes.find? fun node => node.id = id

/-- The edges of a node; none for an id without a node. -/
def edgesOf (id : PkgId) : List ResolvedDep := ((s.node? id).map Node.edges).getD []

/-- `sp_ht_getp(session->options, id)`. -/
def options? (id : PkgId) : Option (List ResolvedOption) :=
  (s.options.find? fun entry => entry.1 = id).map Prod.snd

/-- `spn_session_config_kind`. -/
def configKind (name : Str) : Option Linkage := (configFind s.config name).bind PkgConfig.kind

/-- The digest of the edges with the fingerprints of their targets. -/
def hashDeps (id : PkgId) (hashes : List ℕ) : ℕ :=
  if s.edgesOf id = [] then 0
  else D.edges ((((s.edgesOf id).zip hashes).map fun (edge, hash) =>
    ((hash, edge.kind.toNat, edge.isPrivate.toNat) : EdgeKey)).insertionSort EdgeKey.le)

/-- The record that is hashed, given the fingerprints of the targets of the edges. -/
def fingerprintInput (build : Build) (id : PkgId) (hashes : List ℕ) : FingerprintInput where
  qualified := D.str (s.packages id).qualified
  options := hashOptions D (s.options? id)
  version := (s.packages id).version
  commit := D.str (s.packages id).commit
  patches := ((s.node? id).bind Node.patches).getD 0
  deps := s.hashDeps D id hashes
  mode := build.mode
  opt := build.opt
  sanitizers := build.sanitizers
  linking := match s.configKind (s.packages id).name with
    | some linkage => { build.linking with linkage := linkage }
    | none => build.linking
  standard := build.standard
  arch := build.arch
  os := build.os
  abi := build.abi
  sdk := build.sdk
  platform := (s.packages id).platform
  toolchain :=
    { name := D.str build.toolchain
      cc := hashArg D build.compiler
      ar := hashArg D build.archiver
      cxx := hashArg D build.cxx
      ld := build.linker
      linkArgs := hashStrs D build.linkArgs
      identity := build.identity
      url := (build.artifact.map D.str).getD 0 }

/-- The fingerprints of the targets of some edges, one after the other. -/
def fingerprintEach (go : Table PkgId ℕ → PkgId → Option (ℕ × Table PkgId ℕ)) :
    List ResolvedDep → Table PkgId ℕ → Option (List ℕ × Table PkgId ℕ)
  | [], memo => some ([], memo)
  | edge :: rest, memo =>
    match go memo edge.id with
    | none => none
    | some (hash, memo) =>
      match fingerprintEach go rest memo with
      | none => none
      | some (hashes, memo) => some (hash :: hashes, memo)

/-- `spn_unit_fingerprint`; `memo` is `session->fingerprints` for this build. -/
def fingerprint (build : Build) : ℕ → Table PkgId ℕ → PkgId → Option (ℕ × Table PkgId ℕ)
  | 0, _, _ => none
  | depth + 1, memo, id =>
    match memo[id]? with
    | some hash => some (hash, memo)
    | none =>
      match fingerprintEach (fingerprint build depth) (s.edgesOf id) memo with
      | none => none
      | some (hashes, memo) =>
        let hash := D.input (s.fingerprintInput D build id hashes)
        some (hash, memo.insert id hash)

end Session

end Spn.Options
