import Spn.Options.Fingerprint
import Spn.Options.Meaning
import Spn.Options.Pruning

/-! # What is said of options

What the root's config, the profile and the consumers set the options of a package to,
apart from what the options fall back to. This is stated on the settings, without the
merge; in a session that options were applied to, it is what the resolved options are
without those marked as defaults.
-/
namespace Spn.Options

open Spn.Resolve

/-- The options that are not marked as defaults. -/
def explicit (options : List ResolvedOption) : List (Str × OptionValue) :=
  (options.filter fun option => !option.isDefault).map fun option => (option.name, option.value)

/-- The options with a value that is not what they fall back to, each in the environment
of the options before it. -/
inductive Says (declined : Bool) (set : List Clause) (requests : List Request) :
    List OptionInfo → Env → List (Str × OptionValue) → Prop
  | nil {env : Env} : Says declined set requests [] env []
  | idle {option : OptionInfo} {options : List OptionInfo} {env : Env}
      {rest : List (Str × OptionValue)}
      (hmeans : option.Means set requests (option.fallback declined env)
        (option.fallback declined env))
      (hrest : Says declined set requests options
        (env.set option.name (option.fallback declined env)) rest) :
      Says declined set requests (option :: options) env rest
  | told {option : OptionInfo} {options : List OptionInfo} {env : Env} {value : OptionValue}
      {rest : List (Str × OptionValue)}
      (hmeans : option.Means set requests (option.fallback declined env) value)
      (hne : value ≠ option.fallback declined env)
      (hrest : Says declined set requests options (env.set option.name value) rest) :
      Says declined set requests (option :: options) env ((option.name, value) :: rest)

theorem Says.unique {declined : Bool} {set : List Clause} {requests : List Request}
    {options : List OptionInfo} {env : Env} {entries entries' : List (Str × OptionValue)}
    (h : Says declined set requests options env entries)
    (h' : Says declined set requests options env entries') : entries = entries' := by
  induction h generalizing entries' with
  | nil => cases h'; rfl
  | idle hmeans _ ih =>
    cases h' with
    | idle _ hrest => exact ih hrest
    | told hmeans' hne => exact absurd (hmeans'.unique hmeans) hne
  | told hmeans hne _ ih =>
    cases h' with
    | idle hmeans' => exact absurd (hmeans.unique hmeans') hne
    | told hmeans' _ hrest =>
      cases hmeans.unique hmeans'
      rw [ih hrest]

/-- What options mean is what is said of them, and the defaults. -/
theorem Meaning.says {declined : Bool} {set : List Clause} {requests : List Request}
    {infos : List OptionInfo} {env : Env} {out : List Resolved}
    (h : Meaning declined set requests infos env out) {options : List ResolvedOption}
    (hout : options.map ResolvedOption.resolved = out) :
    Says declined set requests infos env (explicit options) := by
  induction h generalizing options with
  | nil =>
    obtain rfl := List.map_eq_nil_iff.1 hout
    exact .nil
  | @cons info infos env value rest hmeans _ _ _ ih =>
    obtain ⟨option, options, rfl, hoption, hrest⟩ := List.map_eq_cons_iff.1 hout
    have hsays := ih hrest
    obtain ⟨name, value', setter, isDefault⟩ := option
    obtain ⟨rfl, rfl, rfl⟩ := by
      simpa only [ResolvedOption.resolved, Resolved.mk.injEq] using hoption
    by_cases hvalue : value' = info.fallback declined env
    · have hidle : explicit (⟨info.name, value', setter,
          decide (value' = info.fallback declined env)⟩ :: options) = explicit options := by
        simp [explicit, hvalue]
      rw [hidle]
      exact .idle (hvalue ▸ hmeans) (hvalue ▸ hsays)
    · have htold : explicit (⟨info.name, value', setter,
          decide (value' = info.fallback declined env)⟩ :: options) =
          (info.name, value') :: explicit options := by
        simp [explicit, hvalue]
      rw [htold]
      exact .told hmeans hvalue hsays

namespace Session

/-- What the settings of a session say of the options of a package; nothing of an id
without a node. -/
def Says (s : Session) (id : PkgId) (entries : List (Str × OptionValue)) : Prop :=
  match s.node? id with
  | none => entries = []
  | some node => Options.Says (declined s.config node.name) (rootClauses node s.profile s.config)
      (s.asked id) node.options.list s.profile.facts entries

/-! ## Sessions that options were applied to -/

/-- Merging reads the nodes, the packages and the settings of a session. -/
theorem merged_congr {s s' : Session} (hnodes : s.resolve.nodes = s'.resolve.nodes)
    (hpackages : s.packages = s'.packages) (hconfig : s.config = s'.config)
    (hprofile : s.profile = s'.profile) (node : Node) : s.merged node = s'.merged node := by
  have hrequests : s.nodeRequests = s'.nodeRequests := by
    funext node
    unfold nodeRequests deps
    rw [hpackages]
  unfold merged asked requests
  rw [hnodes, hrequests, hconfig, hprofile]

/-- The options that were applied are what the session's own settings are merged to. -/
theorem merged_applied {L : Order} {s t : Session}
    (h : applyOptions L s = some (t, .ok false)) :
    t.options = t.resolve.nodes.map (fun node => (node.id, (t.merged node).options)) ∧
      ∀ node ∈ t.resolve.nodes, (t.merged node).violations = [] := by
  obtain ⟨s', m, -, hdone⟩ := exists_turn_of_applyLoop h
  obtain ⟨s₁, graph, pass, hm, hg, hp, -, ht⟩ := turn_ok hdone
  obtain ⟨hs₁, hclean⟩ := mergeAll_eq_none hm
  -- the last turn prunes nothing, so the same requests go to every node
  have hkept : t.resolve.nodes = s'.resolve.nodes := by
    rw [ht]
    exact ((gateAll_gates hm hg).kept hp).1
  have hmerged : ∀ node, t.merged node = s'.merged node :=
    merged_congr hkept (by rw [ht, hs₁]) (by rw [ht, hs₁]) (by rw [ht, hs₁])
  have hoptions : t.options = s₁.options := by rw [ht]
  refine ⟨?_, fun node hn => ?_⟩
  · rw [hoptions, hs₁, hkept]
    exact List.map_congr_left fun node _ => by rw [hmerged]
  · rw [hmerged]
    exact hclean node (hkept ▸ hn)

theorem optionsOf_applied {L : Order} {s t : Session}
    (h : applyOptions L s = some (t, .ok false)) {node : Node} (hn : node ∈ t.resolve.nodes) :
    t.optionsOf node.id = (t.merged node).options := by
  have hnodup : ((t.resolve.nodes.map fun node => (node.id, (t.merged node).options)).map
      Prod.fst).Nodup := by
    simpa [Function.comp_def] using t.resolve.distinct
  rw [optionsOf, (merged_applied h).1, find?_key hnodup (List.mem_map_of_mem hn)]
  rfl

/-- What the settings say is what the resolved options are without the defaults. -/
theorem says_applied {L : Order} {s t : Session} (h : applyOptions L s = some (t, .ok false))
    (id : PkgId) (entries : List (Str × OptionValue)) :
    t.Says id entries ↔ entries = explicit (t.optionsOf id) := by
  unfold Says
  cases hnode : t.node? id with
  | none =>
    have hno : t.optionsOf id = [] := by
      have hfind : (t.resolve.nodes.map fun node => (node.id, (t.merged node).options)).find?
          (fun entry => entry.1 = id) = none := by
        refine List.find?_eq_none.2 fun entry hentry => ?_
        obtain ⟨node, hn, rfl⟩ := List.mem_map.1 hentry
        exact List.find?_eq_none.1 hnode node hn
      rw [optionsOf, (merged_applied h).1, hfind]
      rfl
    rw [hno]
    rfl
  | some node =>
    have hn : node ∈ t.resolve.nodes := List.mem_of_find?_eq_some hnode
    have hid : node.id = id := by simpa using List.find?_some hnode
    subst hid
    have hmeans := (mergeOptions_meaning node t.profile t.config (t.asked node.id)).2
      ((merged_applied h).2 node hn)
    have hsays := hmeans.says rfl
    rw [optionsOf_applied h hn]
    exact ⟨fun hentries => hentries.unique hsays, fun heq => heq ▸ hsays⟩

end Session

end Spn.Options
