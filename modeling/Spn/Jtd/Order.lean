import Spn.Jtd.Meaning
import Spn.Lib.Chain

/-! # The order of definitions

What is accepted, apart from how and in which order it is found out: the values of a document mean
schemas, every reference names a definition, and the entries of a definition's mappings lead
through definitions listed before it to properties.
-/
namespace Spn.Jtd

open Spn.Lib.Chain Spn.Lib.Except

/-! ## Where references lead -/

/-- The definition a reference names. -/
def nextIn (defs : List Definition) : Schema → Option Schema
  | .ref _ name _ => definition defs name
  | _ => none

/-- Properties a discriminator of the tag can have in its mapping. -/
def Schema.OpenTo (tag : Str) : Schema → Prop
  | .properties shared required optional _ =>
    shared.nullable = false ∧ (∀ p ∈ required, p.1 ≠ tag) ∧ ∀ p ∈ optional, p.1 ≠ tag
  | _ => False

/-- An entry of a mapping that leads to such properties. -/
def GoodEntry (defs : List Definition) (tag : Str) (child : Schema) : Prop :=
  child.shared.nullable = false ∧ ∃ n payload, Ends (nextIn defs) n child payload ∧
    payload.OpenTo tag

variable {defs defs' : List Definition} {tag name : Str} {s payload : Schema}

theorem definition_mem (h : definition defs name = some s) :
    s ∈ defs.map Definition.schema := by
  obtain ⟨d, hd, rfl⟩ := Option.map_eq_some_iff.1 h
  exact List.mem_map_of_mem (List.mem_of_find?_eq_some hd)

theorem nextIn_mem {a b : Schema} (h : nextIn defs a = some b) :
    b ∈ defs.map Definition.schema := by
  cases a with
  | ref _ _ _ => exact definition_mem h
  | _ => cases h

theorem definition_append (h : definition defs name = some s) :
    definition (defs ++ defs') name = some s := by
  obtain ⟨d, hd, rfl⟩ := Option.map_eq_some_iff.1 h
  rw [definition, List.find?_append, hd, Option.some_or, Option.map_some]

theorem nextIn_append {a b : Schema} (h : nextIn defs a = some b) :
    nextIn (defs ++ defs') a = some b := by
  cases a with
  | ref _ _ _ => exact definition_append h
  | _ => cases h

theorem Schema.OpenTo.nextIn (h : payload.OpenTo tag) : nextIn defs payload = none := by
  cases payload with
  | properties _ _ _ _ => rfl
  | _ => cases h

theorem GoodEntry.append (h : GoodEntry defs tag s) : GoodEntry (defs ++ defs') tag s := by
  obtain ⟨hnull, n, payload, hends, hopen⟩ := h
  exact ⟨hnull, n, payload, hends.mono (fun _ _ => nextIn_append) hopen.nextIn, hopen⟩

theorem resolvePayload_iff (hopen : payload.OpenTo tag) {fuel : ℕ} :
    resolvePayload defs fuel s = some payload ↔
      ∃ n ≤ fuel, Ends (nextIn defs) n s payload := by
  have hstays : ∀ {s : Schema} {fuel : ℕ}, (∀ b, nextIn defs s = some b → fuel = 0) →
      (some s = some payload ↔ ∃ n ≤ fuel, Ends (nextIn defs) n s payload) := by
    intro s fuel hnone
    constructor
    · intro h
      obtain rfl := Option.some.inj h
      exact ⟨0, Nat.zero_le _, .here hopen.nextIn⟩
    · rintro ⟨n, hn, hends⟩
      cases hends with
      | here _ => rfl
      | step hsome _ => exact absurd (hnone _ hsome) (by omega)
  induction fuel generalizing s with
  | zero =>
    have hzero : resolvePayload defs 0 s = some s := by cases s <;> rfl
    rw [hzero]
    exact hstays fun _ _ => rfl
  | succ fuel ih =>
    cases s with
    | ref shared name target =>
      rw [resolvePayload]
      constructor
      · intro h
        obtain ⟨b, hb, hpayload⟩ := Option.bind_eq_some_iff.1 h
        obtain ⟨n, hn, hends⟩ := ih.1 hpayload
        exact ⟨n + 1, Nat.succ_le_succ hn, .step hb hends⟩
      · rintro ⟨n, hn, hends⟩
        cases hends with
        | here _ => cases hopen
        | step hb hrest =>
          exact Option.bind_eq_some_iff.2 ⟨_, hb, ih.2 ⟨_, Nat.le_of_succ_le_succ hn, hrest⟩⟩
    | _ =>
      rw [resolvePayload]
      · exact hstays fun b hb => (by cases hb)
      · rintro _ _ _ _ _ ⟨⟩

theorem tagRedefined_iff {path : Str} {props : List (Str × Schema)} :
    tagRedefined tag path props = .ok () ↔ ∀ p ∈ props, p.1 ≠ tag := by
  rw [tagRedefined]
  split
  · rename_i p hp
    constructor
    · intro h
      cases h
    · intro h
      exact absurd (by simpa using List.find?_some hp) (h p (List.mem_of_find?_eq_some hp))
  · rename_i hnone
    exact ⟨fun _ p hp => by simpa using List.find?_eq_none.1 hnone p hp, fun _ => rfl⟩

/-- What the check on an entry says, with no bound on how far its references are followed: there
are no more definitions to meet on the way. -/
theorem checkMapping_iff : Asked (checkMapping defs) (GoodEntry defs) := by
  intro cpath tag child
  have hleads : ∀ {payload : Schema}, payload.OpenTo tag →
      (resolvePayload defs defs.length child = some payload ↔
        ∃ n, Ends (nextIn defs) n child payload) := by
    intro payload hopen
    rw [resolvePayload_iff hopen]
    constructor
    · rintro ⟨n, -, hends⟩
      exact ⟨n, hends⟩
    · rintro ⟨n, hends⟩
      have hn := hends.length_le (defs.map Definition.schema) fun _ _ => nextIn_mem
      exact ⟨n, by simpa using hn, hends⟩
  rw [checkMapping]
  constructor
  · intro h
    split at h
    · cases h
    · rename_i shared required optional additional hpayload
      split_ifs at h with hnull
      obtain ⟨hchild, hshared⟩ := Bool.or_eq_false_iff.1 (Bool.not_eq_true _ ▸ hnull)
      obtain ⟨⟨⟩, hrequired, hoptional⟩ := bind_ok.1 h
      have hopen : (Schema.properties shared required optional additional).OpenTo tag :=
        ⟨hshared, tagRedefined_iff.1 hrequired, tagRedefined_iff.1 hoptional⟩
      obtain ⟨n, hends⟩ := (hleads hopen).1 hpayload
      exact ⟨hchild, n, _, hends, hopen⟩
    · cases h
  · rintro ⟨hchild, n, payload, hends, hopen⟩
    rw [(hleads hopen).2 ⟨n, hends⟩]
    cases payload with
    | properties shared required optional additional =>
      obtain ⟨hshared, hrequired, hoptional⟩ := hopen
      simp only [hchild, hshared, Bool.or_self, Bool.false_eq_true, if_false]
      exact bind_ok.2 ⟨(), tagRedefined_iff.2 hrequired, tagRedefined_iff.2 hoptional⟩
    | _ => cases hopen

/-! ## Definitions -/

/-- A definition as its member of the document reads. -/
def ReadsAs (fuel : ℕ) (m : Str × Json) (d : Definition) : Prop :=
  m.1 = d.name ∧
    parseSchema freely fuel m.2 (pathSeg definitionsPath m.1) = .ok d.schema

/-- The entries of mappings are good where those before, and what is listed before each, are the
definitions. -/
def OrderedFrom (acc defs : List Definition) : Prop :=
  ∀ before d after, defs = before ++ d :: after →
    d.schema.All (NodeOk (GoodEntry (acc ++ before)))

theorem orderedFrom_cons {acc rest : List Definition} {d : Definition} :
    OrderedFrom acc (d :: rest) ↔
      d.schema.All (NodeOk (GoodEntry acc)) ∧ OrderedFrom (acc ++ [d]) rest := by
  constructor
  · intro h
    refine ⟨by simpa using h [] d rest rfl, fun before d' after heq => ?_⟩
    have hall := h (d :: before) d' after (by rw [heq, List.cons_append])
    rwa [List.append_assoc, List.singleton_append]
  · rintro ⟨hd, hrest⟩ before d' after heq
    cases before with
    | nil =>
      obtain ⟨rfl, -⟩ := List.cons.inj heq
      simpa using hd
    | cons b before =>
      obtain ⟨rfl, hafter⟩ := List.cons.inj heq
      have hall := hrest before d' after hafter
      rwa [List.append_assoc, List.singleton_append] at hall

theorem parseDefinitions_iff {fuel : ℕ} {members : List (Str × Json)} {acc : List Definition} :
    parseDefinitions fuel acc members = .ok defs ↔
      ∃ new, defs = acc ++ new ∧ List.Forall₂ (ReadsAs fuel) members new ∧
        OrderedFrom acc new := by
  induction members generalizing acc with
  | nil =>
    rw [parseDefinitions]
    constructor
    · intro h
      obtain rfl := Except.ok.inj h
      exact ⟨[], by simp, .nil, by simp [OrderedFrom]⟩
    · rintro ⟨new, rfl, hnew, -⟩
      cases hnew
      rw [List.append_nil]
  | cons m rest ih =>
    rw [parseDefinitions]
    simp only [bind_ok, ih, parseSchema_ok_iff checkMapping_iff _ _ _ _]
    constructor
    · rintro ⟨schema, ⟨hschema, hall⟩, new, rfl, hnew, hordered⟩
      refine ⟨⟨m.1, schema⟩ :: new, by simp, .cons ⟨rfl, hschema⟩ hnew, ?_⟩
      exact orderedFrom_cons.2 ⟨hall, hordered⟩
    · rintro ⟨new, rfl, hnew, hordered⟩
      cases hnew with
      | @cons _ d _ new hd hrest =>
        obtain ⟨hname, hschema⟩ := hd
        obtain ⟨hall, hordered⟩ := orderedFrom_cons.1 hordered
        exact ⟨d.schema, ⟨hschema, hall⟩, new, by simp [hname], hrest, by rwa [hname]⟩

/-! ## Documents -/

/-- An object of schemas by name, and the schema of its other members. -/
inductive Reads : Json → Result → Prop
  | object {members : List (Str × Json)} {root : Schema} {defs : List Definition}
      (hkeys : ∀ m ∈ members, m.1 ∈ str "definitions" :: schemaKeys)
      (hdefs : MapMeans (getMember members (str "definitions"))
        (defs.map fun d => (d.name, d.schema)))
      (hforms : Forms members root) : Reads (.object members) ⟨root, defs⟩

/-- Every reference names a definition. -/
def Result.Resolved (doc : Result) : Prop :=
  ∀ v ∈ doc.walk, ∀ shared name target, v.2 = .ref shared name target →
    ∃ d ∈ doc.definitions, d.name = name

/-- The entries of a definition's mappings lead through definitions before it to properties, and
those of the root through any. -/
def Result.Ordered (doc : Result) : Prop :=
  OrderedFrom [] doc.definitions ∧ doc.root.All (NodeOk (GoodEntry doc.definitions))

/-- The document with the targets of its references. -/
def Result.linked (doc : Result) : Result :=
  let find := targetOf doc.definitions
  ⟨doc.root.linkTo find, doc.definitions.map fun d => ⟨d.name, d.schema.linkTo find⟩⟩

theorem definition_none_iff : definition defs name = none ↔ ∀ d ∈ defs, d.name ≠ name := by
  rw [definition, Option.map_eq_none_iff, List.find?_eq_none]
  simp

theorem resolved_iff {doc : Result} :
    doc.Resolved ↔ doc.walk.find? (unresolved doc.definitions) = none := by
  rw [List.find?_eq_none]
  refine forall₂_congr fun v _ => ?_
  obtain ⟨path, s⟩ := v
  cases s with
  | ref shared name target =>
    rw [unresolved, Option.isNone_iff_eq_none, definition_none_iff]
    push Not
    constructor
    · exact fun h => h shared name target rfl
    · intro h _ _ _ heq
      cases heq
      exact h
  | _ => simp [unresolved]

theorem linkRefs_iff {doc r : Result} :
    linkRefs doc = .ok r ↔ doc.Resolved ∧ r = doc.linked := by
  rw [resolved_iff, linkRefs]
  split
  · rename_i v hv
    simp [hv]
  · rename_i hnone
    simp only [hnone, true_and]
    exact ⟨fun h => (Except.ok.inj h).symm, fun h => congrArg Except.ok h.symm⟩

theorem readDefinitions_iff {fuel : ℕ} {member : Option Json} :
    readDefinitions fuel member = .ok defs ↔
      (match member with
        | none => defs = []
        | some (.object members) => List.Forall₂ (ReadsAs fuel) members defs
        | some _ => False) ∧ OrderedFrom [] defs := by
  cases member with
  | none =>
    simp only [readDefinitions]
    constructor
    · intro h
      obtain rfl := Except.ok.inj h
      exact ⟨rfl, by simp [OrderedFrom]⟩
    · rintro ⟨rfl, -⟩
      rfl
  | some v =>
    cases v with
    | object members => simp [readDefinitions, parseDefinitions_iff]
    | _ => simp [readDefinitions]

theorem parseRootSchema_iff {fuel : ℕ} {members : List (Str × Json)} :
    parseRootSchema (checkMapping defs) fuel members = .ok s ↔
      parseRootSchema freely fuel members = .ok s ∧ s.All (NodeOk (GoodEntry defs)) := by
  have hcheck : Asked (checkMapping defs) (GoodEntry defs) := checkMapping_iff
  simp only [parseRootSchema, bind_ok, (parseSchema_ok_iff hcheck fuel).object hcheck]
  rw [← exists_and_right]
  exact exists_congr fun _ => and_assoc.symm

theorem forall₂_readsAs {fuel : ℕ} {entries : List (Str × Json)}
    (hdepth : depthMembers entries ≤ fuel) :
    List.Forall₂ (ReadsAs fuel) entries defs ↔
      MembersMean entries (defs.map fun d => (d.name, d.schema)) := by
  rw [← @Agrees.membersMean entries fuel _ definitionsPath _ (agrees fuel) hdepth,
    parseMembers_ok_iff, List.forall₂_map_right_iff]
  refine ⟨fun h => h.imp fun m d hd => ⟨hd.1, rfl, hd.2, rfl⟩, fun h => h.imp fun m d hd => ?_⟩
  exact ⟨hd.1, hd.2.2.1⟩

/-- The definitions of a document are those its member means. -/
theorem definitions_mean {fuel : ℕ} {members : List (Str × Json)}
    (hdepth : depthMembers members ≤ fuel) :
    (match getMember members (str "definitions") with
      | none => defs = []
      | some (.object entries) => List.Forall₂ (ReadsAs fuel) entries defs
      | some _ => False) ↔
      MapMeans (getMember members (str "definitions"))
        (defs.map fun d => (d.name, d.schema)) := by
  cases hmember : getMember members (str "definitions") with
  | none =>
    constructor
    · rintro rfl
      exact .none
    · intro h
      generalize hl : defs.map (fun d => (d.name, d.schema)) = l at h
      cases h
      exact List.map_eq_nil_iff.1 hl
  | some v =>
    cases v with
    | object entries =>
      have hentries : depthMembers entries ≤ fuel :=
        Nat.le_of_succ_le ((depth_le_of_getMember hmember).trans hdepth)
      dsimp only
      rw [forall₂_readsAs hentries]
      constructor
      · exact .some
      · intro h
        cases h with
        | some hmeans => exact hmeans
    | _ =>
      constructor
      · exact False.elim
      · intro h
        cases h

theorem parseRootSchema_means {fuel : ℕ} {members : List (Str × Json)}
    (hdepth : depthMembers members ≤ fuel) :
    parseRootSchema freely fuel members = .ok s ↔
      (∀ m ∈ members, m.1 ∈ str "definitions" :: schemaKeys) ∧ Forms members s := by
  simp only [parseRootSchema, bind_ok, (agrees fuel).object hdepth]
  have hknown : validateKeys rootKey members rootPath = .ok () ↔
      ∀ m ∈ members, m.1 ∈ str "definitions" :: schemaKeys := by
    simp only [validateKeys_iff, rootKey_iff]
  constructor
  · rintro ⟨⟨⟩, hkeys, hforms⟩
    exact ⟨hknown.1 hkeys, hforms⟩
  · rintro ⟨hkeys, hforms⟩
    exact ⟨(), hknown.2 hkeys, hforms⟩

/-- A document that is accepted is the linked form of one in order. -/
theorem run_linked {root : Json} {r : Result} (h : run root = .ok r) :
    ∃ doc : Result, doc.Resolved ∧ doc.Ordered ∧ r = doc.linked := by
  cases root with
  | object members =>
    simp only [run, bind_ok, readDefinitions_iff, parseRootSchema_iff, linkRefs_iff] at h
    obtain ⟨defs, ⟨-, hordered⟩, schema, ⟨-, hroot⟩, hresolved, rfl⟩ := h
    exact ⟨⟨schema, defs⟩, hresolved, ⟨hordered, hroot⟩, rfl⟩
  | _ => cases h

/-- What is accepted: a document whose values mean schemas, whose references all name definitions,
and in which the entries of mappings lead to properties by way of definitions that stand before. -/
theorem run_ok_iff (root : Json) (r : Result) :
    run root = .ok r ↔
      ∃ doc, Reads root doc ∧ doc.Resolved ∧ doc.Ordered ∧ r = doc.linked := by
  cases root with
  | object members =>
    have hdepth : depthMembers members ≤ (Json.object members).depth := Nat.le_succ _
    simp only [run, bind_ok, readDefinitions_iff, parseRootSchema_iff, linkRefs_iff,
      definitions_mean hdepth, parseRootSchema_means hdepth]
    constructor
    · rintro ⟨defs, ⟨hdefs, hordered⟩, schema, ⟨⟨hkeys, hforms⟩, hroot⟩, hresolved, rfl⟩
      exact ⟨⟨schema, defs⟩, .object hkeys hdefs hforms, hresolved, ⟨hordered, hroot⟩, rfl⟩
    · rintro ⟨doc, hreads, hresolved, ⟨hordered, hroot⟩, rfl⟩
      cases hreads with
      | object hkeys hdefs hforms =>
        exact ⟨_, ⟨hdefs, hordered⟩, _, ⟨⟨hkeys, hforms⟩, hroot⟩, hresolved, rfl⟩
  | _ =>
    constructor
    · intro h
      cases h
    · rintro ⟨_, hreads, _⟩
      cases hreads

end Spn.Jtd
