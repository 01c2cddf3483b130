import Spn.Jtd.Checks

/-! # What a value means as a schema

The forms of a schema apart from how they are read: which members a value has, and what each of
them is. Parsing without the checks on mappings takes a value for a schema when it means that
schema.
-/
namespace Spn.Jtd

open Spn.Lib.Except

/-! ## Forms -/

/-- The members that say which form a schema has. -/
def formKeys : List Str :=
  [str "type", str "enum", str "elements", str "properties", str "optionalProperties",
    str "additionalProperties", str "values", str "discriminator", str "mapping", str "ref"]

/-- The members of a schema. -/
def schemaKeys : List Str := str "metadata" :: str "nullable" :: formKeys

/-- Of the members that say the form there are these at most. -/
def Only (members : List (Str × Json)) (keys : List Str) : Prop :=
  ∀ key ∈ formKeys, key ∉ keys → getMember members key = none

/-- A member that is a boolean, or left out and then false. -/
def Flag (member : Option Json) (value : Bool) : Prop :=
  member = none ∧ value = false ∨ member = some (.bool value)

/-- What schemas of all forms have: of the metadata the texts and booleans. -/
structure SharedOf (members : List (Str × Json)) (shared : Shared) : Prop where
  nullable : Flag (getMember members (str "nullable")) shared.nullable
  metadata : getMember members (str "metadata") = none ∧ shared.metadata = [] ∨
    ∃ entries, getMember members (str "metadata") = some (.object entries) ∧
      shared.metadata =
        entries.filterMap fun m => (metadataValue m.2).map fun value => (m.1, value)

mutual

/-- The value is an object that has no members but those of a schema, and is the schema. -/
inductive Means : Json → Schema → Prop
  | object {members : List (Str × Json)} {s : Schema} (hkeys : ∀ m ∈ members, m.1 ∈ schemaKeys)
      (hforms : Forms members s) : Means (.object members) s

/-- The members are those of the schema: of one form, with what it asks for. -/
inductive Forms : List (Str × Json) → Schema → Prop
  | empty {members : List (Str × Json)} {shared : Shared} (hshared : SharedOf members shared)
      (honly : Only members []) : Forms members (.empty shared)
  | type {members : List (Str × Json)} {shared : Shared} {name : Str} {type : PrimitiveType}
      (hshared : SharedOf members shared) (honly : Only members [str "type"])
      (htype : getMember members (str "type") = some (.string name))
      (hknown : (name, type) ∈ primitives) : Forms members (.type shared type)
  | enumeration {members : List (Str × Json)} {shared : Shared} {values : List Str}
      (hshared : SharedOf members shared) (honly : Only members [str "enum"])
      (hvalues : getMember members (str "enum") = some (.array (values.map .string)))
      (hne : values ≠ []) (hdistinct : values.Nodup) :
      Forms members (.enumeration shared values)
  | elements {members : List (Str × Json)} {shared : Shared} {v : Json} {s : Schema}
      (hshared : SharedOf members shared) (honly : Only members [str "elements"])
      (helements : getMember members (str "elements") = some v) (hmeans : Means v s) :
      Forms members (.elements shared s)
  | properties {members : List (Str × Json)} {shared : Shared}
      {required optional : List (Str × Schema)} {additional : Bool}
      (hshared : SharedOf members shared)
      (honly : Only members
        [str "properties", str "optionalProperties", str "additionalProperties"])
      (hsome : (getMember members (str "properties")).isSome ∨
        (getMember members (str "optionalProperties")).isSome)
      (hrequired : MapMeans (getMember members (str "properties")) required)
      (hoptional : MapMeans (getMember members (str "optionalProperties")) optional)
      (hapart : ∀ p ∈ optional, ∀ q ∈ required, p.1 ≠ q.1)
      (hadditional : Flag (getMember members (str "additionalProperties")) additional) :
      Forms members (.properties shared required optional additional)
  | values {members : List (Str × Json)} {shared : Shared} {v : Json} {s : Schema}
      (hshared : SharedOf members shared) (honly : Only members [str "values"])
      (hvalues : getMember members (str "values") = some v) (hmeans : Means v s) :
      Forms members (.values shared s)
  | discriminator {members entries : List (Str × Json)} {shared : Shared} {tag : Str}
      {mapping : List (Str × Schema)} (hshared : SharedOf members shared)
      (honly : Only members [str "discriminator", str "mapping"])
      (htag : getMember members (str "discriminator") = some (.string tag))
      (hentries : getMember members (str "mapping") = some (.object entries))
      (hmapping : MembersMean entries mapping) : Forms members (.discriminator shared tag mapping)
  | ref {members : List (Str × Json)} {shared : Shared} {name : Str}
      (hshared : SharedOf members shared) (honly : Only members [str "ref"])
      (hname : getMember members (str "ref") = some (.string name)) :
      Forms members (.ref shared name none)

/-- An object each member of which is a schema, or none. -/
inductive MapMeans : Option Json → List (Str × Schema) → Prop
  | none : MapMeans none []
  | some {entries : List (Str × Json)} {l : List (Str × Schema)} (hmeans : MembersMean entries l) :
      MapMeans (some (.object entries)) l

inductive MembersMean : List (Str × Json) → List (Str × Schema) → Prop
  | nil : MembersMean [] []
  | cons {key : Str} {v : Json} {s : Schema} {entries : List (Str × Json)}
      {l : List (Str × Schema)} (head : Means v s) (rest : MembersMean entries l) :
      MembersMean ((key, v) :: entries) ((key, s) :: l)

end

/-! ## Keys and depths -/

variable {members entries : List (Str × Json)} {path key : Str} {v : Json} {s : Schema}
  {shared : Shared} {fuel : ℕ}

theorem schemaKey_iff : schemaKey key = true ↔ key ∈ schemaKeys := decide_eq_true_iff

theorem rootKey_iff : rootKey key = true ↔ key ∈ str "definitions" :: schemaKeys := by
  rw [rootKey, Bool.or_eq_true, schemaKey_iff, decide_eq_true_iff, List.mem_cons, or_comm]

theorem validateKeys_iff {known : Str → Bool} :
    validateKeys known members path = .ok () ↔ ∀ m ∈ members, known m.1 = true := by
  rw [validateKeys]
  split
  · rename_i m hm
    refine ⟨fun h => (by cases h), fun h => ?_⟩
    have hnot := List.find?_some hm
    rw [h m (List.mem_of_find?_eq_some hm)] at hnot
    cases hnot
  · rename_i hnone
    refine ⟨fun _ m hm => ?_, fun _ => rfl⟩
    simpa using List.find?_eq_none.1 hnone m hm

theorem getMember_mem (h : getMember members key = some v) : (key, v) ∈ members := by
  obtain ⟨m, hm, rfl⟩ := Option.map_eq_some_iff.1 h
  obtain rfl : m.1 = key := by simpa using List.find?_some hm
  exact List.mem_of_find?_eq_some hm

theorem depth_le_of_mem {m : Str × Json} (h : m ∈ members) : m.2.depth ≤ depthMembers members := by
  induction members with
  | nil => cases h
  | cons first rest ih =>
    rw [depthMembers]
    obtain rfl | h := List.mem_cons.1 h
    · exact Nat.le_max_left _ _
    · exact (ih h).trans (Nat.le_max_right _ _)

theorem depth_le_of_getMember (h : getMember members key = some v) :
    v.depth ≤ depthMembers members :=
  depth_le_of_mem (getMember_mem h)

/-! ## What schemas of all forms have -/

theorem parseMetadata_iff {metadata : List (Str × Str)} :
    parseMetadata members path = .ok metadata ↔
      getMember members (str "metadata") = none ∧ metadata = [] ∨
      ∃ entries, getMember members (str "metadata") = some (.object entries) ∧
        metadata =
          entries.filterMap fun m => (metadataValue m.2).map fun value => (m.1, value) := by
  rw [parseMetadata]
  cases getMember members (str "metadata") with
  | none => simp [eq_comm]
  | some v => cases v <;> simp [eq_comm]

theorem parseNullable_iff {nullable : Bool} :
    parseNullable members path = .ok nullable ↔
      Flag (getMember members (str "nullable")) nullable := by
  rw [parseNullable, Flag]
  cases getMember members (str "nullable") with
  | none => simp [eq_comm]
  | some v => cases v <;> simp

theorem parseShared_iff : parseShared members path = .ok shared ↔ SharedOf members shared := by
  simp only [parseShared, bind_ok, parseMetadata_iff, parseNullable_iff]
  constructor
  · rintro ⟨metadata, hmetadata, nullable, hnullable, h⟩
    obtain rfl := Except.ok.inj h
    exact ⟨hnullable, hmetadata⟩
  · intro h
    exact ⟨_, h.metadata, _, h.nullable, rfl⟩

/-! ## Objects of schemas -/

variable {parse : Json → Str → Except Diagnostic Schema} {base : Str} {l : List (Str × Schema)}
  {member : Option Json}

/-- Values of no more than this depth are taken for what they mean. -/
def Agrees (parse : Json → Str → Except Diagnostic Schema) (fuel : ℕ) : Prop :=
  ∀ v path s, v.depth ≤ fuel → (parse v path = .ok s ↔ Means v s)

theorem Agrees.membersMean (h : Agrees parse fuel) (hdepth : depthMembers entries ≤ fuel) :
    parseMembers parse .nothing base entries = .ok l ↔ MembersMean entries l := by
  rw [parseMembers_ok_iff]
  induction entries generalizing l with
  | nil =>
    rw [List.forall₂_nil_left_iff]
    constructor
    · rintro rfl
      exact .nil
    · intro hl
      cases hl
      rfl
  | cons m rest ih =>
    rw [depthMembers, Nat.max_le] at hdepth
    rw [List.forall₂_cons_left_iff]
    constructor
    · rintro ⟨p, others, ⟨hkey, -, hparse, -⟩, hrest, rfl⟩
      obtain ⟨key, s⟩ := p
      obtain rfl : m.1 = key := hkey
      exact .cons ((h m.2 _ s hdepth.1).1 hparse) ((ih hdepth.2).1 hrest)
    · intro hl
      cases hl with
      | @cons key v s _ others hhead hrest =>
        exact ⟨(key, s), others, ⟨rfl, rfl, (h v _ s hdepth.1).2 hhead, rfl⟩,
          (ih hdepth.2).2 hrest, rfl⟩

theorem Agrees.propertyMap (h : Agrees parse fuel)
    (hdepth : ∀ v, member = some v → v.depth ≤ fuel) :
    parsePropertyMap parse .nothing path key member = .ok l ↔ MapMeans member l := by
  cases member with
  | none =>
    constructor
    · intro hl
      obtain rfl := Except.ok.inj hl
      exact .none
    · intro hl
      cases hl
      rfl
  | some v =>
    cases v with
    | object entries =>
      have hentries : depthMembers entries ≤ fuel := Nat.le_of_succ_le (hdepth _ rfl)
      rw [parsePropertyMap, h.membersMean hentries]
      constructor
      · exact .some
      · intro hl
        cases hl with
        | some hmeans => exact hmeans
    | _ =>
      constructor
      · intro hl
        cases hl
      · intro hl
        cases hl

theorem notRequired_iff {required : List (Str × Schema)} :
    (Asks.notRequired required).before path key = .ok () ↔ ∀ q ∈ required, key ≠ q.1 := by
  rw [Asks.notRequired]
  dsimp only
  split_ifs with hany
  · obtain ⟨q, hq, hkey⟩ := List.any_eq_true.1 hany
    exact ⟨fun h => (by cases h), fun h => absurd (of_decide_eq_true hkey) (h q hq)⟩
  · refine ⟨fun _ q hq hkey => hany ?_, fun _ => rfl⟩
    exact List.any_eq_true.2 ⟨q, hq, decide_eq_true hkey⟩

/-- The optional properties are parsed as the required ones are, but for those that are required. -/
theorem propertyMap_notRequired {required : List (Str × Schema)} :
    parsePropertyMap parse (.notRequired required) path key member = .ok l ↔
      parsePropertyMap parse .nothing path key member = .ok l ∧
        ∀ p ∈ l, ∀ q ∈ required, p.1 ≠ q.1 := by
  cases member with
  | none =>
    refine ⟨fun hl => ⟨hl, ?_⟩, fun hl => hl.1⟩
    obtain rfl := Except.ok.inj hl
    exact fun p hp => absurd hp List.not_mem_nil
  | some v =>
    cases v with
    | object entries =>
      rw [parsePropertyMap, parsePropertyMap, parseMembers_ok_iff, parseMembers_ok_iff,
        ← forall₂_and_right]
      constructor
      · refine fun hall => hall.imp fun m p hp => ?_
        obtain ⟨hkey, hbefore, hparse, hafter⟩ := hp
        exact ⟨⟨hkey, rfl, hparse, hafter⟩, hkey ▸ notRequired_iff.1 hbefore⟩
      · refine fun hall => hall.imp fun m p hp => ?_
        obtain ⟨⟨hkey, -, hparse, hafter⟩, hapart⟩ := hp
        exact ⟨hkey, notRequired_iff.2 (hkey ▸ hapart), hparse, hafter⟩
    | _ => exact ⟨fun hl => (by cases hl), fun hl => hl.1⟩

/-! ## The forms -/

theorem parseEnumValues_iff {seen values : List Str} (hseen : seen.Nodup) {items : List Json} :
    parseEnumValues path seen items = .ok values ↔
      ∃ new, items = new.map .string ∧ values = seen ++ new ∧ values.Nodup := by
  induction items generalizing seen with
  | nil =>
    rw [parseEnumValues]
    constructor
    · intro h
      obtain rfl := Except.ok.inj h
      exact ⟨[], rfl, (List.append_nil _).symm, hseen⟩
    · rintro ⟨new, hnew, rfl, -⟩
      rw [List.map_eq_nil_iff.1 hnew.symm, List.append_nil]
  | cons item rest ih =>
    cases item with
    | string value =>
      rw [parseEnumValues]
      split_ifs with hmem
      · constructor
        · intro h
          cases h
        · rintro ⟨new, hnew, rfl, hnodup⟩
          obtain ⟨first, others, rfl, hfirst, -⟩ := List.map_eq_cons_iff.1 hnew.symm
          obtain rfl := Json.string.inj hfirst
          rw [List.nodup_append] at hnodup
          exact absurd rfl (hnodup.2.2 first hmem first List.mem_cons_self)
      · rw [ih (List.concat_eq_append ▸ hseen.concat hmem)]
        constructor
        · rintro ⟨new, rfl, rfl, hnodup⟩
          exact ⟨value :: new, rfl, by simp, hnodup⟩
        · rintro ⟨new, hnew, rfl, hnodup⟩
          obtain ⟨first, others, rfl, hfirst, rfl⟩ := List.map_eq_cons_iff.1 hnew.symm
          obtain rfl := Json.string.inj hfirst
          exact ⟨others, rfl, by simp, hnodup⟩
    | _ =>
      rw [parseEnumValues]
      · constructor
        · intro h
          cases h
        · rintro ⟨new, hnew, -⟩
          obtain ⟨first, others, rfl, hfirst, -⟩ := List.map_eq_cons_iff.1 hnew.symm
          cases hfirst
      · intro value
        simp

theorem parseAdditional_iff {props object additional : Option Json} {more : Bool} :
    parseAdditional props object additional path = .ok more ↔ Flag additional more ∧
      (additional = none ∨ props.isSome ∨ object.isSome) := by
  cases additional with
  | none => simp [parseAdditional, Flag, @eq_comm _ false]
  | some v =>
    cases v with
    | bool value => cases props <;> cases object <;> simp [parseAdditional, Flag]
    | _ => simp [parseAdditional, Flag]

theorem Agrees.properties (h : Agrees parse fuel) {props object additional : Option Json}
    (hprops : ∀ v, props = some v → v.depth ≤ fuel)
    (hobject : ∀ v, object = some v → v.depth ≤ fuel) :
    parseProperties parse shared props object additional path = .ok s ↔
      ∃ required optional more, s = .properties shared required optional more ∧
        MapMeans props required ∧ MapMeans object optional ∧
        (∀ p ∈ optional, ∀ q ∈ required, p.1 ≠ q.1) ∧ Flag additional more ∧
        (additional = none ∨ props.isSome ∨ object.isSome) := by
  simp only [parseProperties, bind_ok, parseAdditional_iff, h.propertyMap hprops,
    propertyMap_notRequired, h.propertyMap hobject]
  constructor
  · rintro ⟨more, ⟨hflag, hsome⟩, required, hrequired, optional, ⟨hoptional, hapart⟩, hs⟩
    exact ⟨required, optional, more, (Except.ok.inj hs).symm, hrequired, hoptional, hapart, hflag,
      hsome⟩
  · rintro ⟨required, optional, more, rfl, hrequired, hoptional, hapart, hflag, hsome⟩
    exact ⟨more, ⟨hflag, hsome⟩, required, hrequired, optional, ⟨hoptional, hapart⟩, rfl⟩

/-- The member of one form is there, and so at most one form is only where the others are not. -/
theorem lone : ∀ a b c d e f g : Bool,
    let forms := a.toNat + b.toNat + c.toNat + d.toNat + e.toNat + f.toNat + g.toNat
    (a = true → (forms ≤ 1 ↔ (b || c || d || e || f || g) = false)) ∧
      (b = true → (forms ≤ 1 ↔ (a || c || d || e || f || g) = false)) ∧
      (c = true → (forms ≤ 1 ↔ (a || b || d || e || f || g) = false)) ∧
      (d = true → (forms ≤ 1 ↔ (a || b || c || e || f || g) = false)) ∧
      (e = true → (forms ≤ 1 ↔ (a || b || c || d || f || g) = false)) ∧
      (f = true → (forms ≤ 1 ↔ (a || b || c || d || e || g) = false)) ∧
      (g = true → (forms ≤ 1 ↔ (a || b || c || d || e || f) = false)) := by
  decide

/-- What members there are of forms, when there is one form at most. -/
theorem only_iff (members : List (Str × Json)) :
    let o := keywords members
    (Only members [] ↔ o.forms = 0) ∧
      (o.type.isSome = true → (Only members [str "type"] ↔ o.forms ≤ 1)) ∧
      (o.enumeration.isSome = true → (Only members [str "enum"] ↔ o.forms ≤ 1)) ∧
      (o.elements.isSome = true → (Only members [str "elements"] ↔ o.forms ≤ 1)) ∧
      (o.hasProperties = true → (Only members
        [str "properties", str "optionalProperties", str "additionalProperties"] ↔ o.forms ≤ 1)) ∧
      (o.values.isSome = true → (Only members [str "values"] ↔ o.forms ≤ 1)) ∧
      (o.hasDiscriminator = true →
        (Only members [str "discriminator", str "mapping"] ↔ o.forms ≤ 1)) ∧
      (o.ref.isSome = true → (Only members [str "ref"] ↔ o.forms ≤ 1)) := by
  have hlone := lone (keywords members).type.isSome (keywords members).enumeration.isSome
    (keywords members).elements.isSome (keywords members).hasProperties
    (keywords members).values.isSome (keywords members).hasDiscriminator
    (keywords members).ref.isSome
  obtain ⟨htype, henum, helements, hproperties, hvalues, hdiscriminator, href⟩ := hlone
  refine ⟨?_, fun h => ?_, fun h => ?_, fun h => ?_, fun h => ?_, fun h => ?_, fun h => ?_,
    fun h => ?_⟩
  · simp +decide [Only, formKeys, Keywords.forms, Keywords.hasProperties,
      Keywords.hasDiscriminator, keywords, and_assoc]
  · rw [Keywords.forms, htype h]
    simp +decide [Only, formKeys, Keywords.hasProperties, Keywords.hasDiscriminator, keywords,
      and_assoc]
  · rw [Keywords.forms, henum h]
    simp +decide [Only, formKeys, Keywords.hasProperties, Keywords.hasDiscriminator, keywords,
      and_assoc]
  · rw [Keywords.forms, helements h]
    simp +decide [Only, formKeys, Keywords.hasProperties, Keywords.hasDiscriminator, keywords,
      and_assoc]
  · rw [Keywords.forms, hproperties h]
    simp +decide [Only, formKeys, Keywords.hasDiscriminator, keywords, and_assoc]
  · rw [Keywords.forms, hvalues h]
    simp +decide [Only, formKeys, Keywords.hasProperties, Keywords.hasDiscriminator, keywords,
      and_assoc]
  · rw [Keywords.forms, hdiscriminator h]
    simp +decide [Only, formKeys, Keywords.hasProperties, keywords, and_assoc]
  · rw [Keywords.forms, href h]
    simp +decide [Only, formKeys, Keywords.hasProperties, Keywords.hasDiscriminator, keywords,
      and_assoc]

theorem parseType_iff :
    parseType shared v path = .ok s ↔
      ∃ name type, v = .string name ∧ (name, type) ∈ primitives ∧ s = .type shared type := by
  have hall : ∀ p ∈ primitives, (primitives.find? fun q => p.1 = q.1) = some p := by decide
  cases v with
  | string name =>
    rw [parseType]
    constructor
    · intro h
      split at h
      · rename_i p hp
        obtain rfl : name = p.1 := by simpa using List.find?_some hp
        exact ⟨p.1, p.2, rfl, List.mem_of_find?_eq_some hp, (Except.ok.inj h).symm⟩
      · cases h
    · rintro ⟨name', type, hname, hmem, rfl⟩
      obtain rfl := Json.string.inj hname
      rw [hall _ hmem]
  | _ =>
    constructor
    · intro h
      cases h
    · rintro ⟨name, type, hv, -⟩
      cases hv

theorem parseEnum_iff :
    parseEnum shared v path = .ok s ↔ ∃ values, v = .array (values.map .string) ∧ values ≠ [] ∧
      values.Nodup ∧ s = .enumeration shared values := by
  cases v with
  | array items =>
    change (parseEnumValues path [] items >>= fun values =>
      if values = [] then .error ⟨.enumEmpty, path, []⟩ else .ok (.enumeration shared values)) =
        .ok s ↔ _
    simp only [bind_ok, parseEnumValues_iff List.nodup_nil, List.nil_append]
    constructor
    · rintro ⟨values, ⟨new, rfl, rfl, hnodup⟩, h⟩
      split_ifs at h with hempty
      exact ⟨values, rfl, hempty, hnodup, (Except.ok.inj h).symm⟩
    · rintro ⟨values, hitems, hne, hnodup, rfl⟩
      exact ⟨values, ⟨values, Json.array.inj hitems, rfl, hnodup⟩, if_neg hne⟩
  | _ =>
    constructor
    · intro h
      cases h
    · rintro ⟨values, hv, -⟩
      cases hv

theorem parseRef_iff :
    parseRef shared v path = .ok s ↔ ∃ name, v = .string name ∧ s = .ref shared name none := by
  cases v with
  | string name => simp [parseRef, eq_comm]
  | _ => simp [parseRef]

theorem Agrees.discriminator (h : Agrees parse fuel) {discriminator mapping : Option Json}
    (hmapping : ∀ v, mapping = some v → v.depth ≤ fuel) :
    parseDiscriminator parse freely shared discriminator mapping path = .ok s ↔
      ∃ tag entries l, discriminator = some (.string tag) ∧ mapping = some (.object entries) ∧
        MembersMean entries l ∧ s = .discriminator shared tag l := by
  unfold parseDiscriminator
  split
  · rename_i tag
    split
    · rename_i entries
      have hentries : depthMembers entries ≤ fuel := Nat.le_of_succ_le (hmapping _ rfl)
      change (parseMembers parse .nothing _ entries).map _ = .ok s ↔ _
      simp only [map_ok, h.membersMean hentries]
      constructor
      · rintro ⟨l, hl, rfl⟩
        exact ⟨tag, entries, l, rfl, rfl, hl, rfl⟩
      · rintro ⟨tag', entries', l, htag, hentries', hl, rfl⟩
        obtain rfl := Json.string.inj (Option.some.inj htag)
        obtain rfl := Json.object.inj (Option.some.inj hentries')
        exact ⟨l, hl, rfl⟩
    · rename_i hnot
      constructor
      · intro hs
        cases hs
      · rintro ⟨tag', entries, l, -, rfl, -⟩
        exact absurd rfl (hnot entries)
  · rename_i hnot
    constructor
    · intro hs
      cases hs
    · rintro ⟨tag, entries, l, rfl, -⟩
      exact absurd rfl (hnot tag)

theorem noProperties {keys : List Str} (honly : Only members keys)
    (hkeys : ∀ key ∈ [str "properties", str "optionalProperties", str "additionalProperties"],
      key ∉ keys) : (keywords members).hasProperties = false := by
  simp only [List.forall_mem_cons] at hkeys
  obtain ⟨hbase, hoptional, hadditional, -⟩ := hkeys
  have hbaseNone : (keywords members).base = none := honly _ (by decide) hbase
  have hoptionalNone : (keywords members).optional = none := honly _ (by decide) hoptional
  have hadditionalNone : (keywords members).additional = none := honly _ (by decide) hadditional
  rw [Keywords.hasProperties, hbaseNone, hoptionalNone, hadditionalNone]
  rfl

theorem forms_ne_zero {key : Str} {v : Json} (hv : getMember members key = some v)
    (hkey : key ∈ formKeys) : (keywords members).forms ≠ 0 := by
  intro hzero
  rw [(only_iff members).1.2 hzero key hkey List.not_mem_nil] at hv
  cases hv

/-- What the members of a value are taken for is a schema whose form they have. -/
theorem Agrees.forms (h : Agrees parse fuel) (hdepth : depthMembers members ≤ fuel)
    (hs : parseSchemaObject parse freely members path = .ok s) : Forms members s := by
  have hmember : ∀ key v, getMember members key = some v → v.depth ≤ fuel :=
    fun key v hv => (depth_le_of_getMember hv).trans hdepth
  obtain ⟨hnone, htype, henum, helements, hproperties, hvalues, hdiscriminator, href⟩ :=
    only_iff members
  simp only [parseSchemaObject, bind_ok, parseShared_iff] at hs
  obtain ⟨shared, hshared, hs⟩ := hs
  split_ifs at hs with hmany hzero
  · obtain rfl := Except.ok.inj hs
    exact .empty hshared (hnone.2 hzero)
  have hone : (keywords members).forms ≤ 1 := Nat.le_of_not_lt hmany
  unfold parseForm at hs
  split at hs
  · rename_i v hv
    obtain ⟨name, type, rfl, hmem, rfl⟩ := parseType_iff.1 hs
    exact .type hshared ((htype (by rw [hv]; rfl)).2 hone) hv hmem
  split at hs
  · rename_i v hv
    obtain ⟨values, rfl, hne, hnodup, rfl⟩ := parseEnum_iff.1 hs
    exact .enumeration hshared ((henum (by rw [hv]; rfl)).2 hone) hv hne hnodup
  split at hs
  · rename_i v hv
    obtain ⟨child, hchild, rfl⟩ := map_ok.1 hs
    exact .elements hshared ((helements (by rw [hv]; rfl)).2 hone) hv
      ((h v _ child (hmember _ v hv)).1 hchild)
  split at hs
  · rename_i hprops
    obtain ⟨required, optional, more, rfl, hrequired, hoptional, hapart, hflag, hsome⟩ :=
      (h.properties (hmember _) (hmember _)).1 hs
    refine .properties hshared ((hproperties hprops).2 hone) ?_ hrequired hoptional hapart hflag
    refine hsome.elim (fun hadditional => ?_) id
    rw [Keywords.hasProperties, hadditional, Option.isSome_none, Bool.or_false,
      Bool.or_eq_true] at hprops
    exact hprops
  split at hs
  · rename_i v hv
    obtain ⟨child, hchild, rfl⟩ := map_ok.1 hs
    exact .values hshared ((hvalues (by rw [hv]; rfl)).2 hone) hv
      ((h v _ child (hmember _ v hv)).1 hchild)
  split at hs
  · rename_i hdisc
    obtain ⟨tag, entries, l, htag, hentries, hl, rfl⟩ := (h.discriminator (hmember _)).1 hs
    exact .discriminator hshared ((hdiscriminator hdisc).2 hone) htag hentries hl
  split at hs
  · rename_i v hv
    obtain ⟨name, rfl, rfl⟩ := parseRef_iff.1 hs
    exact .ref hshared ((href (by rw [hv]; rfl)).2 hone) hv
  · cases hs

/-- The members of a form are taken for its schema: those of the forms that are looked for before
are not there. -/
theorem Agrees.parsed (h : Agrees parse fuel) (hdepth : depthMembers members ≤ fuel)
    (hforms : Forms members s) : parseSchemaObject parse freely members path = .ok s := by
  have hmember : ∀ key v, getMember members key = some v → v.depth ≤ fuel :=
    fun key v hv => (depth_le_of_getMember hv).trans hdepth
  obtain ⟨hnone, htype, henum, helements, hproperties, hvalues, hdiscriminator, href⟩ :=
    only_iff members
  simp only [parseSchemaObject, bind_ok, parseShared_iff]
  cases hforms with
  | @empty _ shared hshared honly =>
    have hzero := hnone.1 honly
    exact ⟨shared, hshared, by rw [if_neg (by omega), if_pos hzero]⟩
  | @type _ shared name type hshared honly hv hknown =>
    have hv' : (keywords members).type = some (.string name) := hv
    have hone := (htype (by rw [hv']; rfl)).1 honly
    refine ⟨shared, hshared, ?_⟩
    rw [if_neg (by omega), if_neg (forms_ne_zero hv (by decide))]
    simp only [parseForm, hv']
    exact parseType_iff.2 ⟨name, type, rfl, hknown, rfl⟩
  | @enumeration _ shared values hshared honly hv hne hdistinct =>
    have hv' : (keywords members).enumeration = some (.array (values.map .string)) := hv
    have hone := (henum (by rw [hv']; rfl)).1 honly
    have htypeNone : (keywords members).type = none := honly _ (by decide) (by decide)
    refine ⟨shared, hshared, ?_⟩
    rw [if_neg (by omega), if_neg (forms_ne_zero hv (by decide))]
    simp only [parseForm, htypeNone, hv']
    exact parseEnum_iff.2 ⟨values, rfl, hne, hdistinct, rfl⟩
  | @elements _ shared v child hshared honly hv hmeans =>
    have hv' : (keywords members).elements = some v := hv
    have hone := (helements (by rw [hv']; rfl)).1 honly
    have htypeNone : (keywords members).type = none := honly _ (by decide) (by decide)
    have henumNone : (keywords members).enumeration = none := honly _ (by decide) (by decide)
    refine ⟨shared, hshared, ?_⟩
    rw [if_neg (by omega), if_neg (forms_ne_zero hv (by decide))]
    simp only [parseForm, htypeNone, henumNone, hv']
    exact map_ok.2 ⟨child, (h v _ child (hmember _ v hv)).2 hmeans, rfl⟩
  | @properties _ shared required optional additional hshared honly hsome hrequired hoptional
      hapart hadditional =>
    have hprops : (keywords members).hasProperties = true := by
      rw [Keywords.hasProperties, Bool.or_eq_true, Bool.or_eq_true]
      exact .inl hsome
    have hone := (hproperties hprops).1 honly
    have hzero : (keywords members).forms ≠ 0 := by
      obtain hbase | hopt := hsome
      · obtain ⟨v, hv⟩ := Option.isSome_iff_exists.1 hbase
        exact forms_ne_zero hv (by decide)
      · obtain ⟨v, hv⟩ := Option.isSome_iff_exists.1 hopt
        exact forms_ne_zero hv (by decide)
    have htypeNone : (keywords members).type = none := honly _ (by decide) (by decide)
    have henumNone : (keywords members).enumeration = none := honly _ (by decide) (by decide)
    have helementsNone : (keywords members).elements = none := honly _ (by decide) (by decide)
    refine ⟨shared, hshared, ?_⟩
    rw [if_neg (by omega), if_neg hzero]
    simp only [parseForm, htypeNone, henumNone, helementsNone, hprops, if_true]
    exact (h.properties (hmember _) (hmember _)).2
      ⟨required, optional, additional, rfl, hrequired, hoptional, hapart, hadditional, .inr hsome⟩
  | @values _ shared v child hshared honly hv hmeans =>
    have hv' : (keywords members).values = some v := hv
    have hone := (hvalues (by rw [hv']; rfl)).1 honly
    have htypeNone : (keywords members).type = none := honly _ (by decide) (by decide)
    have henumNone : (keywords members).enumeration = none := honly _ (by decide) (by decide)
    have helementsNone : (keywords members).elements = none := honly _ (by decide) (by decide)
    refine ⟨shared, hshared, ?_⟩
    rw [if_neg (by omega), if_neg (forms_ne_zero hv (by decide))]
    simp only [parseForm, htypeNone, henumNone, helementsNone, noProperties honly (by decide),
      hv', Bool.false_eq_true, if_false]
    exact map_ok.2 ⟨child, (h v _ child (hmember _ v hv)).2 hmeans, rfl⟩
  | @discriminator _ entries shared tag mapping hshared honly htag hentries hmapping =>
    have hdisc : (keywords members).hasDiscriminator = true := by
      rw [Keywords.hasDiscriminator, Bool.or_eq_true]
      have htag' : (keywords members).discriminator = some (.string tag) := htag
      exact .inl (by rw [htag']; rfl)
    have hone := (hdiscriminator hdisc).1 honly
    have htypeNone : (keywords members).type = none := honly _ (by decide) (by decide)
    have henumNone : (keywords members).enumeration = none := honly _ (by decide) (by decide)
    have helementsNone : (keywords members).elements = none := honly _ (by decide) (by decide)
    have hvaluesNone : (keywords members).values = none := honly _ (by decide) (by decide)
    refine ⟨shared, hshared, ?_⟩
    rw [if_neg (by omega), if_neg (forms_ne_zero htag (by decide))]
    simp only [parseForm, htypeNone, henumNone, helementsNone, noProperties honly (by decide),
      hvaluesNone, hdisc, Bool.false_eq_true, if_false, if_true]
    exact (h.discriminator (hmember _)).2 ⟨tag, entries, mapping, htag, hentries, hmapping, rfl⟩
  | @ref _ shared name hshared honly hv =>
    have hv' : (keywords members).ref = some (.string name) := hv
    have hone := (href (by rw [hv']; rfl)).1 honly
    have htypeNone : (keywords members).type = none := honly _ (by decide) (by decide)
    have henumNone : (keywords members).enumeration = none := honly _ (by decide) (by decide)
    have helementsNone : (keywords members).elements = none := honly _ (by decide) (by decide)
    have hvaluesNone : (keywords members).values = none := honly _ (by decide) (by decide)
    have hdiscNone : (keywords members).discriminator = none := honly _ (by decide) (by decide)
    have hmappingNone : (keywords members).mapping = none := honly _ (by decide) (by decide)
    refine ⟨shared, hshared, ?_⟩
    rw [if_neg (by omega), if_neg (forms_ne_zero hv (by decide))]
    simp only [parseForm, htypeNone, henumNone, helementsNone, noProperties honly (by decide),
      hvaluesNone, Keywords.hasDiscriminator, hdiscNone, hmappingNone, hv', Option.isSome_none,
      Bool.or_self, Bool.false_eq_true, if_false]
    exact parseRef_iff.2 ⟨name, rfl, rfl⟩

/-- The members of a value are taken for the schema whose form they have. -/
theorem Agrees.object (h : Agrees parse fuel) (hdepth : depthMembers members ≤ fuel) :
    parseSchemaObject parse freely members path = .ok s ↔ Forms members s :=
  ⟨h.forms hdepth, h.parsed hdepth⟩

/-- A value is taken for what it means, without the checks on mappings. -/
theorem agrees (fuel : ℕ) : Agrees (parseSchema freely fuel) fuel := by
  induction fuel with
  | zero =>
    intro v path s hdepth
    cases v <;> simp [Json.depth] at hdepth
  | succ fuel ih =>
    intro v path s hdepth
    cases v with
    | object members =>
      have hmembers : depthMembers members ≤ fuel := Nat.le_of_succ_le_succ hdepth
      have hobject : Means (.object members) s ↔
          (∀ m ∈ members, m.1 ∈ schemaKeys) ∧ Forms members s := by
        constructor
        · intro hmeans
          cases hmeans with
          | object hkeys hforms => exact ⟨hkeys, hforms⟩
        · rintro ⟨hkeys, hforms⟩
          exact .object hkeys hforms
      rw [parseSchema, hobject]
      split_ifs with hdefinitions
      · constructor
        · intro hs
          cases hs
        · rintro ⟨hkeys, -⟩
          obtain ⟨v, hv⟩ := Option.isSome_iff_exists.1 hdefinitions
          exact absurd (hkeys _ (getMember_mem hv))
            (show str "definitions" ∉ schemaKeys by decide)
      · have hknown : validateKeys schemaKey members path = .ok () ↔
            ∀ m ∈ members, m.1 ∈ schemaKeys := by
          simp only [validateKeys_iff, schemaKey_iff]
        simp only [bind_ok, ih.object hmembers]
        constructor
        · rintro ⟨⟨⟩, hkeys, hforms⟩
          exact ⟨hknown.1 hkeys, hforms⟩
        · rintro ⟨hkeys, hforms⟩
          exact ⟨(), hknown.2 hkeys, hforms⟩
    | _ =>
      constructor
      · intro hs
        cases hs
      · intro hmeans
        cases hmeans

end Spn.Jtd
