import Spn.Jtd.Parse
import Spn.Lib.Except

/-! # The checks on mappings

Parsing with checks on the entries of mappings accepts what parsing without them does, where the
entries satisfy what is asked of them.
-/
namespace Spn.Jtd

open Spn.Lib.Except

/-! ## Schemas within schemas -/

mutual

/-- The property holds of the schema and of all within it. -/
def Schema.All (P : Schema → Prop) : Schema → Prop
  | .elements shared schema => P (.elements shared schema) ∧ schema.All P
  | .properties shared required optional additional =>
    P (.properties shared required optional additional) ∧ AllIn P required ∧ AllIn P optional
  | .values shared schema => P (.values shared schema) ∧ schema.All P
  | .discriminator shared tag mapping => P (.discriminator shared tag mapping) ∧ AllIn P mapping
  | .empty shared => P (.empty shared)
  | .type shared type => P (.type shared type)
  | .enumeration shared values => P (.enumeration shared values)
  | .ref shared name target => P (.ref shared name target)

def AllIn (P : Schema → Prop) : List (Str × Schema) → Prop
  | [] => True
  | p :: rest => p.2.All P ∧ AllIn P rest

end

theorem allIn_iff {P : Schema → Prop} {l : List (Str × Schema)} :
    AllIn P l ↔ ∀ p ∈ l, p.2.All P := by
  induction l with
  | nil => simp [AllIn]
  | cons p rest ih => simp [AllIn, ih]

mutual

theorem Schema.all_iff_walk {P : Schema → Prop} (path : Str) :
    ∀ s : Schema, s.All P ↔ ∀ node ∈ s.walk path, P node.2
  | .elements shared schema => by
    simp [Schema.All, Schema.walk, Schema.all_iff_walk (pathSeg path (str "elements")) schema]
  | .properties shared required optional additional => by
    simp [Schema.All, Schema.walk,
      allIn_iff_walkAll (pathSeg path (str "properties")) required,
      allIn_iff_walkAll (pathSeg path (str "optionalProperties")) optional, or_imp, forall_and]
  | .values shared schema => by
    simp [Schema.All, Schema.walk, Schema.all_iff_walk (pathSeg path (str "values")) schema]
  | .discriminator shared tag mapping => by
    simp [Schema.All, Schema.walk, allIn_iff_walkAll (pathSeg path (str "mapping")) mapping]
  | .empty shared => by simp [Schema.All, Schema.walk]
  | .type shared type => by simp [Schema.All, Schema.walk]
  | .enumeration shared values => by simp [Schema.All, Schema.walk]
  | .ref shared name target => by simp [Schema.All, Schema.walk]

theorem allIn_iff_walkAll {P : Schema → Prop} (path : Str) :
    ∀ l : List (Str × Schema), AllIn P l ↔ ∀ node ∈ walkAll path l, P node.2
  | [] => by simp [AllIn, walkAll]
  | p :: rest => by
    simp [AllIn, walkAll, Schema.all_iff_walk (pathSeg path p.1) p.2,
      allIn_iff_walkAll path rest, or_imp, forall_and]

end

/-! ## Parsing and the checks on mappings -/

/-- Nothing is asked of the entries of mappings. -/
def freely : Check := fun _ _ _ => .ok ()

/-- The entries of a discriminator satisfy what is asked of them. -/
def NodeOk (ok : Str → Schema → Prop) : Schema → Prop
  | .discriminator _ tag mapping => ∀ m ∈ mapping, ok tag m.2
  | _ => True

theorem parseMembers_ok_iff {parse : Json → Str → Except Diagnostic Schema} {asks : Asks}
    {base : Str} {members : List (Str × Json)} {l : List (Str × Schema)} :
    parseMembers parse asks base members = .ok l ↔
      List.Forall₂ (fun m p => m.1 = p.1 ∧ asks.before (pathSeg base m.1) m.1 = .ok () ∧
        parse m.2 (pathSeg base m.1) = .ok p.2 ∧ asks.after (pathSeg base m.1) m.1 p.2 = .ok ())
        members l := by
  induction members generalizing l with
  | nil =>
    rw [parseMembers, List.forall₂_nil_left_iff]
    exact ⟨fun h => (Except.ok.inj h).symm, fun h => congrArg Except.ok h.symm⟩
  | cons m rest ih =>
    rw [parseMembers, List.forall₂_cons_left_iff]
    simp only [bind_ok, ih]
    constructor
    · rintro ⟨⟨⟩, hbefore, child, hchild, ⟨⟩, hafter, children, hrest, hl⟩
      cases hl
      exact ⟨(m.1, child), children, ⟨rfl, hbefore, hchild, hafter⟩, hrest, rfl⟩
    · rintro ⟨p, children, ⟨hkey, hbefore, hchild, hafter⟩, hrest, rfl⟩
      refine ⟨(), hbefore, p.2, hchild, (), hafter, children, hrest, ?_⟩
      rw [hkey]

theorem forall₂_and_right {α β : Type} {R : α → β → Prop} {P : β → Prop} {l : List α}
    {u : List β} :
    List.Forall₂ (fun a b => R a b ∧ P b) l u ↔ List.Forall₂ R l u ∧ ∀ b ∈ u, P b := by
  constructor
  · intro h
    induction h with
    | nil => exact ⟨.nil, by simp⟩
    | cons hab _ ih => exact ⟨.cons hab.1 ih.1, List.forall_mem_cons.2 ⟨hab.2, ih.2⟩⟩
  · rintro ⟨h, hall⟩
    induction h with
    | nil => exact .nil
    | cons hab _ ih =>
      obtain ⟨hb, hrest⟩ := List.forall_mem_cons.1 hall
      exact .cons ⟨hab, hb⟩ (ih hrest)

/-- Two ways to read the members of an object, where the first asks for something more. -/
theorem parseMembers_more {parse parse' : Json → Str → Except Diagnostic Schema}
    {asks asks' : Asks} {P : Str × Schema → Prop} {base : Str} {members : List (Str × Json)}
    {l : List (Str × Schema)}
    (h : ∀ (m : Str × Json) (p : Str × Schema) (path : Str),
      (asks.before path m.1 = .ok () ∧ parse m.2 path = .ok p.2 ∧
          asks.after path m.1 p.2 = .ok ()) ↔
        (asks'.before path m.1 = .ok () ∧ parse' m.2 path = .ok p.2 ∧
          asks'.after path m.1 p.2 = .ok ()) ∧ P p) :
    parseMembers parse asks base members = .ok l ↔
      parseMembers parse' asks' base members = .ok l ∧ ∀ p ∈ l, P p := by
  rw [parseMembers_ok_iff, parseMembers_ok_iff, ← forall₂_and_right]
  constructor
  · refine fun hall => hall.imp fun m p hp => ?_
    obtain ⟨hboth, hP⟩ := (h m p _).1 hp.2
    exact ⟨⟨hp.1, hboth⟩, hP⟩
  · refine fun hall => hall.imp fun m p hp => ?_
    exact ⟨hp.1.1, (h m p _).2 ⟨hp.1.2, hp.2⟩⟩

section Checks

variable {check : Check} {ok : Str → Schema → Prop}

/-- What a parse accepts is what another accepts and something holds of all of. -/
def Narrows (parse parse' : Json → Str → Except Diagnostic Schema) (P : Schema → Prop) : Prop :=
  ∀ v path s, parse v path = .ok s ↔ parse' v path = .ok s ∧ s.All P

variable {parse parse' : Json → Str → Except Diagnostic Schema} {P : Schema → Prop}

theorem Narrows.members (h : Narrows parse parse' P) {asks : Asks} {base : Str}
    {members : List (Str × Json)} {l : List (Str × Schema)} :
    parseMembers parse asks base members = .ok l ↔
      parseMembers parse' asks base members = .ok l ∧ AllIn P l := by
  rw [allIn_iff]
  refine parseMembers_more fun m p path => ?_
  rw [h m.2 path p.2]
  tauto

theorem Narrows.propertyMap (h : Narrows parse parse' P) {asks : Asks} {path member : Str}
    {object : Option Json} {l : List (Str × Schema)} :
    parsePropertyMap parse asks path member object = .ok l ↔
      parsePropertyMap parse' asks path member object = .ok l ∧ AllIn P l := by
  cases object with
  | none =>
    refine ⟨fun hl => ⟨hl, ?_⟩, fun hl => hl.1⟩
    obtain rfl := Except.ok.inj hl
    trivial
  | some v =>
    cases v with
    | object members => exact h.members
    | _ => exact ⟨fun hl => (by cases hl), fun hl => hl.1⟩

theorem Narrows.properties (h : Narrows parse parse' (NodeOk ok)) {shared : Shared}
    {props object additional : Option Json} {path : Str} {s : Schema} :
    parseProperties parse shared props object additional path = .ok s ↔
      parseProperties parse' shared props object additional path = .ok s ∧ s.All (NodeOk ok) := by
  simp only [parseProperties, bind_ok, h.propertyMap]
  constructor
  · rintro ⟨more, hmore, required, ⟨hrequired, hall⟩, optional, ⟨hoptional, hall'⟩, hs⟩
    obtain rfl := Except.ok.inj hs
    exact ⟨⟨more, hmore, required, hrequired, optional, hoptional, rfl⟩, trivial, hall, hall'⟩
  · rintro ⟨⟨more, hmore, required, hrequired, optional, hoptional, hs⟩, hall⟩
    obtain rfl := Except.ok.inj hs
    exact ⟨more, hmore, required, ⟨hrequired, hall.2.1⟩, optional, ⟨hoptional, hall.2.2⟩, rfl⟩

theorem parseEnum_all {shared : Shared} {v : Json} {path : Str} {s : Schema}
    (h : parseEnum shared v path = .ok s) : s.All (NodeOk ok) := by
  cases v with
  | array items =>
    rw [parseEnum] at h
    cases hvalues : parseEnumValues path [] items with
    | error e =>
      rw [hvalues] at h
      cases h
    | ok values =>
      rw [hvalues, Except.bind] at h
      split_ifs at h with hempty
      obtain rfl := Except.ok.inj h
      trivial
  | _ => cases h

theorem parseType_all {shared : Shared} {v : Json} {path : Str} {s : Schema}
    (h : parseType shared v path = .ok s) : s.All (NodeOk ok) := by
  cases v with
  | string name =>
    rw [parseType] at h
    split at h
    · obtain rfl := Except.ok.inj h
      trivial
    · cases h
  | _ => cases h

theorem parseRef_all {shared : Shared} {v : Json} {path : Str} {s : Schema}
    (h : parseRef shared v path = .ok s) : s.All (NodeOk ok) := by
  cases v with
  | string name =>
    obtain rfl := Except.ok.inj h
    trivial
  | _ => cases h

/-- What is asked of an entry depends on its path only in what is reported. -/
def Asked (check : Check) (ok : Str → Schema → Prop) : Prop :=
  ∀ cpath tag child, check cpath tag child = .ok () ↔ ok tag child

theorem Narrows.discriminator (h : Narrows parse parse' (NodeOk ok)) (hcheck : Asked check ok)
    {shared : Shared} {discriminator mapping : Option Json} {path : Str} {s : Schema} :
    parseDiscriminator parse check shared discriminator mapping path = .ok s ↔
      parseDiscriminator parse' freely shared discriminator mapping path = .ok s ∧
        s.All (NodeOk ok) := by
  unfold parseDiscriminator
  split
  · rename_i tag
    split
    · rename_i members
      have hentries : ∀ l, parseMembers parse
          ⟨fun _ _ => .ok (), fun cpath _ child => check cpath tag child⟩
          (pathSeg path (str "mapping")) members = .ok l ↔
          parseMembers parse' ⟨fun _ _ => .ok (), fun cpath _ child => freely cpath tag child⟩
            (pathSeg path (str "mapping")) members = .ok l ∧
          ∀ p ∈ l, p.2.All (NodeOk ok) ∧ ok tag p.2 := by
        refine fun l => parseMembers_more fun m p path => ?_
        rw [h m.2 path p.2]
        change _ ∧ _ ∧ check path tag p.2 = .ok () ↔ _
        rw [hcheck path tag p.2]
        simp only [freely]
        tauto
      rw [map_ok, map_ok]
      simp only [hentries]
      constructor
      · rintro ⟨l, ⟨hl, hall⟩, rfl⟩
        exact ⟨⟨l, hl, rfl⟩, fun p hp => (hall p hp).2, allIn_iff.2 fun p hp => (hall p hp).1⟩
      · rintro ⟨⟨l, hl, rfl⟩, hok, hall⟩
        exact ⟨l, ⟨hl, fun p hp => ⟨allIn_iff.1 hall p hp, hok p hp⟩⟩, rfl⟩
    · exact ⟨fun hs => (by cases hs), fun hs => hs.1⟩
  · exact ⟨fun hs => (by cases hs), fun hs => hs.1⟩

theorem Narrows.within (h : Narrows parse parse' (NodeOk ok)) {f : Schema → Schema}
    (hf : ∀ s, (f s).All (NodeOk ok) ↔ s.All (NodeOk ok)) {v : Json} {path : Str} {s : Schema} :
    (parse v path).map f = .ok s ↔ (parse' v path).map f = .ok s ∧ s.All (NodeOk ok) := by
  simp only [map_ok, h v path]
  constructor
  · rintro ⟨child, ⟨hchild, hall⟩, rfl⟩
    exact ⟨⟨child, hchild, rfl⟩, (hf child).2 hall⟩
  · rintro ⟨⟨child, hchild, rfl⟩, hall⟩
    exact ⟨child, ⟨hchild, (hf child).1 hall⟩, rfl⟩

theorem Narrows.form (h : Narrows parse parse' (NodeOk ok)) (hcheck : Asked check ok)
    {o : Keywords} {shared : Shared} {path : Str} {s : Schema} :
    parseForm parse check o shared path = .ok s ↔
      parseForm parse' freely o shared path = .ok s ∧ s.All (NodeOk ok) := by
  unfold parseForm
  split
  · exact ⟨fun hs => ⟨hs, parseType_all hs⟩, fun hs => hs.1⟩
  split
  · exact ⟨fun hs => ⟨hs, parseEnum_all hs⟩, fun hs => hs.1⟩
  split
  · exact h.within (f := .elements shared) fun s => and_iff_right trivial
  split
  · exact h.properties
  split
  · exact h.within (f := .values shared) fun s => and_iff_right trivial
  split
  · exact h.discriminator hcheck
  split
  · exact ⟨fun hs => ⟨hs, parseRef_all hs⟩, fun hs => hs.1⟩
  · exact ⟨fun hs => (by cases hs), fun hs => hs.1⟩

theorem Narrows.object (h : Narrows parse parse' (NodeOk ok)) (hcheck : Asked check ok)
    {members : List (Str × Json)} {path : Str} {s : Schema} :
    parseSchemaObject parse check members path = .ok s ↔
      parseSchemaObject parse' freely members path = .ok s ∧ s.All (NodeOk ok) := by
  simp only [parseSchemaObject, bind_ok]
  rw [← exists_and_right]
  refine exists_congr fun shared => ?_
  rw [and_assoc]
  refine and_congr_right fun _ => ?_
  split_ifs
  · exact ⟨fun hs => (by cases hs), fun hs => hs.1⟩
  · refine ⟨fun hs => ⟨hs, ?_⟩, fun hs => hs.1⟩
    obtain rfl := Except.ok.inj hs
    trivial
  · exact h.form hcheck

/-- What a check lets pass is what is read without it and satisfies what it asks. -/
theorem parseSchema_ok_iff (hcheck : Asked check ok) (fuel : ℕ) :
    Narrows (parseSchema check fuel) (parseSchema freely fuel) (NodeOk ok) := by
  induction fuel with
  | zero =>
    intro v path s
    exact ⟨fun hs => (by cases hs), fun hs => hs.1⟩
  | succ fuel ih =>
    intro v path s
    cases v with
    | object members =>
      simp only [parseSchema]
      split_ifs
      · exact ⟨fun hs => (by cases hs), fun hs => hs.1⟩
      · simp only [bind_ok, ih.object hcheck]
        rw [← exists_and_right]
        exact exists_congr fun _ => and_assoc.symm
    | _ => exact ⟨fun hs => (by cases hs), fun hs => hs.1⟩

end Checks

end Spn.Jtd
