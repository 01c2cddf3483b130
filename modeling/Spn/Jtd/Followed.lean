import Spn.Jtd.Order

/-! # References followed

In a result every reference leads to the definition of its name. Following references from any of
its schemas ends at one that is no reference, or goes round; from the entries of mappings it ends
at properties.
-/
namespace Spn.Jtd

open Spn.Lib.Chain

variable {defs : List Definition} {name : Str} {r doc : Result} {node next e : Node}

/-! ## Targets -/

theorem targetOf_lt {i : ℕ} (h : targetOf defs name = some i) : i < defs.length :=
  (List.findIdx?_eq_some_iff_findIdx_eq.1 h).1

theorem targetOf_isSome (h : ∃ d ∈ defs, d.name = name) : ∃ i, targetOf defs name = some i := by
  rw [← Option.isSome_iff_exists, targetOf, List.findIdx?_isSome, List.any_eq_true]
  simpa using h

theorem definition_eq_targetOf :
    definition defs name = (targetOf defs name).bind fun i => (defs[i]?).map Definition.schema := by
  induction defs with
  | nil => rfl
  | cons d rest ih =>
    by_cases hname : d.name = name
    · simp [definition, targetOf, List.findIdx?_cons, hname]
    · simp only [definition, targetOf] at ih
      simp only [definition, targetOf, List.find?_cons, List.findIdx?_cons, hname, decide_false]
      rw [ih]
      cases List.findIdx? (fun d => decide (d.name = name)) rest <;> simp

theorem targetOf_map {f : Definition → Definition} (hf : ∀ d, (f d).name = d.name) :
    targetOf (defs.map f) name = targetOf defs name := by
  rw [targetOf, List.findIdx?_map]
  simp [targetOf, Function.comp_def, hf]

/-- A reference has the place of the definition of its name for a target. -/
def Targeted (defs : List Definition) (s : Schema) : Prop :=
  ∀ shared name target, s = .ref shared name target →
    ∃ i, target = some i ∧ targetOf defs name = some i

mutual

theorem Schema.all_linkTo {P : Schema → Prop} (find : Str → Option ℕ) :
    ∀ s : Schema, (s.linkTo find).All P ↔ s.All fun t => P (t.linkTo find)
  | .elements shared schema => by
    simp [Schema.All, Schema.linkTo, Schema.all_linkTo find schema]
  | .properties shared required optional additional => by
    simp [Schema.All, Schema.linkTo, allIn_linkAll find required, allIn_linkAll find optional]
  | .values shared schema => by
    simp [Schema.All, Schema.linkTo, Schema.all_linkTo find schema]
  | .discriminator shared tag mapping => by
    simp [Schema.All, Schema.linkTo, allIn_linkAll find mapping]
  | .empty shared => by simp [Schema.All, Schema.linkTo]
  | .type shared type => by simp [Schema.All, Schema.linkTo]
  | .enumeration shared values => by simp [Schema.All, Schema.linkTo]
  | .ref shared name target => by simp [Schema.All, Schema.linkTo]

theorem allIn_linkAll {P : Schema → Prop} (find : Str → Option ℕ) :
    ∀ l : List (Str × Schema), AllIn P (linkAll find l) ↔ AllIn (fun t => P (t.linkTo find)) l
  | [] => by simp [AllIn, linkAll]
  | p :: rest => by
    simp [AllIn, linkAll, Schema.all_linkTo find p.2, allIn_linkAll find rest]

end

/-- The property holds of all schemas of a document. -/
def Result.All (P : Schema → Prop) (doc : Result) : Prop :=
  doc.root.All P ∧ ∀ d ∈ doc.definitions, d.schema.All P

theorem Schema.All.self {P : Schema → Prop} {s : Schema} (h : s.All P) : P s := by
  cases s with
  | elements _ _ => exact h.1
  | properties _ _ _ _ => exact h.1
  | values _ _ => exact h.1
  | discriminator _ _ _ => exact h.1
  | _ => exact h

theorem Result.all_iff_walk {P : Schema → Prop} : doc.All P ↔ ∀ v ∈ doc.walk, P v.2 := by
  simp only [Result.All, Result.walk, List.forall_mem_append, List.mem_flatMap,
    Schema.all_iff_walk rootPath doc.root]
  refine and_congr_right fun _ => ?_
  constructor
  · rintro h v ⟨d, hd, hv⟩
    exact (Schema.all_iff_walk _ d.schema).1 (h d hd) v hv
  · exact fun h d hd => (Schema.all_iff_walk _ d.schema).2 fun v hv => h v ⟨d, hd, hv⟩

theorem Result.All.of_nodes {P : Schema → Prop} (h : r.All P) (hnode : node ∈ r.nodes) :
    P node.schema := by
  obtain ⟨hroot, hdefs⟩ := h
  obtain hroot' | hdef := List.mem_append.1 hnode
  · obtain ⟨v, hv, rfl⟩ := List.mem_map.1 hroot'
    exact (Schema.all_iff_walk rootPath r.root).1 hroot v hv
  · obtain ⟨d, hd, hmem⟩ := List.mem_flatMap.1 hdef
    have hall := hdefs d.1 (List.fst_mem_of_mem_zipIdx hd)
    obtain rfl | htail := List.mem_cons.1 hmem
    · exact hall.self
    · obtain ⟨v, hv, rfl⟩ := List.mem_map.1 htail
      exact (Schema.all_iff_walk _ d.1.schema).1 hall v (List.mem_of_mem_tail hv)

/-- All references have their targets. -/
def Result.Linked (r : Result) : Prop := r.All (Targeted r.definitions)

theorem Result.Resolved.linked (h : doc.Resolved) : doc.linked.Linked := by
  have hnames : ∀ name, targetOf doc.linked.definitions name = targetOf doc.definitions name :=
    fun _ => targetOf_map fun _ => rfl
  have hall : doc.All fun s => Targeted doc.linked.definitions
      (s.linkTo (targetOf doc.definitions)) := by
    refine Result.all_iff_walk.2 fun v hv shared name target heq => ?_
    obtain ⟨path, s⟩ := v
    cases s with
    | ref shared' name' target' =>
      cases heq
      obtain ⟨i, hi⟩ := targetOf_isSome (h _ hv shared name _ rfl)
      exact ⟨i, hi, by rw [hnames, hi]⟩
    | _ => cases heq
  refine ⟨(Schema.all_linkTo _ _).2 hall.1, fun d hd => ?_⟩
  obtain ⟨d', hd', rfl⟩ := List.mem_map.1 hd
  exact (Schema.all_linkTo _ _).2 (hall.2 d' hd')

/-! ## Following references -/

def Schema.isRef : Schema → Bool
  | .ref _ _ _ => true
  | _ => false

/-- Where a reference leads to, if it is one. -/
def Result.step (r : Result) (node : Node) : Option Node :=
  match node.schema with
  | .ref _ name target => r.next name target
  | _ => none

/-- A node whose reference has its target, and which is the definition at its place. -/
def Result.Good (r : Result) (node : Node) : Prop :=
  Targeted r.definitions node.schema ∧ ∀ i, node.place = some i → r.entry i = some node

theorem entry_good (hr : r.Linked) {i : ℕ} (h : r.entry i = some node) :
    r.Good node ∧ node.place = some i ∧ i < r.definitions.length := by
  obtain ⟨d, hd, rfl⟩ := Option.map_eq_some_iff.1 h
  obtain ⟨hlt, -⟩ := List.getElem?_eq_some_iff.1 hd
  refine ⟨⟨(hr.2 d (List.mem_of_getElem? hd)).self, fun j hj => ?_⟩, rfl, hlt⟩
  obtain rfl := Option.some.inj hj
  exact h

theorem nodes_good (hr : r.Linked) (h : node ∈ r.nodes) : r.Good node := by
  refine ⟨hr.of_nodes h, fun i hi => ?_⟩
  obtain hroot | hdef := List.mem_append.1 h
  · obtain ⟨v, hv, rfl⟩ := List.mem_map.1 hroot
    cases hi
  · obtain ⟨d, hd, hmem⟩ := List.mem_flatMap.1 hdef
    obtain rfl | htail := List.mem_cons.1 hmem
    · obtain rfl := Option.some.inj hi
      rw [Result.entry, List.mem_zipIdx_iff_getElem?.1 hd, Option.map_some]
    · obtain ⟨v, hv, rfl⟩ := List.mem_map.1 htail
      cases hi

theorem step_cases (hr : r.Linked) (hgood : r.Good node) :
    (node.schema.isRef = false ∧ r.step node = none) ∨
      ∃ shared name target next, node.schema = .ref shared name target ∧
        r.next name target = some next ∧ r.step node = some next ∧ r.Good next ∧
        ∃ i < r.definitions.length, next.place = some i := by
  cases hschema : node.schema with
  | ref shared name target =>
    obtain ⟨i, rfl, htarget⟩ := hgood.1 shared name target hschema
    obtain ⟨next, hnext⟩ : ∃ next, r.entry i = some next := by
      rw [Result.entry, List.getElem?_eq_getElem (targetOf_lt htarget)]
      exact ⟨_, rfl⟩
    obtain ⟨hgood', hplace, hlt⟩ := entry_good hr hnext
    refine .inr ⟨shared, name, _, next, rfl, hnext, ?_, hgood', i, hlt, hplace⟩
    rw [Result.step, hschema]
    exact hnext
  | _ => exact .inl ⟨rfl, by rw [Result.step, hschema]⟩

theorem resolveDeep_stays (h : node.schema.isRef = false) (fuel : ℕ) (seen : List (Option ℕ)) :
    r.resolveDeep (fuel + 1) seen node = some (.ok node) := by
  rw [Result.resolveDeep]
  split
  · rename_i heq
    rw [heq] at h
    cases h
  · rfl

theorem resolveDeep_ref {shared : Shared} {target : Option ℕ}
    (hschema : node.schema = .ref shared name target) (hnext : r.next name target = some next)
    (fuel : ℕ) (seen : List (Option ℕ)) :
    r.resolveDeep (fuel + 1) seen node =
      if node.among seen then some (.error ⟨.refCycle, node.path, name⟩)
      else r.resolveDeep fuel (seen ++ [node.place]) next := by
  rw [Result.resolveDeep]
  split
  · rename_i heq
    cases hschema.symm.trans heq
    rw [hnext]
  · rename_i hnot
    exact absurd hschema (hnot shared name target)

theorem among_append {seen : List (Option ℕ)} {place : Option ℕ} :
    node.among (seen ++ [place]) =
      (node.among seen || decide (∃ i, node.place = some i ∧ place = some i)) := by
  rw [Node.among, Node.among]
  cases hplace : node.place with
  | none => simp
  | some i => simp [eq_comm]

/-- A way that ends is followed to its end. -/
theorem resolveDeep_of_ends (hr : r.Linked) {n : ℕ} (h : Ends r.step n node e)
    (hgood : r.Good node) {fuel : ℕ} {seen : List (Option ℕ)} (hfuel : n < fuel)
    (hnew : ∀ k ≤ n, ∀ b, r.Good b → Ends r.step k b e → b.among seen = false) :
    r.resolveDeep fuel seen node = some (.ok e) := by
  induction h generalizing fuel seen with
  | @here node hnone =>
    obtain ⟨fuel, rfl⟩ := Nat.exists_eq_add_of_lt hfuel
    obtain ⟨hnot, -⟩ | ⟨_, _, _, _, _, _, hsome, _⟩ := step_cases hr hgood
    · exact resolveDeep_stays hnot _ _
    · exact absurd (hnone.symm.trans hsome) (by simp)
  | @step n node next e hsome hrest ih =>
    obtain ⟨fuel, rfl⟩ := Nat.exists_eq_add_of_lt hfuel
    obtain ⟨-, hnone⟩ | ⟨shared, name, target, next', hschema, hnext, hsome', hgood', _⟩ :=
      step_cases hr hgood
    · exact absurd (hnone.symm.trans hsome) (by simp)
    obtain rfl := Option.some.inj (hsome.symm.trans hsome')
    rw [resolveDeep_ref hschema hnext, hnew _ le_rfl node hgood (.step hsome hrest)]
    refine ih hgood' (by omega) fun k hk b hb hends => ?_
    have hold := hnew k (by omega) b hb hends
    rw [among_append, hold, Bool.false_or]
    refine decide_eq_false ?_
    rintro ⟨i, hi, hnode⟩
    -- a node of the way at the same place would be this one, as far from the end as it is
    obtain rfl := Option.some.inj ((hb.2 i hi).symm.trans (hgood.2 i hnode))
    have hsame := (hends.unique (.step hsome hrest)).1
    omega

theorem ends_of_resolveDeep (hr : r.Linked) (hgood : r.Good node) {fuel : ℕ}
    {seen : List (Option ℕ)} (h : r.resolveDeep fuel seen node = some (.ok e)) :
    ∃ n, Ends r.step n node e ∧ e.schema.isRef = false := by
  induction fuel generalizing node seen with
  | zero => cases h
  | succ fuel ih =>
    obtain ⟨hnot, hnone⟩ | ⟨shared, name, target, next, hschema, hnext, hsome, hgood', _⟩ :=
      step_cases hr hgood
    · rw [resolveDeep_stays hnot] at h
      cases h
      exact ⟨0, .here hnone, hnot⟩
    · rw [resolveDeep_ref hschema hnext] at h
      split_ifs at h with hamong
      · cases h
      obtain ⟨n, hends, hnot⟩ := ih hgood' h
      exact ⟨n + 1, .step hsome hends, hnot⟩

/-- What is reported is a node that leads to itself. -/
theorem cycle_of_resolveDeep (hr : r.Linked) {start : Node} (hgood : r.Good node) {fuel m : ℕ}
    {seen : List (Option ℕ)} {d : Diagnostic} (hstart : Leads r.step m start node)
    (hseen : ∀ i, some i ∈ seen → ∃ b k, r.entry i = some b ∧ Leads r.step (k + 1) b node)
    (h : r.resolveDeep fuel seen node = some (.error d)) :
    ∃ b m k, Leads r.step m start b ∧ Leads r.step (k + 1) b b ∧
      d = ⟨.refCycle, b.path, b.schema.refName⟩ := by
  induction fuel generalizing node seen m with
  | zero => cases h
  | succ fuel ih =>
    obtain ⟨hnot, -⟩ | ⟨shared, name, target, next, hschema, hnext, hsome, hgood', _⟩ :=
      step_cases hr hgood
    · rw [resolveDeep_stays hnot] at h
      cases h
    rw [resolveDeep_ref hschema hnext] at h
    split_ifs at h with hamong
    · obtain ⟨hplace, hmem⟩ := Bool.and_eq_true_iff.1 hamong
      obtain ⟨i, hi⟩ := Option.isSome_iff_exists.1 hplace
      obtain ⟨b, k, hb, hleads⟩ := hseen i (hi ▸ of_decide_eq_true hmem)
      obtain rfl := Option.some.inj (hb.symm.trans (hgood.2 i hi))
      cases h
      exact ⟨_, m, k, hstart, hleads, by rw [hschema, Schema.refName]⟩
    · refine ih hgood' (hstart.append hsome) (fun i hi => ?_) h
      obtain hold | hlast := List.mem_append.1 hi
      · obtain ⟨b, k, hb, hleads⟩ := hseen i hold
        exact ⟨b, k + 1, hb, hleads.append hsome⟩
      · exact ⟨node, 0, hgood.2 i (List.mem_singleton.1 hlast).symm, .step hsome (.here next)⟩

/-- There are no more definitions to meet than there are. -/
theorem resolveDeep_isSome (hr : r.Linked) (hgood : r.Good node) {fuel : ℕ}
    {seen : List (Option ℕ)} (hplace : ∃ i < r.definitions.length, node.place = some i)
    (hnodup : (seen.filterMap id).Nodup)
    (hlt : ∀ i ∈ seen.filterMap id, i < r.definitions.length)
    (hfuel : r.definitions.length < fuel + (seen.filterMap id).length) :
    (r.resolveDeep fuel seen node).isSome := by
  induction fuel generalizing node seen with
  | zero =>
    have hsub : seen.filterMap id ⊆ List.range r.definitions.length :=
      fun i hi => List.mem_range.2 (hlt i hi)
    have hle := (hnodup.subperm hsub).length_le
    rw [List.length_range] at hle
    omega
  | succ fuel ih =>
    obtain ⟨hnot, -⟩ | ⟨shared, name, target, next, hschema, hnext, _, hgood', hplace'⟩ :=
      step_cases hr hgood
    · rw [resolveDeep_stays hnot]
      rfl
    rw [resolveDeep_ref hschema hnext]
    split_ifs with hamong
    · rfl
    obtain ⟨i, hi, hnode⟩ := hplace
    have hnew : i ∉ seen.filterMap id := by
      intro hmem
      rw [Node.among, hnode] at hamong
      simp_all
    have hseen : (seen ++ [node.place]).filterMap id = seen.filterMap id ++ [i] := by
      rw [List.filterMap_append, hnode]
      rfl
    refine ih hgood' hplace' ?_ ?_ ?_
    · rw [hseen]
      rw [← List.concat_eq_append]
      exact hnodup.concat hnew
    · rw [hseen]
      intro j hj
      obtain hold | hlast := List.mem_append.1 hj
      · exact hlt j hold
      · exact List.mem_singleton.1 hlast ▸ hi
    · rw [hseen, List.length_append, List.length_singleton]
      omega

/-- Each schema of an accepted document is followed to the end of its references, where there is
one; else a reference that leads to itself is reported. A missing definition never is. -/
theorem resolveDeep_exact (root : Json) (h : run root = .ok r) (hnode : node ∈ r.nodes) :
    (∃ n e, Ends r.step n node e ∧ e.schema.isRef = false ∧
        r.resolveDeep (r.definitions.length + 2) [] node = some (.ok e)) ∨
      ∃ b m k, Leads r.step m node b ∧ Leads r.step (k + 1) b b ∧
        r.resolveDeep (r.definitions.length + 2) [] node =
          some (.error ⟨.refCycle, b.path, b.schema.refName⟩) := by
  obtain ⟨doc, hresolved, -, rfl⟩ := run_linked h
  have hr := hresolved.linked
  have hgood := nodes_good hr hnode
  have hsome : (doc.linked.resolveDeep (doc.linked.definitions.length + 2) [] node).isSome := by
    obtain ⟨hnot, -⟩ | ⟨_, _, _, next, hschema, hnext, _, hgood', hplace⟩ := step_cases hr hgood
    · rw [resolveDeep_stays hnot]
      rfl
    rw [resolveDeep_ref hschema hnext]
    split_ifs
    · rfl
    have hseen : ∀ i, node.place = some i → i < doc.linked.definitions.length := by
      intro i hi
      obtain ⟨-, -, hlt⟩ := entry_good hr (hgood.2 i hi)
      exact hlt
    refine resolveDeep_isSome hr hgood' hplace ?_ ?_ (by omega)
    · cases node.place <;> simp
    · cases hplace : node.place <;> simp [hplace] at hseen ⊢
      exact hseen
  obtain ⟨out, hout⟩ := Option.isSome_iff_exists.1 hsome
  cases out with
  | ok e =>
    obtain ⟨n, hends, hnot⟩ := ends_of_resolveDeep hr hgood hout
    exact .inl ⟨n, e, hends, hnot, hout⟩
  | error d =>
    obtain ⟨b, m, k, hleads, hround, rfl⟩ :=
      cycle_of_resolveDeep hr hgood (.here node) (by simp) hout
    exact .inr ⟨b, m, k, hleads, hround, hout⟩

/-- A discriminator whose one entry is a definition of an object. -/
def tagged : Json :=
  .object [(str "definitions", .object [(str "b", .object [(str "properties", .object [])])]),
    (str "discriminator", .string (str "t")),
    (str "mapping", .object [(str "b", .object [(str "ref", .string (str "b"))])])]

def taggedResult : Result where
  root := .discriminator ⟨false, []⟩ (str "t") [(str "b", .ref ⟨false, []⟩ (str "b") (some 0))]
  definitions := [⟨str "b", .properties ⟨false, []⟩ [] [] false⟩]

/-- The entry of `tagged`, visited after its root. -/
def taggedEntry : Node :=
  ⟨none, str "#/mapping/b", .ref ⟨false, []⟩ (str "b") (some 0)⟩

/-- Definitions that name each other, by way of one of which the root is given. -/
def circle : Json :=
  .object [(str "definitions",
      .object [(str "c", .object [(str "ref", .string (str "d"))]),
        (str "d", .object [(str "ref", .string (str "c"))])]),
    (str "ref", .string (str "c"))]

def circleResult : Result where
  root := .ref ⟨false, []⟩ (str "c") (some 0)
  definitions :=
    [⟨str "c", .ref ⟨false, []⟩ (str "d") (some 1)⟩, ⟨str "d", .ref ⟨false, []⟩ (str "c") (some 0)⟩]

def circleRoot : Node := ⟨none, rootPath, circleResult.root⟩

/-- The reference of the one is followed to the properties, that of the other round once. -/
theorem tagged_entry_followed :
    (∃ n e, Ends taggedResult.step n taggedEntry e ∧ e.schema.isRef = false ∧
        taggedResult.resolveDeep 3 [] taggedEntry = some (.ok e)) ∧
      ∃ b m k, Leads circleResult.step m circleRoot b ∧ Leads circleResult.step (k + 1) b b ∧
        circleResult.resolveDeep 4 [] circleRoot =
          some (.error ⟨.refCycle, b.path, b.schema.refName⟩) := by
  have htagged : taggedEntry ∈ taggedResult.nodes := List.mem_cons_of_mem _ List.mem_cons_self
  have hcircle : circleRoot ∈ circleResult.nodes := List.mem_cons_self
  constructor
  · obtain hends | ⟨b, m, k, -, -, hcycle⟩ := resolveDeep_exact tagged rfl htagged
    · exact hends
    · cases (show taggedResult.resolveDeep 3 [] taggedEntry = some (.ok _) from rfl).symm.trans
        hcycle
  · obtain ⟨n, e, -, -, hfound⟩ | hcycle := resolveDeep_exact circle rfl hcircle
    · cases (show circleResult.resolveDeep 4 [] circleRoot = some (.error _) from rfl).symm.trans
        hfound
    · exact hcycle

/-! ## Mappings -/

theorem linkAll_keys {find : Str → Option ℕ} {l : List (Str × Schema)} {P : Str → Prop}
    (h : ∀ p ∈ l, P p.1) : ∀ p ∈ linkAll find l, P p.1 := by
  induction l with
  | nil => simp [linkAll]
  | cons q rest ih =>
    rw [List.forall_mem_cons] at h
    rw [linkAll, List.forall_mem_cons]
    exact ⟨h.1, ih h.2⟩

theorem Schema.OpenTo.linkTo {tag : Str} {s : Schema} (h : s.OpenTo tag)
    (find : Str → Option ℕ) : (s.linkTo find).OpenTo tag := by
  cases s with
  | properties _ _ _ _ =>
    exact ⟨h.1, linkAll_keys (P := (· ≠ tag)) h.2.1, linkAll_keys (P := (· ≠ tag)) h.2.2⟩
  | _ => cases h

theorem Schema.linkTo_shared (find : Str → Option ℕ) (s : Schema) :
    (s.linkTo find).shared = s.shared := by
  cases s <;> rfl

/-- The way from a schema in the table of names is the way from the node that stands for it. -/
theorem ends_linked {n : ℕ} {s payload : Schema} {tag : Str}
    (h : Ends (nextIn doc.definitions) n s payload) (hopen : payload.OpenTo tag)
    (hnode : node.schema = s.linkTo (targetOf doc.definitions)) :
    ∃ e, Ends doc.linked.step n node e ∧
      e.schema = payload.linkTo (targetOf doc.definitions) := by
  induction h generalizing node with
  | @here a hnone =>
    refine ⟨node, .here ?_, hnode⟩
    rw [Result.step, hnode]
    cases a with
    | ref _ _ _ => cases hopen
    | _ => rfl
  | @step n a b c hsome hrest ih =>
    cases a with
    | ref shared name target =>
      rw [nextIn, definition_eq_targetOf] at hsome
      obtain ⟨i, hi, hbody⟩ := Option.bind_eq_some_iff.1 hsome
      obtain ⟨d, hd, rfl⟩ := Option.map_eq_some_iff.1 hbody
      obtain ⟨e, hends, he⟩ := @ih ⟨some i, pathSeg definitionsPath d.name,
        d.schema.linkTo (targetOf doc.definitions)⟩ hopen rfl
      refine ⟨e, .step ?_ hends, he⟩
      rw [Result.step, hnode, Schema.linkTo, hi]
      change doc.linked.entry i = _
      rw [Result.entry, Result.linked, List.getElem?_map, hd]
      rfl
    | _ => cases hsome

mutual

theorem Schema.All.mono {P Q : Schema → Prop} (hPQ : ∀ s, s.All P → Q s) :
    ∀ s : Schema, s.All P → s.All Q
  | .elements _ schema, h => ⟨hPQ _ h, Schema.All.mono hPQ schema h.2⟩
  | .properties _ required optional _, h =>
    ⟨hPQ _ h, allIn_mono hPQ required h.2.1, allIn_mono hPQ optional h.2.2⟩
  | .values _ schema, h => ⟨hPQ _ h, Schema.All.mono hPQ schema h.2⟩
  | .discriminator _ _ mapping, h => ⟨hPQ _ h, allIn_mono hPQ mapping h.2⟩
  | .empty _, h => hPQ _ h
  | .type _ _, h => hPQ _ h
  | .enumeration _ _, h => hPQ _ h
  | .ref _ _ _, h => hPQ _ h

theorem allIn_mono {P Q : Schema → Prop} (hPQ : ∀ s, s.All P → Q s) :
    ∀ l : List (Str × Schema), AllIn P l → AllIn Q l
  | [], _ => trivial
  | p :: rest, h => ⟨Schema.All.mono hPQ p.2 h.1, allIn_mono hPQ rest h.2⟩

end

theorem Result.All.mono {P Q : Schema → Prop} (hPQ : ∀ s, s.All P → Q s) (h : doc.All P) :
    doc.All Q :=
  ⟨Schema.All.mono hPQ _ h.1, fun d hd => Schema.All.mono hPQ _ (h.2 d hd)⟩

theorem linkAll_mem {find : Str → Option ℕ} {l : List (Str × Schema)} {p : Str × Schema}
    (h : p ∈ linkAll find l) : ∃ q ∈ l, p = (q.1, q.2.linkTo find) := by
  induction l with
  | nil => simp [linkAll] at h
  | cons q rest ih =>
    rw [linkAll, List.mem_cons] at h
    obtain rfl | hrest := h
    · exact ⟨q, List.mem_cons_self, rfl⟩
    · obtain ⟨q', hq', heq⟩ := ih hrest
      exact ⟨q', List.mem_cons_of_mem _ hq', heq⟩

/-- The entries are those of the document, which are good among all its definitions. -/
def EntriesFrom (doc : Result) (s : Schema) : Prop :=
  ∀ shared tag mapping, s = .discriminator shared tag mapping → ∀ m ∈ mapping,
    ∃ child, m.2 = child.linkTo (targetOf doc.definitions) ∧ GoodEntry doc.definitions tag child

theorem Result.Ordered.entries (h : doc.Ordered) : doc.linked.All (EntriesFrom doc) := by
  have hall : doc.All (NodeOk (GoodEntry doc.definitions)) := by
    refine ⟨h.2, fun d hd => ?_⟩
    obtain ⟨before, after, heq⟩ := List.append_of_mem hd
    refine Schema.All.mono (fun s hs => ?_) _ (h.1 before d after heq)
    have hok := hs.self
    cases s with
    | discriminator shared tag mapping =>
      intro m hm
      rw [heq]
      exact (hok m hm).append
    | _ => trivial
  have hentries : doc.All fun s => EntriesFrom doc (s.linkTo (targetOf doc.definitions)) := by
    refine hall.mono fun s hs shared tag mapping heq m hm => ?_
    have hok := hs.self
    cases s with
    | discriminator shared' tag' mapping' =>
      cases heq
      obtain ⟨q, hq, rfl⟩ := linkAll_mem hm
      exact ⟨q.2, rfl, hok q hq⟩
    | _ => cases heq
  refine ⟨(Schema.all_linkTo _ _).2 hentries.1, fun d hd => ?_⟩
  obtain ⟨d', hd', rfl⟩ := List.mem_map.1 hd
  exact (Schema.all_linkTo _ _).2 (hentries.2 d' hd')

/-- Each entry of a mapping of an accepted document, followed to its end, is an object that has
not the discriminator's tag among its properties; neither can be null. -/
theorem mapping_resolves (root : Json) (h : run root = .ok r) (hnode : node ∈ r.nodes)
    {shared : Shared} {tag : Str} {mapping : List (Str × Schema)}
    (hschema : node.schema = .discriminator shared tag mapping) :
    ∀ m ∈ mapping, m.2.shared.nullable = false ∧
      ∃ e, r.resolveDeep (r.definitions.length + 2) []
          ⟨none, pathSeg (pathSeg node.path (str "mapping")) m.1, m.2⟩ = some (.ok e) ∧
        e.schema.OpenTo tag := by
  intro m hm
  obtain ⟨doc, hresolved, hordered, rfl⟩ := run_linked h
  have hr := hresolved.linked
  obtain ⟨child, hchild, hnull, n, payload, hends, hopen⟩ :=
    hordered.entries.of_nodes hnode shared tag mapping hschema m hm
  let entry : Node := ⟨none, pathSeg (pathSeg node.path (str "mapping")) m.1, m.2⟩
  have hgood : doc.linked.Good entry := by
    refine ⟨?_, fun i hi => by cases hi⟩
    have hall : node.schema.All (Targeted doc.linked.definitions) :=
      Result.All.of_nodes (hr.mono fun _ hs => hs) hnode
    rw [hschema] at hall
    exact (allIn_iff.1 hall.2 m hm).self
  obtain ⟨e, hlinked, he⟩ := @ends_linked doc entry n child payload tag hends hopen hchild
  have hn : n ≤ doc.linked.definitions.length := by
    have hle := hends.length_le (doc.definitions.map Definition.schema)
      fun _ _ => nextIn_mem
    simpa [Result.linked] using hle
  refine ⟨?_, e, ?_, he ▸ hopen.linkTo _⟩
  · rw [hchild, Schema.linkTo_shared, hnull]
  · exact resolveDeep_of_ends hr hlinked hgood (by omega) fun k _ b _ _ => by simp [Node.among]

theorem tagged_mapping_resolves :
    ∃ e, taggedResult.resolveDeep 3 [] taggedEntry = some (.ok e) ∧
      e.schema.OpenTo (str "t") := by
  have hmem : (⟨none, rootPath, taggedResult.root⟩ : Node) ∈ taggedResult.nodes :=
    List.mem_cons_self
  exact (mapping_resolves tagged rfl hmem rfl _ List.mem_cons_self).2

end Spn.Jtd
