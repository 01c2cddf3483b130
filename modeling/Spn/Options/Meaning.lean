import Spn.Options.Merge

/-! # What merging options means

The meaning of a package's options is stated from who sets an option, without an order
among the consumers. Merging has no violation just when every setting is declared and
every option has a meaning, and then that is what it returns; so the order of the
requests plays no part.
-/
namespace Spn.Options

open Spn.Resolve

/-- A consumer sets the option to the value. -/
def Asks (requests : List Request) (option : OptionInfo) (value : OptionValue) : Prop :=
  ∃ request ∈ requests, ∃ clause ∈ request.options,
    clause.key = option.name ∧ clause.negated = false ∧ clause.value = value

/-- A consumer forbids the value. -/
def Forbids (requests : List Request) (option : OptionInfo) (value : OptionValue) : Prop :=
  ∃ request ∈ requests, ∃ clause ∈ request.options,
    clause.key = option.name ∧ clause.negated = true ∧ clause.value = value

/-- What the root manifest, or for the root the profile, sets the option to. -/
def OptionInfo.set? (option : OptionInfo) (clauses : List Clause) : Option OptionValue :=
  (clauses.find? fun clause => clause.key = option.name ∧ clause.negated = false).map Clause.value

/-- The clauses that come before those of the consumers. -/
def rootClauses (node : Node) (profile : Profile) (config : List ConfigEntry) : List Clause :=
  (findSet node profile config).clauses.getD []

/-- What one option means, given what it is by default. -/
inductive OptionInfo.Means (option : OptionInfo) (set : List Clause) (requests : List Request)
    (default : OptionValue) : OptionValue → Prop
  | set {value : OptionValue} (hset : option.set? set = some value) :
      Means option set requests default value
  | union {on : Bool} (hset : option.set? set = none) (hadd : option.additive = true)
      (hasked : ∃ value, Asks requests option value)
      (hon : on = true ↔ Asks requests option (.bool true)) :
      Means option set requests default (.bool on)
  | common {value : OptionValue} (hset : option.set? set = none) (hadd : option.additive = false)
      (hasked : Asks requests option value)
      (hcommon : ∀ other, Asks requests option other → other = value) :
      Means option set requests default value
  | default (hset : option.set? set = none) (hasked : ∀ value, ¬Asks requests option value) :
      Means option set requests default default

/-- A resolved option without who set it. -/
structure Resolved where
  name : Str
  value : OptionValue
  isDefault : Bool
  deriving DecidableEq, Repr

def ResolvedOption.resolved (option : ResolvedOption) : Resolved :=
  ⟨option.name, option.value, option.isDefault⟩

/-- What the options of a package mean, each in the environment of the options before it. -/
inductive Meaning (declined : Bool) (set : List Clause) (requests : List Request) :
    List OptionInfo → Env → List Resolved → Prop
  | nil {env : Env} : Meaning declined set requests [] env []
  | cons {option : OptionInfo} {options : List OptionInfo} {env : Env} {value : OptionValue}
      {rest : List Resolved}
      (hmeans : option.Means set requests (option.fallback declined env) value)
      (hvalue : value ≠ .none)
      (hforbids : ∀ other, Forbids requests option other → other ≠ value)
      (hrest : Meaning declined set requests options (env.set option.name value) rest) :
      Meaning declined set requests (option :: options) env
        (⟨option.name, value, value = option.fallback declined env⟩ :: rest)

/-- The package declares the option of the clause, with the value among its values. -/
def Node.Declares (node : Node) (clause : Clause) : Prop :=
  ∃ option, node.options.get? clause.key = some option ∧ option.valueOk clause.value = true

/-- Every clause is of an option that the package declares. -/
def Node.AllDeclared (node : Node) (set : List Clause) (requests : List Request) : Prop :=
  (∀ clause ∈ set, node.Declares clause) ∧
    ∀ request ∈ requests, ∀ clause ∈ request.options, node.Declares clause

/-! ## The meaning is one, and has no order -/

theorem Asks.perm {requests requests' : List Request} (h : requests.Perm requests')
    {option : OptionInfo} {value : OptionValue} :
    Asks requests option value ↔ Asks requests' option value := by
  simp only [Asks, h.mem_iff]

theorem Forbids.perm {requests requests' : List Request} (h : requests.Perm requests')
    {option : OptionInfo} {value : OptionValue} :
    Forbids requests option value ↔ Forbids requests' option value := by
  simp only [Forbids, h.mem_iff]

theorem OptionInfo.Means.unique {option : OptionInfo} {set : List Clause} {requests : List Request}
    {default v w : OptionValue} (hv : option.Means set requests default v)
    (hw : option.Means set requests default w) : v = w := by
  cases hv with
  | set hset =>
    cases hw with
    | set hset' => exact Option.some.inj (hset.symm.trans hset')
    | union hnone | common hnone | default hnone => rw [hset] at hnone; cases hnone
  | union hset hadd hasked hon =>
    cases hw with
    | set hsome => rw [hset] at hsome; cases hsome
    | union _ _ _ hon' => rw [Bool.eq_iff_iff.2 (hon.trans hon'.symm)]
    | common _ hadd' => rw [hadd] at hadd'; cases hadd'
    | default _ hnone => exact absurd hasked.choose_spec (hnone _)
  | common hset hadd hasked hcommon =>
    cases hw with
    | set hsome => rw [hset] at hsome; cases hsome
    | union _ hadd' => rw [hadd] at hadd'; cases hadd'
    | common _ _ hasked' => exact (hcommon _ hasked').symm
    | default _ hnone => exact absurd hasked (hnone _)
  | default hset hnone =>
    cases hw with
    | set hsome => rw [hset] at hsome; cases hsome
    | union _ _ hasked => exact absurd hasked.choose_spec (hnone _)
    | common _ _ hasked => exact absurd hasked (hnone _)
    | default => rfl

theorem OptionInfo.Means.perm {requests requests' : List Request} (h : requests.Perm requests')
    {option : OptionInfo} {set : List Clause} {default value : OptionValue}
    (hmeans : option.Means set requests default value) :
    option.Means set requests' default value := by
  cases hmeans with
  | set hset => exact .set hset
  | union hset hadd hasked hon =>
    exact .union hset hadd (hasked.imp fun _ => (Asks.perm h).1) (hon.trans (Asks.perm h))
  | common hset hadd hasked hcommon =>
    exact .common hset hadd ((Asks.perm h).1 hasked) fun _ hw => hcommon _ ((Asks.perm h).2 hw)
  | default hset hnone => exact .default hset fun v hv => hnone v ((Asks.perm h).2 hv)

theorem Meaning.perm {requests requests' : List Request} (h : requests.Perm requests')
    {declined : Bool} {set : List Clause} {options : List OptionInfo} {env : Env}
    {out : List Resolved} (hmeaning : Meaning declined set requests options env out) :
    Meaning declined set requests' options env out := by
  induction hmeaning with
  | nil => exact .nil
  | cons hmeans hvalue hforbids _ ih =>
    exact .cons (hmeans.perm h) hvalue (fun other ho => hforbids other ((Forbids.perm h).2 ho)) ih

theorem Meaning.unique {declined : Bool} {set : List Clause} {requests : List Request}
    {options : List OptionInfo} {env : Env} {out out' : List Resolved}
    (h : Meaning declined set requests options env out)
    (h' : Meaning declined set requests options env out') : out = out' := by
  induction h generalizing out' with
  | nil => cases h'; rfl
  | cons hmeans _ _ _ ih =>
    cases h' with
    | cons hmeans' _ _ hrest' =>
      cases hmeans.unique hmeans'
      rw [ih hrest']

theorem Node.AllDeclared.perm {requests requests' : List Request} (h : requests.Perm requests')
    {node : Node} {set : List Clause} :
    node.AllDeclared set requests ↔ node.AllDeclared set requests' := by
  simp only [Node.AllDeclared, h.mem_iff]

/-! ## The claims -/

/-- The claim made of a declared clause. -/
def claimOf (setter : Setter) (clause : Clause) : Claim :=
  ⟨clause.key, setter, clause.value, clause.negated⟩

/-- The clauses of a setter that become claims: only a consumer can forbid a value. -/
def claimed (setter : Setter) (clauses : List Clause) : List Claim :=
  (clauses.filter fun clause => ¬(clause.negated ∧ setter.kind ≠ .consumer)).map (claimOf setter)

theorem gatherClaims_of_declared {node : Node} {setter : Setter} {clauses : List Clause}
    (h : ∀ clause ∈ clauses, node.Declares clause) (acc : List Claim × List Violation) :
    gatherClaims node setter clauses acc = (acc.1 ++ claimed setter clauses, acc.2) := by
  induction clauses generalizing acc with
  | nil => simp [gatherClaims, claimed]
  | cons clause rest ih =>
    obtain ⟨option, hoption, hok⟩ := h clause List.mem_cons_self
    have hrest := ih fun c hc => h c (List.mem_cons_of_mem _ hc)
    simp only [gatherClaims, hoption, hok, Bool.not_true, Bool.false_eq_true, if_false]
    split
    next hskip =>
      rw [hrest, claimed, claimed, List.filter_cons_of_neg (by simpa using hskip)]
    next hkeep =>
      rw [hrest, claimed, claimed, List.filter_cons_of_pos (by rwa [decide_eq_true_eq]),
        List.map_cons, List.append_assoc]
      rfl

theorem gatherClaims_violations {node : Node} {setter : Setter} {clauses : List Clause}
    (acc : List Claim × List Violation) : (gatherClaims node setter clauses acc).2 = [] ↔
      acc.2 = [] ∧ ∀ clause ∈ clauses, node.Declares clause := by
  induction clauses generalizing acc with
  | nil => simp [gatherClaims]
  | cons clause rest ih =>
    rw [gatherClaims, List.forall_mem_cons]
    split
    next hnone =>
      have hnot : ¬node.Declares clause := by
        intro ⟨option, hsome, _⟩
        rw [hnone] at hsome
        cases hsome
      simp [ih, hnot]
    next option hsome =>
      split
      next hbad =>
        have hnot : ¬node.Declares clause := by
          intro ⟨other, hother, hok⟩
          rw [hsome] at hother
          cases hother
          simp [hok] at hbad
        simp [ih, hnot]
      next hok =>
        have hdeclares : node.Declares clause := ⟨option, hsome, by simpa using hok⟩
        split <;> simp [ih, hdeclares]

/-- The claims of the consumers. -/
def consumerClaims (requests : List Request) : List Claim :=
  requests.flatMap fun request => claimed (setterConsumer request.consumer) request.options

/-- All claims and violations that are gathered before any option is settled. -/
def gatherAll (node : Node) (setter : Setter) (set : List Clause) (requests : List Request) :
    List Claim × List Violation :=
  requests.foldl
    (fun acc request => gatherClaims node (setterConsumer request.consumer) request.options acc)
    (gatherClaims node setter set ([], []))

theorem gatherAll_violations (node : Node) (setter : Setter) (set : List Clause)
    (requests : List Request) :
    (gatherAll node setter set requests).2 = [] ↔ node.AllDeclared set requests := by
  have hfold : ∀ acc : List Claim × List Violation,
      (requests.foldl (fun acc request =>
        gatherClaims node (setterConsumer request.consumer) request.options acc) acc).2 = [] ↔
      acc.2 = [] ∧ ∀ request ∈ requests, ∀ clause ∈ request.options, node.Declares clause := by
    induction requests with
    | nil => simp
    | cons request rest ih =>
      intro acc
      rw [List.foldl_cons, ih, gatherClaims_violations, List.forall_mem_cons, and_assoc]
  rw [gatherAll, hfold, gatherClaims_violations]
  simp [Node.AllDeclared]

theorem gatherAll_claims {node : Node} {setter : Setter} {set : List Clause}
    {requests : List Request} (h : node.AllDeclared set requests) :
    gatherAll node setter set requests = (claimed setter set ++ consumerClaims requests, []) := by
  have hfold : ∀ acc : List Claim × List Violation,
      requests.foldl (fun acc request =>
        gatherClaims node (setterConsumer request.consumer) request.options acc) acc =
      (acc.1 ++ consumerClaims requests, acc.2) := by
    obtain ⟨-, hrequests⟩ := h
    induction requests with
    | nil => simp [consumerClaims]
    | cons request rest ih =>
      intro acc
      rw [List.forall_mem_cons] at hrequests
      rw [List.foldl_cons, gatherClaims_of_declared hrequests.1, ih hrequests.2]
      simp [consumerClaims]
  rw [gatherAll, gatherClaims_of_declared h.1, hfold]
  rfl

theorem mergeOptions_gatherAll (node : Node) (profile : Profile) (config : List ConfigEntry)
    (requests : List Request) :
    let set := findSet node profile config
    let gathered := gatherAll node set.setter (rootClauses node profile config) requests
    let merged := mergeEach node set.defaultsDeclined gathered.1 node.options.list profile.facts
      gathered.2
    mergeOptions node profile config requests = ⟨merged.1, merged.2⟩ := by
  simp only [mergeOptions, gatherAll, rootClauses]
  cases (findSet node profile config).clauses <;> rfl

/-! ## Settling one option -/

/-- The claim sets the option. -/
def Claim.Sets (claim : Claim) (option : OptionInfo) : Prop :=
  claim.option = option.name ∧ claim.negated = false

theorem Claim.not_sets {claim : Claim} {option : OptionInfo} :
    ¬claim.Sets option ↔ claim.option ≠ option.name ∨ claim.negated = true := by
  simp only [Claim.Sets, not_and_or, Bool.not_eq_false]

theorem settleClaims_cons_skip {node : Node} {option : OptionInfo} {claim : Claim}
    (h : ¬claim.Sets option) (rest : List Claim) (s : Settling) :
    settleClaims node option (claim :: rest) s = settleClaims node option rest s := by
  rw [settleClaims, if_pos (Claim.not_sets.1 h)]

/-- Claims that do not set the option play no part in it. -/
theorem settleClaims_skip (node : Node) {option : OptionInfo} {skipped : List Claim}
    (h : ∀ claim ∈ skipped, ¬claim.Sets option) (rest : List Claim) (s : Settling) :
    settleClaims node option (skipped ++ rest) s = settleClaims node option rest s := by
  induction skipped with
  | nil => rfl
  | cons claim skipped ih =>
    rw [List.forall_mem_cons] at h
    rw [List.cons_append, settleClaims_cons_skip h.1, ih h.2]

/-- A claim that is not a consumer's settles the option. -/
theorem settleClaims_cons_set {node : Node} {option : OptionInfo} {claim : Claim}
    (h : claim.Sets option) (hset : claim.setter.kind ≠ .consumer) (rest : List Claim)
    (s : Settling) : settleClaims node option (claim :: rest) s =
      { s with value := claim.value, setter := claim.setter, settled := true } := by
  rw [settleClaims, if_neg (fun hskip => Claim.not_sets.2 hskip h), if_pos hset]

theorem settleClaims_cons_union {node : Node} {option : OptionInfo} {claim : Claim}
    (h : claim.Sets option) (hset : claim.setter.kind = .consumer) (hadd : option.additive = true)
    (rest : List Claim) (s : Settling) : settleClaims node option (claim :: rest) s =
      settleClaims node option rest { s with
        value := .bool (s.union || claim.value = .bool true), setter := ⟨.union, []⟩
        settled := true, union := s.union || claim.value = .bool true } := by
  rw [settleClaims, if_neg (fun hskip => Claim.not_sets.2 hskip h), if_neg (not_not.2 hset),
    if_pos hadd]

/-- What the claims of consumers make of an additive option. -/
theorem settleClaims_union (node : Node) {option : OptionInfo} (hadd : option.additive = true)
    {claims : List Claim} (hc : ∀ claim ∈ claims, claim.setter.kind = .consumer) (s : Settling)
    (hs : s.settled = true → s.value = .bool s.union) :
    let t := settleClaims node option claims s
    t.violations = s.violations ∧
    (t.settled = true → t.value = .bool t.union) ∧
    (t.settled = true ↔ s.settled = true ∨ ∃ claim ∈ claims, claim.Sets option) ∧
    (t.union = true ↔ s.union = true ∨
      ∃ claim ∈ claims, claim.Sets option ∧ claim.value = .bool true) := by
  induction claims generalizing s with
  | nil => simpa [settleClaims] using hs
  | cons claim rest ih =>
    rw [List.forall_mem_cons] at hc
    by_cases hsets : claim.Sets option
    · rw [settleClaims_cons_union hsets hc.1 hadd]
      obtain ⟨hviol, hvalue, hsettled, hunion⟩ := ih hc.2 { s with
        value := .bool (s.union || claim.value = .bool true), setter := ⟨.union, []⟩
        settled := true, union := s.union || claim.value = .bool true } fun _ => rfl
      refine ⟨hviol, hvalue, ?_, ?_⟩
      · simp only [hsettled, true_or, true_iff]
        exact Or.inr ⟨claim, List.mem_cons_self, hsets⟩
      · simp only [hunion, Bool.or_eq_true, decide_eq_true_eq, List.exists_mem_cons_iff, hsets,
          true_and, or_assoc]
    · rw [settleClaims_cons_skip hsets]
      simpa only [List.exists_mem_cons_iff, hsets, false_and, false_or] using ih hc.2 s hs

/-- A consumer's claim on an option that is not additive, after another. -/
theorem settleClaims_cons_common (node : Node) {option : OptionInfo} {claim : Claim}
    (h : claim.Sets option) (hset : claim.setter.kind = .consumer)
    (hadd : option.additive = false) (rest : List Claim) (s : Settling) :
    ∃ violations, (violations = [] ↔ ∀ last ∈ s.last, last.value = claim.value) ∧
      settleClaims node option (claim :: rest) s = settleClaims node option rest { s with
        value := claim.value, setter := claim.setter, settled := true, last := some claim
        violations := s.violations ++ violations } := by
  rw [settleClaims, if_neg (fun hskip => Claim.not_sets.2 hskip h), if_neg (not_not.2 hset),
    if_neg (by simp [hadd])]
  refine ⟨_, ?_, rfl⟩
  cases s.last with
  | none => simp
  | some last => simp

/-- After one claim of a consumer, the others have to agree with it. -/
theorem settleClaims_common_last (node : Node) {option : OptionInfo}
    (hadd : option.additive = false) {claims : List Claim}
    (hc : ∀ claim ∈ claims, claim.setter.kind = .consumer) (s : Settling) {last : Claim}
    (hlast : s.last = some last) (hvalue : s.value = last.value) (hsettled : s.settled = true) :
    let t := settleClaims node option claims s
    t.settled = true ∧ (t.violations = [] → t.value = last.value) ∧
    (t.violations = [] ↔ s.violations = [] ∧
      ∀ claim ∈ claims, claim.Sets option → claim.value = last.value) := by
  induction claims generalizing s last with
  | nil => simp [settleClaims, hvalue, hsettled]
  | cons claim rest ih =>
    rw [List.forall_mem_cons] at hc
    by_cases hsets : claim.Sets option
    · obtain ⟨violations, hviol, heq⟩ := settleClaims_cons_common node hsets hc.1 hadd rest s
      obtain ⟨hsettled', hvalue', hall⟩ := ih hc.2 { s with
        value := claim.value, setter := claim.setter, settled := true, last := some claim
        violations := s.violations ++ violations } rfl rfl rfl
      rw [← heq] at hsettled' hvalue' hall
      have hagree : violations = [] ↔ last.value = claim.value := by simp [hviol, hlast]
      refine ⟨hsettled', fun h => ?_, ?_⟩
      · obtain ⟨happ, -⟩ := hall.1 h
        rw [hvalue' h, hagree.1 (List.append_eq_nil_iff.1 happ).2]
      · rw [hall, List.append_eq_nil_iff, hagree, List.forall_mem_cons, and_assoc]
        simp only [hsets, true_imp_iff, eq_comm (a := claim.value) (b := last.value)]
        refine and_congr_right fun _ => and_congr_right fun h => ?_
        rw [h]
    · rw [settleClaims_cons_skip hsets]
      obtain ⟨hsettled', hvalue', hall⟩ := ih hc.2 s hlast hvalue hsettled
      refine ⟨hsettled', hvalue', ?_⟩
      rw [hall, List.forall_mem_cons]
      simp only [hsets, false_imp_iff, true_and]

instance (claim : Claim) (option : OptionInfo) : Decidable (claim.Sets option) := by
  unfold Claim.Sets; infer_instance

/-! ## The claims of an option are its settings -/

theorem setter_of_mem_claimed {setter : Setter} {clauses : List Clause} {claim : Claim}
    (h : claim ∈ claimed setter clauses) : claim.setter = setter := by
  obtain ⟨clause, -, rfl⟩ := List.mem_map.1 h
  rfl

theorem claimed_consumer (name : Str) (clauses : List Clause) :
    claimed (setterConsumer name) clauses = clauses.map (claimOf (setterConsumer name)) := by
  rw [claimed, List.filter_eq_self.2]
  simp [setterConsumer]

theorem mem_consumerClaims {requests : List Request} {claim : Claim} :
    claim ∈ consumerClaims requests ↔ ∃ request ∈ requests, ∃ clause ∈ request.options,
      claimOf (setterConsumer request.consumer) clause = claim := by
  simp only [consumerClaims, claimed_consumer, List.mem_flatMap, List.mem_map]

theorem consumer_of_mem_consumerClaims (requests : List Request) :
    ∀ claim ∈ consumerClaims requests, claim.setter.kind = .consumer := by
  intro claim h
  obtain ⟨request, -, clause, -, rfl⟩ := mem_consumerClaims.1 h
  rfl

theorem asks_iff {requests : List Request} {option : OptionInfo} {value : OptionValue} :
    Asks requests option value ↔
      ∃ claim ∈ consumerClaims requests, claim.Sets option ∧ claim.value = value := by
  constructor
  · intro ⟨request, hrequest, clause, hclause, hkey, hnegated, hvalue⟩
    exact ⟨_, mem_consumerClaims.2 ⟨request, hrequest, clause, hclause, rfl⟩, ⟨hkey, hnegated⟩,
      hvalue⟩
  · intro ⟨claim, hclaim, hsets, hvalue⟩
    obtain ⟨request, hrequest, clause, hclause, rfl⟩ := mem_consumerClaims.1 hclaim
    exact ⟨request, hrequest, clause, hclause, hsets.1, hsets.2, hvalue⟩

/-- The first setting of the root comes before every other claim on the option. -/
theorem claimed_of_set {option : OptionInfo} {set : List Clause} {value : OptionValue}
    (h : option.set? set = some value) (setter : Setter) :
    ∃ skipped claim rest, claimed setter set = skipped ++ claim :: rest ∧
      (∀ c ∈ skipped, ¬c.Sets option) ∧ claim.Sets option ∧ claim.value = value := by
  obtain ⟨clause, hfind, rfl⟩ := Option.map_eq_some_iff.1 h
  obtain ⟨hclause, before, after, rfl, hbefore⟩ := List.find?_eq_some_iff_append.1 hfind
  simp only [decide_eq_true_eq] at hclause
  refine ⟨claimed setter before, claimOf setter clause, claimed setter after, ?_, ?_, hclause, rfl⟩
  · rw [claimed, List.filter_append, List.filter_cons_of_pos (by simp [hclause.2]),
      List.map_append, List.map_cons]
    rfl
  · intro c hc hsets
    obtain ⟨other, hother, rfl⟩ := List.mem_map.1 hc
    have hskip := hbefore other (List.mem_of_mem_filter hother)
    simp only [Bool.not_eq_true', decide_eq_false_iff_not] at hskip
    exact hskip hsets

theorem not_sets_of_set {option : OptionInfo} {set : List Clause} (h : option.set? set = none)
    (setter : Setter) : ∀ claim ∈ claimed setter set, ¬claim.Sets option := by
  intro claim hclaim hsets
  obtain ⟨clause, hclause, rfl⟩ := List.mem_map.1 hclaim
  have hnone := List.find?_eq_none.1 (Option.map_eq_none_iff.1 h) clause
    (List.mem_of_mem_filter hclause)
  exact hnone (decide_eq_true hsets)

/-! ## Settling finds the meaning -/

/-- What `spn_pkg_options_merge` has of an option before it looks at the claims. -/
def unsettled (violations : List Violation) : Settling :=
  ⟨.none, ⟨.default, []⟩, false, false, none, violations⟩

/-- The value of an option when the claims have been looked at. -/
def Settling.result (s : Settling) (default : OptionValue) : OptionValue :=
  if s.settled then s.value else default

variable {node : Node} {option : OptionInfo} {set : List Clause} {requests : List Request}
  {default : OptionValue} {violations : List Violation}

/-- Settling an option finds its meaning, or reports that it has none. -/
def Finds (option : OptionInfo) (set : List Clause) (requests : List Request)
    (default : OptionValue) (violations : List Violation) (t : Settling) : Prop :=
  (t.violations = [] ↔ violations = [] ∧ ∃ value, option.Means set requests default value) ∧
    (t.violations = [] → option.Means set requests default (t.result default))

theorem finds_set {value : OptionValue} (hset : option.set? set = some value) {setter : Setter}
    (hsetter : setter.kind ≠ .consumer) : Finds option set requests default violations
      (settleClaims node option (claimed setter set ++ consumerClaims requests)
        (unsettled violations)) := by
  obtain ⟨skipped, claim, rest, heq, hskipped, hsets, rfl⟩ := claimed_of_set hset setter
  have hkind : claim.setter.kind ≠ .consumer := by
    have hmem : claim ∈ claimed setter set := by simp [heq]
    rwa [setter_of_mem_claimed hmem]
  rw [heq, List.append_assoc, settleClaims_skip node hskipped, List.cons_append,
    settleClaims_cons_set hsets hkind]
  have hmeans : option.Means set requests default claim.value := .set hset
  exact ⟨⟨fun h => ⟨h, _, hmeans⟩, And.left⟩, fun _ => hmeans⟩

theorem finds_union (hset : option.set? set = none) (hadd : option.additive = true) :
    Finds option set requests default violations
      (settleClaims node option (consumerClaims requests) (unsettled violations)) := by
  obtain ⟨hviol, hvalue, hsettled, hunion⟩ := settleClaims_union node hadd
    (consumer_of_mem_consumerClaims requests) (unsettled violations) (fun h => by cases h)
  generalize settleClaims node option (consumerClaims requests) (unsettled violations) = t at *
  have hmeans : option.Means set requests default (t.result default) := by
    by_cases hasked : ∃ value, Asks requests option value
    · have hsome : t.settled = true := by
        obtain ⟨value, hask⟩ := hasked
        obtain ⟨claim, hclaim, hsets, -⟩ := asks_iff.1 hask
        exact hsettled.2 (Or.inr ⟨claim, hclaim, hsets⟩)
      rw [Settling.result, if_pos hsome, hvalue hsome]
      refine .union hset hadd hasked ?_
      rw [hunion, asks_iff]
      simp [unsettled]
    · have hnone : ¬t.settled = true := by
        intro hsome
        obtain hstart | ⟨claim, hclaim, hsets⟩ := hsettled.1 hsome
        · cases hstart
        · exact hasked ⟨_, asks_iff.2 ⟨claim, hclaim, hsets, rfl⟩⟩
      rw [Settling.result, if_neg hnone]
      exact .default hset fun value hask => hasked ⟨value, hask⟩
  refine ⟨⟨fun h => ⟨?_, _, hmeans⟩, fun h => ?_⟩, fun _ => hmeans⟩
  · rw [← h, hviol]; rfl
  · rw [hviol]; exact h.1

/-- Consumers that all agree give the option their value. -/
theorem finds_common (hset : option.set? set = none) (hadd : option.additive = false) :
    Finds option set requests default violations
      (settleClaims node option (consumerClaims requests) (unsettled violations)) := by
  have hconsumer := consumer_of_mem_consumerClaims requests
  cases hfind : (consumerClaims requests).find? fun claim => claim.Sets option with
  | none =>
    have hskip : ∀ claim ∈ consumerClaims requests, ¬claim.Sets option := by
      simpa using hfind
    have hnone : ∀ value, ¬Asks requests option value := by
      intro value hask
      obtain ⟨claim, hclaim, hsets, -⟩ := asks_iff.1 hask
      exact hskip claim hclaim hsets
    have heq := settleClaims_skip node hskip [] (unsettled violations)
    rw [List.append_nil] at heq
    rw [heq]
    have hmeans : option.Means set requests default default := .default hset hnone
    exact ⟨⟨fun h => ⟨h, _, hmeans⟩, And.left⟩, fun _ => hmeans⟩
  | some first =>
    obtain ⟨hsets, skipped, rest, heq, hskipped⟩ := List.find?_eq_some_iff_append.1 hfind
    simp only [decide_eq_true_eq, Bool.not_eq_true', decide_eq_false_iff_not] at hsets hskipped
    rw [heq, List.forall_mem_append, List.forall_mem_cons] at hconsumer
    have hask : Asks requests option first.value :=
      asks_iff.2 ⟨first, by simp [heq], hsets, rfl⟩
    have hagree : (∀ other, Asks requests option other → other = first.value) ↔
        ∀ claim ∈ rest, claim.Sets option → claim.value = first.value := by
      constructor
      · intro h claim hclaim hclaims
        exact h _ (asks_iff.2 ⟨claim, by simp [heq, hclaim], hclaims, rfl⟩)
      · intro h other hother
        obtain ⟨claim, hclaim, hclaims, rfl⟩ := asks_iff.1 hother
        rw [heq, List.mem_append, List.mem_cons] at hclaim
        obtain hbefore | rfl | hafter := hclaim
        · exact absurd hclaims (hskipped claim hbefore)
        · rfl
        · exact h claim hafter hclaims
    obtain ⟨found, hfound, hcons⟩ := settleClaims_cons_common node hsets hconsumer.2.1
      hadd rest (unsettled violations)
    obtain rfl : found = [] := hfound.2 (by simp [unsettled])
    obtain ⟨hsettled, hvalue, hall⟩ := settleClaims_common_last node hadd hconsumer.2.2
      { unsettled violations with
        value := first.value, setter := first.setter, settled := true, last := some first
        violations := violations ++ [] } rfl rfl rfl
    rw [heq, settleClaims_skip node hskipped, hcons]
    simp only [unsettled, List.append_nil] at hsettled hvalue hall ⊢
    generalize settleClaims node option rest _ = t at hsettled hvalue hall ⊢
    rw [← hagree] at hall
    have hmeans : (∃ value, option.Means set requests default value) ↔
        ∀ other, Asks requests option other → other = first.value := by
      constructor
      · intro ⟨value, hv⟩
        cases hv with
        | set hsome => rw [hset] at hsome; cases hsome
        | union _ hadd' => rw [hadd] at hadd'; cases hadd'
        | common _ _ _ hcommon =>
          intro other hother
          rw [hcommon other hother, hcommon _ hask]
        | default _ hnone => exact absurd hask (hnone _)
      · intro h
        exact ⟨first.value, .common hset hadd hask h⟩
    refine ⟨by rw [hmeans, hall], fun h => ?_⟩
    rw [Settling.result, if_pos hsettled, hvalue h]
    exact .common hset hadd hask (hall.1 h).2

variable (node option set requests default violations) in
theorem settleClaims_finds {setter : Setter} (hsetter : setter.kind ≠ .consumer) :
    Finds option set requests default violations
      (settleClaims node option (claimed setter set ++ consumerClaims requests)
        (unsettled violations)) := by
  cases hset : option.set? set with
  | some value => exact finds_set hset hsetter
  | none =>
    rw [settleClaims_skip node (not_sets_of_set hset setter)]
    cases hadd : option.additive with
    | true => exact finds_union hset hadd
    | false => exact finds_common hset hadd

/-! ## Merging finds the meaning -/

theorem forbids_iff {value : OptionValue} : Forbids requests option value ↔
    ∃ claim ∈ consumerClaims requests,
      claim.option = option.name ∧ claim.negated = true ∧ claim.value = value := by
  constructor
  · intro ⟨request, hrequest, clause, hclause, hforbids⟩
    exact ⟨_, mem_consumerClaims.2 ⟨request, hrequest, clause, hclause, rfl⟩, hforbids⟩
  · intro ⟨claim, hclaim, hforbids⟩
    obtain ⟨request, hrequest, clause, hclause, rfl⟩ := mem_consumerClaims.1 hclaim
    exact ⟨request, hrequest, clause, hclause, hforbids⟩

/-- Only a consumer's claim is negated. -/
theorem not_negated_of_mem_claimed {setter : Setter} (hsetter : setter.kind ≠ .consumer)
    {claim : Claim} (h : claim ∈ claimed setter set) : claim.negated = false := by
  obtain ⟨clause, hclause, rfl⟩ := List.mem_map.1 h
  have hkept := (List.mem_filter.1 hclause).2
  simpa [hsetter, claimOf] using hkept

variable (node option set requests) in
theorem vetoes_eq_nil {setter : Setter} (hsetter : setter.kind ≠ .consumer) (by_ : Setter)
    (value : OptionValue) :
    vetoes node option (claimed setter set ++ consumerClaims requests) value by_ = [] ↔
      ∀ other, Forbids requests option other → other ≠ value := by
  rw [vetoes, List.map_eq_nil_iff, List.filter_eq_nil_iff]
  simp only [decide_eq_true_eq]
  constructor
  · intro h other hother heq
    obtain ⟨claim, hclaim, hname, hnegated, rfl⟩ := forbids_iff.1 hother
    exact h claim (List.mem_append_right _ hclaim) ⟨hname, hnegated, heq.symm⟩
  · intro h claim hclaim hveto
    obtain ⟨hname, hnegated, hvalue⟩ := hveto
    obtain hset | hconsumer := List.mem_append.1 hclaim
    · rw [not_negated_of_mem_claimed hsetter hset] at hnegated
      cases hnegated
    · exact h _ (forbids_iff.2 ⟨claim, hconsumer, hname, hnegated, rfl⟩) hvalue.symm

/-- The violation of an option without a value. -/
def missing (node : Node) (option : OptionInfo) (value : OptionValue) : List Violation :=
  if value = .none then [{ kind := .noValue, pkg := node.name, option := option.name }] else []

theorem missing_eq_nil {value : OptionValue} : missing node option value = [] ↔ value ≠ .none := by
  unfold missing
  split <;> simp_all

theorem mergeEach_option {declined : Bool} {claims : List Claim} {options : List OptionInfo}
    {env : Env} {t : Settling} {value : OptionValue}
    (ht : settleClaims node option claims (unsettled violations) = t)
    (hvalue : t.result (option.fallback declined env) = value) :
    let rest := mergeEach node declined claims options
      (if value = .none then env else env.set option.name value)
      (t.violations ++ missing node option value ++ vetoes node option claims value t.setter)
    mergeEach node declined claims (option :: options) env violations =
      (⟨option.name, value, t.setter, value = option.fallback declined env⟩ :: rest.1, rest.2) := by
  subst ht hvalue
  rfl

variable (node set requests) in
/-- Merging has no violation just when the options have a meaning, and then it finds it. -/
theorem mergeEach_meaning {setter : Setter} (hsetter : setter.kind ≠ .consumer) (declined : Bool)
    (options : List OptionInfo) (env : Env) (violations : List Violation) :
    let claims := claimed setter set ++ consumerClaims requests
    let merged := mergeEach node declined claims options env violations
    (merged.2 = [] ↔ violations = [] ∧ ∃ out, Meaning declined set requests options env out) ∧
    (merged.2 = [] →
      Meaning declined set requests options env (merged.1.map ResolvedOption.resolved)) := by
  induction options generalizing env violations with
  | nil => exact ⟨⟨fun h => ⟨h, [], .nil⟩, And.left⟩, fun _ => .nil⟩
  | cons option options ih =>
    obtain ⟨t, ht⟩ : ∃ t, settleClaims node option (claimed setter set ++ consumerClaims requests)
      (unsettled violations) = t := ⟨_, rfl⟩
    obtain ⟨value, hvalue⟩ : ∃ value, t.result (option.fallback declined env) = value := ⟨_, rfl⟩
    have hfinds := settleClaims_finds node option set requests (option.fallback declined env)
      violations hsetter
    rw [ht, Finds, hvalue] at hfinds
    obtain ⟨hsettles, hmeans⟩ := hfinds
    simp only [mergeEach_option ht hvalue]
    have hveto := vetoes_eq_nil node option set requests hsetter t.setter value
    obtain ⟨hrest, hfound⟩ := ih (if value = .none then env else env.set option.name value)
      (t.violations ++ missing node option value ++
        vetoes node option (claimed setter set ++ consumerClaims requests) value t.setter)
    rw [List.append_eq_nil_iff, List.append_eq_nil_iff, missing_eq_nil, hveto] at hrest
    generalize mergeEach node declined _ options _ _ = merged at hrest hfound ⊢
    have hmeaning : merged.2 = [] → Meaning declined set requests (option :: options) env
        (⟨option.name, value, value = option.fallback declined env⟩ ::
          merged.1.map ResolvedOption.resolved) := by
      intro h
      obtain ⟨⟨⟨hviol, hne⟩, hforbids⟩, -⟩ := hrest.1 h
      rw [if_neg hne] at hfound
      exact .cons (hmeans hviol) hne hforbids (hfound h)
    refine ⟨⟨fun h => ⟨(hsettles.1 (hrest.1 h).1.1.1).1, _, hmeaning h⟩, ?_⟩, hmeaning⟩
    intro ⟨hviol, out, hout⟩
    cases hout with
    | cons hm hne hforbids hnext =>
      have hsettled : t.violations = [] := hsettles.2 ⟨hviol, _, hm⟩
      obtain rfl := hm.unique (hmeans hsettled)
      exact hrest.2 ⟨⟨⟨hsettled, hne⟩, hforbids⟩, _, by rwa [if_neg hne]⟩

/-- No violation is forgotten. -/
theorem violations_of_settleClaims {claims : List Claim} {s : Settling}
    (h : (settleClaims node option claims s).violations = []) : s.violations = [] := by
  induction claims generalizing s with
  | nil => exact h
  | cons claim rest ih =>
    rw [settleClaims] at h
    split_ifs at h
    · exact ih h
    · exact h
    · have hunion := ih h
      exact hunion
    · have hcommon := ih h
      exact (List.append_eq_nil_iff.1 hcommon).1

theorem violations_of_mergeEach {declined : Bool} {claims : List Claim}
    {options : List OptionInfo} {env : Env} {violations : List Violation}
    (h : (mergeEach node declined claims options env violations).2 = []) : violations = [] := by
  induction options generalizing env violations with
  | nil => exact h
  | cons option options ih =>
    rw [mergeEach_option rfl rfl] at h
    have hstart := ih h
    rw [List.append_eq_nil_iff, List.append_eq_nil_iff] at hstart
    exact violations_of_settleClaims hstart.1.1

theorem findSet_not_consumer (node : Node) (profile : Profile) (config : List ConfigEntry) :
    (findSet node profile config).setter.kind ≠ .consumer := by
  unfold findSet
  split <;> simp

/-- What the options of a package mean under the profile and the root's config. -/
def Node.Means (node : Node) (profile : Profile) (config : List ConfigEntry)
    (requests : List Request) : List Resolved → Prop :=
  Meaning (declined config node.name) (rootClauses node profile config) requests node.options.list
    profile.facts

theorem mergeOptions_meaning (node : Node) (profile : Profile) (config : List ConfigEntry)
    (requests : List Request) :
    let merged := mergeOptions node profile config requests
    (merged.violations = [] ↔ node.AllDeclared (rootClauses node profile config) requests ∧
      ∃ out, node.Means profile config requests out) ∧
    (merged.violations = [] →
      node.Means profile config requests (merged.options.map ResolvedOption.resolved)) := by
  have hsetter := findSet_not_consumer node profile config
  have hdeclined : (findSet node profile config).defaultsDeclined = declined config node.name := by
    unfold findSet
    split <;> rfl
  have hgathered := gatherAll_violations node (findSet node profile config).setter
    (rootClauses node profile config) requests
  rw [mergeOptions_gatherAll, hdeclined]
  by_cases hall : node.AllDeclared (rootClauses node profile config) requests
  · obtain ⟨hviol, hmeans⟩ := mergeEach_meaning node
      (rootClauses node profile config) requests hsetter
      (declined config node.name) node.options.list profile.facts []
    rw [gatherAll_claims hall]
    refine ⟨?_, hmeans⟩
    rw [hviol, eq_self_iff_true, true_and, and_iff_right hall]
    rfl
  · have hnonempty : ∀ merged : List ResolvedOption × List Violation,
        mergeEach node (declined config node.name) (gatherAll node
          (findSet node profile config).setter (rootClauses node profile config) requests).1
          node.options.list profile.facts (gatherAll node
          (findSet node profile config).setter (rootClauses node profile config) requests).2 =
          merged → merged.2 ≠ [] := by
      intro merged hmerged hnil
      rw [← hmerged] at hnil
      exact hall (hgathered.1 (violations_of_mergeEach hnil))
    exact ⟨⟨fun h => absurd h (hnonempty _ rfl), fun h => absurd h.1 hall⟩,
      fun h => absurd h (hnonempty _ rfl)⟩

/-- Whatever the order of the requests, the options are merged without a violation or not;
and then every option has the value it means, and is a default just when that is its default. -/
theorem merging_means_one_thing (node : Node) (profile : Profile) (config : List ConfigEntry)
    {requests requests' : List Request} (h : requests.Perm requests') :
    let merged := mergeOptions node profile config requests
    let merged' := mergeOptions node profile config requests'
    (merged.violations = [] ↔ merged'.violations = []) ∧
    (merged.violations = [] →
      merged.options.map ResolvedOption.resolved = merged'.options.map ResolvedOption.resolved ∧
      node.Means profile config requests (merged.options.map ResolvedOption.resolved)) := by
  obtain ⟨hviol, hmeans⟩ := mergeOptions_meaning node profile config requests
  obtain ⟨hviol', hmeans'⟩ := mergeOptions_meaning node profile config requests'
  have hiff : (mergeOptions node profile config requests).violations = [] ↔
      (mergeOptions node profile config requests').violations = [] := by
    rw [hviol, hviol', Node.AllDeclared.perm h]
    refine and_congr_right fun _ => ⟨fun ⟨out, ho⟩ => ⟨out, ho.perm h⟩, fun ⟨out, ho⟩ => ?_⟩
    exact ⟨out, ho.perm h.symm⟩
  refine ⟨hiff, fun hnil => ⟨?_, hmeans hnil⟩⟩
  exact ((hmeans hnil).perm h).unique (hmeans' (hiff.1 hnil))

/-- A package with an additive option and one of two values. -/
def twoOptions : Node where
  id := ⟨str "core/a", ⟨1, 0, 0⟩, 0⟩
  name := str "core/a"
  options :=
    ⟨[⟨str "log", .bool, true, [], []⟩,
      ⟨str "tls", .enum, false, [str "on", str "off"],
        [⟨[⟨str "log", .bool true, false⟩], .str (str "on")⟩]⟩], by decide +kernel⟩
  source := .index
  edges := []
  patches := none

/-- Two consumers disagree on an additive option, whose value the default of the other reads. -/
theorem merging_means_one_thing_union :
    let x : Request := ⟨str "x", [⟨str "log", .bool true, false⟩]⟩
    let y : Request :=
      ⟨str "y", [⟨str "log", .bool false, false⟩, ⟨str "tls", .str (str "off"), true⟩]⟩
    let out : List Resolved :=
      [⟨str "log", .bool true, false⟩, ⟨str "tls", .str (str "on"), true⟩]
    let merged := mergeOptions twoOptions ⟨fun _ => none, []⟩ []
    (merged [x, y]).options.map ResolvedOption.resolved = out ∧
    (merged [y, x]).options.map ResolvedOption.resolved = out ∧
    twoOptions.Means ⟨fun _ => none, []⟩ [] [x, y] out := by
  intro x y out merged
  have hout : (merged [x, y]).options.map ResolvedOption.resolved = out := by decide +kernel
  obtain ⟨hsame, hmeans⟩ := (merging_means_one_thing twoOptions ⟨fun _ => none, []⟩ []
    (List.Perm.swap y x [])).2 (by decide +kernel)
  rw [hout] at hsame hmeans
  exact ⟨hout, hsame.symm, hmeans⟩

end Spn.Options
