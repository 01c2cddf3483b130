import Spn.Resolve.Search

/-! # What an answer of the search means

The invariant of the search and what every function of it keeps. A failed
function leaves the names and the boundaries it found; one that succeeds has
added nodes whose every dependency is answered, and has answered what it was
asked. A node is finished when this holds of it and of the nodes below it.
-/
namespace Spn.Resolve

open Spn.Lib

/-- The registry has everything the other one has. -/
def Registry.Extends (old new : Registry) : Prop :=
  ∀ (name : Str) (pkg : RegistryPkg), old.pkgs[name]? = some pkg → new.pkgs[name]? = some pkg

theorem Registry.Extends.refl (registry : Registry) : registry.Extends registry :=
  fun _ _ h => h

theorem Registry.Extends.trans {a b c : Registry} (hab : a.Extends b) (hbc : b.Extends c) :
    a.Extends c :=
  fun name pkg h => hbc name pkg (hab name pkg h)

/-- A package the registry does not have may be inserted. -/
theorem Registry.Extends.insert {registry : Registry} {pkg : RegistryPkg}
    (h : registry.pkgs[pkg.info.qualified]? = none) : registry.Extends (registry.insert pkg) := by
  intro name p hp
  refine (Table.getElem?_insert_eq_some _).2 (.inr ⟨?_, hp⟩)
  rintro rfl
  rw [h] at hp
  cases hp

/-- The node without its place in the order of the picks. -/
def ResolvedPkg.bare (node : ResolvedPkg) : ResolvedPkg := { node with priority := 0 }

/-- Nodes that differ in their place only: everything else is the same. -/
theorem ResolvedPkg.eq_of_bare {a b : ResolvedPkg} (h : a.bare = b.bare) :
    a.id = b.id ∧ a.source = b.source ∧ a.origin = b.origin ∧ a.deps = b.deps ∧ a.edges = b.edges := by
  simp only [ResolvedPkg.bare, ResolvedPkg.mk.injEq] at h
  exact ⟨h.1, h.2.2.1, h.2.2.2.2.2.2, h.2.2.2.2.1, h.2.2.2.2.2.1⟩

/-- The node is one of a release of the index, or of a package of the registry. -/
def Made (R : Resolver) (registry : Registry) (node : ResolvedPkg) : Prop :=
  (∃ (pkg : IndexPkg) (release : Release),
    R.index.packages[node.id.qualified]? = some (.ok pkg) ∧ release ∈ pkg.releases ∧
      node.bare = R.releaseNode release) ∨
  ∃ pkg : RegistryPkg,
    registry.pkgs[node.id.qualified]? = some pkg ∧ node.bare = R.localNode pkg

theorem Made.mono {R : Resolver} {old new : Registry} {node : ResolvedPkg}
    (h : Made R old node) (he : old.Extends new) : Made R new node := by
  rcases h with h | ⟨pkg, hpkg, hnode⟩
  · exact .inl h
  · exact .inr ⟨pkg, he _ _ hpkg, hnode⟩

/-- A class is settled once the registry has the package of a local node. -/
theorem Made.classifyDep_eq {R : Resolver} {old new : Registry} {node : ResolvedPkg}
    (h : Made R old node) (he : old.Extends new) (dep : Req) :
    R.classifyDep new node dep = R.classifyDep old node dep := by
  have shared : R.nodeIsShared new node = R.nodeIsShared old node := by
    rcases h with ⟨pkg, release, -, -, hnode⟩ | ⟨pkg, hpkg, -⟩
    · have hsource : node.source = .index := congrArg ResolvedPkg.source hnode
      simp only [Resolver.nodeIsShared, hsource]
    · simp only [Resolver.nodeIsShared, hpkg, he _ _ hpkg]
  simp only [Resolver.classifyDep, shared]

/-- The package answers the request: its version is in the range, or a local
request was noted to have met it. -/
def Meets (met : List Meeting) (pkg : ResolvedPkg) (dep : Req) : Prop :=
  match dep.source with
  | .index range => pkg.id.version.inRange range = true
  | .root | .file _ =>
    ∃ m ∈ met, m.request.qualified = dep.qualified ∧ m.request.source = dep.source ∧
      m.pkg.source = pkg.source ∧ m.pkg.origin = pkg.origin

theorem Meets.mono {met met' : List Meeting} {pkg : ResolvedPkg} {dep : Req}
    (h : Meets met pkg dep) (hm : met <+: met') : Meets met' pkg dep := by
  unfold Meets at h ⊢
  split at h
  · exact h
  all_goals
    obtain ⟨m, hmem, hm'⟩ := h
    exact ⟨m, hm.subset hmem, hm'⟩

/-- What a scope was asked, and the boundaries it had posted before. -/
structure Ledger where
  asked : List Req
  past : List Boundary

/-- A dependency of class `edge` is taken care of. -/
def Answered (c : Ledger) (s : Search) (node : ResolvedPkg) (dep : Req) : DepEdge → Prop
  | .pruned => True
  | .process => ⟨node.id, .process, dep⟩ ∈ c.past ∨ ⟨node.id, .process, dep⟩ ∈ s.boundaries
  | .isPrivate => ⟨node.id, .isPrivate, dep⟩ ∈ c.past ∨ ⟨node.id, .isPrivate, dep⟩ ∈ s.boundaries
  | .scope => ∃ pkg, s.named[dep.qualified]? = some pkg ∧ Meets s.met pkg dep

/-- The name is held, its dependencies are answered, and so on down. -/
inductive Finished (R : Resolver) (c : Ledger) (s : Search) : Str → Prop
  | intro {name : Str} {node : ResolvedPkg} (held : s.named[name]? = some node)
      (answered : ∀ dep ∈ node.deps, Answered c s node dep (R.classifyDep s.registry node dep))
      (below : ∀ dep ∈ node.deps, R.classifyDep s.registry node dep = .scope →
        Finished R c s dep.qualified) : Finished R c s name

/-- The state holds everything the other one holds. -/
structure Search.Extends (s s' : Search) : Prop where
  named : ∀ (name : Str) (node : ResolvedPkg), s.named[name]? = some node →
    s'.named[name]? = some node
  boundaries : s.boundaries <+: s'.boundaries
  registry : s.registry.Extends s'.registry
  met : s.met <+: s'.met
  picks : s.picks ≤ s'.picks

namespace Search.Extends

theorem refl (s : Search) : s.Extends s :=
  ⟨fun _ _ h => h, List.prefix_refl _, .refl _, List.prefix_refl _, le_refl _⟩

theorem trans {a b c : Search} (hab : a.Extends b) (hbc : b.Extends c) : a.Extends c :=
  ⟨fun name node h => hbc.named name node (hab.named name node h),
    hab.boundaries.trans hbc.boundaries, hab.registry.trans hbc.registry, hab.met.trans hbc.met,
    hab.picks.trans hbc.picks⟩

theorem answered {s s' : Search} (h : s.Extends s') {node : ResolvedPkg} {dep : Req}
    {edge : DepEdge} (ha : Answered c s node dep edge) : Answered c s' node dep edge := by
  cases edge with
  | pruned => trivial
  | process => exact ha.imp_right fun hb => h.boundaries.subset hb
  | isPrivate => exact ha.imp_right fun hb => h.boundaries.subset hb
  | scope =>
    obtain ⟨pkg, hpkg, hmeets⟩ := ha
    exact ⟨pkg, h.named _ _ hpkg, hmeets.mono h.met⟩

end Search.Extends

/-- A request `classify_dep` leaves in the scope whoever makes it. -/
def Req.plain (req : Req) : Bool := req.kind = .package && !req.isPrivate

theorem Req.plain_classifyDep {req : Req} (h : req.plain = true) (R : Resolver)
    (registry : Registry) (node : ResolvedPkg) : R.classifyDep registry node req = .scope := by
  simp only [Req.plain, Bool.and_eq_true, decide_eq_true_eq, Bool.not_eq_true'] at h
  simp [Resolver.classifyDep, h.1, h.2]

/-- A boundary was posted for a dependency of a node that is held, or for one
of the requests of the scope itself. -/
def Posted (R : Resolver) (c : Ledger) (s : Search) (b : Boundary) : Prop :=
  (b.owner = rootId ∧ b.req ∈ c.asked ∧ b.req.plain = false) ∨
  ∃ node, s.named[b.owner.qualified]? = some node ∧ node.id = b.owner ∧ b.req ∈ node.deps ∧
    R.classifyDep s.registry node b.req = b.edge ∧ (b.edge = .process ∨ b.edge = .isPrivate)

/-- The invariant of the search. -/
structure Search.Inv (R : Resolver) (c : Ledger) (s : Search) : Prop where
  name : ∀ (name : Str) (node : ResolvedPkg), s.named[name]? = some node → node.id.qualified = name
  made : ∀ (name : Str) (node : ResolvedPkg), s.named[name]? = some node → Made R s.registry node
  finished : ∀ (name : Str) (node : ResolvedPkg), s.named[name]? = some node → name ∉ s.visited →
    Finished R c s name
  priority : ∀ (name : Str) (node : ResolvedPkg), s.named[name]? = some node →
    node.priority < s.picks
  distinct : ∀ (a b : Str) (node other : ResolvedPkg), s.named[a]? = some node →
    s.named[b]? = some other → node.priority = other.priority → a = b
  posted : ∀ b ∈ s.boundaries, Posted R c s b

namespace Search.Inv

variable {R : Resolver} {c : Ledger} {s s' : Search}

theorem classifyDep_eq (h : s.Inv R c) (he : s.Extends s') {name : Str} {node : ResolvedPkg}
    (held : s.named[name]? = some node) (dep : Req) :
    R.classifyDep s'.registry node dep = R.classifyDep s.registry node dep :=
  (h.made name node held).classifyDep_eq he.registry dep

/-- What is finished stays finished. -/
theorem finished_mono (h : s.Inv R c) (he : s.Extends s') {name : Str} (hf : Finished R c s name) :
    Finished R c s' name := by
  induction hf with
  | intro held answered _ ih =>
    refine .intro (he.named _ _ held) ?_ ?_
    · intro dep hdep
      rw [h.classifyDep_eq he held]
      exact he.answered (answered dep hdep)
    · intro dep hdep hscope
      rw [h.classifyDep_eq he held] at hscope
      exact ih dep hdep hscope

theorem posted_mono (h : s.Inv R c) (he : s.Extends s') {b : Boundary} (hb : Posted R c s b) :
    Posted R c s' b := by
  rcases hb with hroot | ⟨node, held, hid, hdep, hedge, hcross⟩
  · exact .inl hroot
  · exact .inr ⟨node, he.named _ _ held, hid, hdep, (h.classifyDep_eq he held _).trans hedge,
      hcross⟩

/-- The invariant stands when names and boundaries stay and the rest grows. -/
theorem later (h : s.Inv R c) (he : s.Extends s') (hn : s'.named = s.named)
    (hb : s'.boundaries = s.boundaries) (hv : s'.visited = s.visited) : s'.Inv R c where
  name k n held := h.name k n (hn ▸ held)
  made k n held := (h.made k n (hn ▸ held)).mono he.registry
  finished k n held hk := h.finished_mono he (h.finished k n (hn ▸ held) (hv ▸ hk))
  priority k n held := (h.priority k n (hn ▸ held)).trans_le he.picks
  distinct a b n m ha hb' := h.distinct a b n m (hn ▸ ha) (hn ▸ hb')
  posted b hmem := h.posted_mono he (h.posted b (hb ▸ hmem))

end Search.Inv

/-- What is true of an answer: nothing is lost, a failure has undone its work,
and the invariant stands after a success. -/
structure Answer.Sound (R : Resolver) (c : Ledger) (s : Search) (a : Answer) : Prop where
  grows : a.1 ≠ .stuck → s.Extends a.2
  visited : a.1 ≠ .stuck → a.2.visited = s.visited
  undone : ∀ e, a.1 = .err e → a.2.named = s.named ∧ a.2.boundaries = s.boundaries
  inv : a.1 = .ok → a.2.Inv R c

namespace Answer.Sound

variable {R : Resolver} {c : Ledger} {s : Search} {a : Answer}

/-- After a failure the invariant stands as it stood. -/
theorem inv_of_err (h : Sound R c s a) (hs : s.Inv R c) {e : Err} (he : a.1 = .err e) :
    a.2.Inv R c := by
  have hne : a.1 ≠ .stuck := by rw [he]; exact Verdict.noConfusion
  exact hs.later (h.grows hne) (h.undone e he).1 (h.undone e he).2 (h.visited hne)

/-- An error that changed nothing but what may grow. -/
theorem of_err {s' : Search} {e : Err} (hn : s'.named = s.named)
    (hb : s'.boundaries = s.boundaries) (hr : s.registry.Extends s'.registry)
    (hm : s.met <+: s'.met) (hp : s.picks ≤ s'.picks) (hv : s'.visited = s.visited) :
    Sound R c s (.err e, s') where
  grows _ := ⟨fun k n h => hn ▸ h, by rw [hb], hr, hm, hp⟩
  visited _ := hv
  undone _ _ := ⟨hn, hb⟩
  inv h := by cases h

theorem of_ok {s' : Search} (he : s.Extends s') (hv : s'.visited = s.visited)
    (hs : s'.Inv R c) : Sound R c s (.ok, s') where
  grows _ := he
  visited _ := hv
  undone _ h := by cases h
  inv _ := hs

theorem of_stuck (h : a.1 = .stuck) : Sound R c s a where
  grows hne := absurd h hne
  visited hne := absurd h hne
  undone _ he := by rw [h] at he; cases he
  inv hok := by rw [h] at hok; cases hok

theorem refl_err (e : Err) : Sound R c s (.err e, s) :=
  of_err rfl rfl (.refl _) (List.prefix_refl _) (le_refl _) rfl

/-- An answer from a state that kept names and boundaries. -/
theorem trans {s' : Search} (he : s.Extends s') (hn : s'.named = s.named)
    (hb : s'.boundaries = s.boundaries) (hv : s'.visited = s.visited)
    (h : Sound R c s' a) : Sound R c s a where
  grows hne := he.trans (h.grows hne)
  visited hne := (h.visited hne).trans hv
  undone e hae := ⟨(h.undone e hae).1.trans hn, (h.undone e hae).2.trans hb⟩
  inv := h.inv

end Answer.Sound

/-- Who may ask: a node that is being solved, or the scope. -/
def Asks (c : Ledger) (s : Search) (node : ResolvedPkg) (dep : Req) : Prop :=
  (node = rootNode ∧ dep ∈ c.asked) ∨
    (s.named[node.id.qualified]? = some node ∧ node.id.qualified ∈ s.visited ∧ dep ∈ node.deps)

theorem Asks.mono {c : Ledger} {s s' : Search} {node : ResolvedPkg} {dep : Req}
    (h : Asks c s node dep) (he : s.Extends s') (hv : s'.visited = s.visited) :
    Asks c s' node dep := by
  rcases h with h | ⟨held, hvis, hdep⟩
  · exact .inl h
  · exact .inr ⟨he.named _ _ held, hv ▸ hvis, hdep⟩

/-- The dependency is answered, and if it is one of the scope, what answers it
is finished. -/
def Satisfied (R : Resolver) (c : Ledger) (s : Search) (node : ResolvedPkg) (dep : Req)
    (edge : DepEdge) : Prop :=
  Answered c s node dep edge ∧ (edge = .scope → Finished R c s dep.qualified)

/-- The function the circle goes on with answers soundly. -/
def Sounds (R : Resolver) (c : Ledger) (go : Search → ResolvedPkg → Req → Answer) : Prop :=
  ∀ s node dep, s.Inv R c → Asks c s node dep →
    Answer.Sound R c s (go s node dep) ∧
    ((go s node dep).1 = .ok →
      Satisfied R c (go s node dep).2 node dep (R.classifyDep s.registry node dep))

section

variable {R : Resolver} {holds : Holds} {c : Ledger}
  {go : Search → ResolvedPkg → Req → Answer}

/-- The loop over the dependencies: what is left of the names after an error is
for the caller to undo. -/
theorem resolveEach_grows (hgo : Sounds R c go) {node : ResolvedPkg} :
    ∀ {deps : List Req} {s : Search}, s.Inv R c → (∀ dep ∈ deps, Asks c s node dep) →
      (resolveEach go node deps s).1 ≠ .stuck →
        s.Extends (resolveEach go node deps s).2 ∧
        (resolveEach go node deps s).2.visited = s.visited := by
  intro deps
  induction deps with
  | nil =>
    intro s _ _ _
    exact ⟨.refl s, rfl⟩
  | cons dep rest ih =>
    intro s hs hasks hne
    obtain ⟨hsound, -⟩ := hgo s node dep hs (hasks dep List.mem_cons_self)
    unfold resolveEach at hne ⊢
    rcases hstep : go s node dep with ⟨verdict, s₁⟩
    rw [hstep] at hsound hne
    cases verdict with
    | ok =>
      have he := hsound.grows Verdict.noConfusion
      have hv := hsound.visited Verdict.noConfusion
      have hrest := ih (hsound.inv rfl)
        (fun d hd => (hasks d (List.mem_cons_of_mem _ hd)).mono he hv) hne
      exact ⟨he.trans hrest.1, hrest.2.trans hv⟩
    | err e => exact ⟨hsound.grows Verdict.noConfusion, hsound.visited Verdict.noConfusion⟩
    | stuck => exact absurd rfl hne

/-- The loop to its end: the invariant, and every dependency satisfied whose
class does not move. -/
theorem resolveEach_ok (hgo : Sounds R c go) {node : ResolvedPkg} :
    ∀ {deps : List Req} {s : Search}, s.Inv R c → (∀ dep ∈ deps, Asks c s node dep) →
      (resolveEach go node deps s).1 = .ok →
        (resolveEach go node deps s).2.Inv R c ∧
        ∀ dep ∈ deps, (∀ s', s.Extends s' →
            R.classifyDep s'.registry node dep = R.classifyDep s.registry node dep) →
          Satisfied R c (resolveEach go node deps s).2 node dep
            (R.classifyDep s.registry node dep) := by
  intro deps
  induction deps with
  | nil =>
    intro s hs _ _
    exact ⟨hs, by simp⟩
  | cons dep rest ih =>
    intro s hs hasks hok
    obtain ⟨hsound, hsat⟩ := hgo s node dep hs (hasks dep List.mem_cons_self)
    unfold resolveEach at hok ⊢
    rcases hstep : go s node dep with ⟨verdict, s₁⟩
    rw [hstep] at hsound hsat hok
    cases verdict with
    | err e => cases hok
    | stuck => cases hok
    | ok =>
      have he := hsound.grows Verdict.noConfusion
      have hv := hsound.visited Verdict.noConfusion
      have hasks₁ : ∀ d ∈ rest, Asks c s₁ node d :=
        fun d hd => (hasks d (List.mem_cons_of_mem _ hd)).mono he hv
      obtain ⟨hinv, hrest⟩ := ih (hsound.inv rfl) hasks₁ hok
      have he₂ := (resolveEach_grows hgo (hsound.inv rfl) hasks₁ (fun h => by cases hok.symm.trans h)).1
      refine ⟨hinv, ?_⟩
      intro d hd hclass
      rcases List.mem_cons.1 hd with rfl | hd
      · obtain ⟨hans, hfin⟩ := hsat rfl
        exact ⟨he₂.answered hans, fun h => (hsound.inv rfl).finished_mono he₂ (hfin h)⟩
      · rw [← hclass s₁ he]
        exact hrest d hd fun s' he' => (hclass s' (he.trans he')).trans (hclass s₁ he).symm

/-- What an error left of the names is undone by the table of before. -/
theorem restore_of_extends {s s' : Search} (he : s.Extends s') :
    (s'.restore s).named = s.named ∧ (s'.restore s).boundaries = s.boundaries := by
  constructor
  · refine Std.ExtTreeMap.ext_getElem? fun k => ?_
    show (s'.named.restrict s.named)[k]? = s.named[k]?
    rw [Table.getElem?_restrict]
    split
    case isTrue h =>
      have hk : s.named[k]? = some s.named[k] := Std.ExtTreeMap.getElem?_eq_some_getElem h
      rw [hk]
      exact he.named _ _ hk
    case isFalse h => exact (Std.ExtTreeMap.getElem?_eq_none h).symm
  · exact (List.prefix_iff_eq_take.1 he.boundaries).symm

/-- The state in which the dependencies of a new node are resolved. -/
def Search.entered (s : Search) (name : Str) (node : ResolvedPkg) : Search :=
  { s with
    picks := s.picks + 1
    named := s.named.insert name node
    visited := insert name s.visited }

theorem Search.extends_entered {s : Search} {name : Str} (hfree : s.named[name]? = none)
    (node : ResolvedPkg) : s.Extends (s.entered name node) where
  named k n h := by
    refine (Table.getElem?_insert_eq_some _).2 (.inr ⟨?_, h⟩)
    rintro rfl
    rw [hfree] at h
    cases h
  boundaries := List.prefix_refl _
  registry := .refl _
  met := List.prefix_refl _
  picks := Nat.le_succ _

/-- Entering a node keeps the invariant: it is visited until it is finished. -/
theorem Search.Inv.entered {s : Search} (hs : s.Inv R c) {name : Str}
    (hfree : s.named[name]? = none) {node : ResolvedPkg} (hname : node.id.qualified = name)
    (hmade : Made R s.registry node) (hpick : node.priority = s.picks) :
    (s.entered name node).Inv R c := by
  have he := s.extends_entered hfree node
  refine ⟨?_, ?_, ?_, ?_, ?_, ?_⟩
  · intro k n held
    rcases (Table.getElem?_insert_eq_some _).1 held with ⟨rfl, rfl⟩ | ⟨-, held⟩
    · exact hname
    · exact hs.name k n held
  · intro k n held
    rcases (Table.getElem?_insert_eq_some _).1 held with ⟨rfl, rfl⟩ | ⟨-, held⟩
    · exact hmade
    · exact hs.made k n held
  · intro k n held hk
    simp only [Search.entered, Finset.mem_insert, not_or] at hk
    rcases (Table.getElem?_insert_eq_some _).1 held with ⟨rfl, rfl⟩ | ⟨-, held⟩
    · exact absurd rfl hk.1
    · exact hs.finished_mono he (hs.finished k n held hk.2)
  · intro k n held
    rcases (Table.getElem?_insert_eq_some _).1 held with ⟨rfl, rfl⟩ | ⟨-, held⟩
    · exact hpick ▸ Nat.lt_succ_self _
    · exact (hs.priority k n held).trans (Nat.lt_succ_self _)
  · intro a b n m ha hb hnm
    rcases (Table.getElem?_insert_eq_some _).1 ha with ⟨rfl, rfl⟩ | ⟨-, ha'⟩ <;>
      rcases (Table.getElem?_insert_eq_some _).1 hb with ⟨rfl, rfl⟩ | ⟨-, hb'⟩
    · rfl
    · exact absurd (hs.priority b m hb') (by omega)
    · exact absurd (hs.priority a n ha') (by omega)
    · exact hs.distinct a b n m ha' hb' hnm
  · intro b hb
    exact hs.posted_mono he (hs.posted b hb)

/-- The node is held as it was made, and finished. -/
def HeldAs (R : Resolver) (c : Ledger) (s : Search) (name : Str) (node : ResolvedPkg) : Prop :=
  (∃ held, s.named[name]? = some held ∧ held.bare = node.bare) ∧ Finished R c s name

theorem solveNode_sound (hgo : Sounds R c go) {s : Search} (hs : s.Inv R c) {name : Str}
    (hfree : s.named[name]? = none) (hvis : name ∉ s.visited) {node : ResolvedPkg}
    (hname : node.id.qualified = name) (hmade : Made R s.registry node) :
    Answer.Sound R c s (solveNode go s name node) ∧
    ((solveNode go s name node).1 = .ok → HeldAs R c (solveNode go s name node).2 name node) := by
  let picked : ResolvedPkg := { node with priority := s.picks }
  have hpicked : picked.id.qualified = name := hname
  have he₁ := s.extends_entered hfree picked
  have hs₁ := hs.entered hfree hpicked (show Made R s.registry picked from hmade) rfl
  have hheld : (s.entered name picked).named[name]? = some picked :=
    Table.getElem?_insert_self _ _ _
  have hasks : ∀ dep ∈ picked.deps, Asks c (s.entered name picked) picked dep := by
    intro dep hdep
    exact .inr ⟨hpicked ▸ hheld, hpicked ▸ Finset.mem_insert_self _ _, hdep⟩
  -- the answer, with the loop over the dependencies in its place
  have hunfold : solveNode go s name node = Answer.undone
      ((resolveEach go picked picked.deps (s.entered name picked)).1,
        { (resolveEach go picked picked.deps (s.entered name picked)).2 with
          visited :=
            (resolveEach go picked picked.deps (s.entered name picked)).2.visited.erase name }) s := by
    rw [solveNode_eq]
    unfold resolveDeps
    simp only [hname, Search.entered, picked]
  have hgrows := resolveEach_grows hgo hs₁ hasks
  have hok := resolveEach_ok hgo hs₁ hasks
  rw [hunfold]
  rcases hres : resolveEach go picked picked.deps (s.entered name picked) with ⟨verdict, s₂⟩
  rw [hres] at hgrows hok
  cases verdict with
  | stuck => exact ⟨.of_stuck rfl, fun h => by cases h⟩
  | err e =>
    obtain ⟨he₂, hv₂⟩ := hgrows Verdict.noConfusion
    have he : s.Extends s₂ := he₁.trans he₂
    have hundo := restore_of_extends
      ⟨he.named, he.boundaries, he.registry, he.met, he.picks⟩
    refine ⟨.of_err hundo.1 hundo.2 he.registry he.met he.picks ?_, fun h => by cases h⟩
    show s₂.visited.erase name = s.visited
    rw [hv₂]
    exact Finset.erase_insert hvis
  | ok =>
    obtain ⟨he₂, hv₂⟩ := hgrows Verdict.noConfusion
    obtain ⟨hs₂, hsat⟩ := hok rfl
    have he : s.Extends s₂ := he₁.trans he₂
    let s₃ : Search := { s₂ with visited := s₂.visited.erase name }
    have hv₃ : s₃.visited = s.visited := by
      show s₂.visited.erase name = s.visited
      rw [hv₂]
      exact Finset.erase_insert hvis
    have he₃ : s₂.Extends s₃ := ⟨fun _ _ h => h, List.prefix_refl _, .refl _,
      List.prefix_refl _, le_refl _⟩
    have hheld₃ : s₃.named[name]? = some picked := he₂.named _ _ hheld
    have hclass : ∀ dep s', (s.entered name picked).Extends s' →
        R.classifyDep s'.registry picked dep =
          R.classifyDep (s.entered name picked).registry picked dep :=
      fun dep s' h => hs₁.classifyDep_eq h hheld dep
    have hfin : Finished R c s₃ name := by
      refine .intro hheld₃ ?_ ?_
      · intro dep hdep
        rw [hclass dep s₃ (he₂.trans he₃)]
        exact he₃.answered (hsat dep hdep (hclass dep)).1
      · intro dep hdep hscope
        rw [hclass dep s₃ (he₂.trans he₃)] at hscope
        exact hs₂.finished_mono he₃ ((hsat dep hdep (hclass dep)).2 hscope)
    refine ⟨.of_ok (he.trans he₃) hv₃ ?_, fun _ => ⟨⟨picked, hheld₃, rfl⟩, hfin⟩⟩
    refine ⟨hs₂.name, hs₂.made, ?_, hs₂.priority, hs₂.distinct,
      fun b hb => hs₂.posted_mono he₃ (hs₂.posted b hb)⟩
    intro k n held hk
    by_cases hkn : k = name
    · rw [hkn]
      exact hfin
    · refine hs₂.finished_mono he₃ (hs₂.finished k n held ?_)
      intro hmem
      refine hk ?_
      show k ∈ s₂.visited.erase name
      exact Finset.mem_erase.2 ⟨hkn, hmem⟩

theorem tryCandidate_sound (hgo : Sounds R c go) {s : Search} (hs : s.Inv R c)
    {pkg : IndexPkg} {release : Release}
    (hpkg : R.index.packages[release.qualified]? = some (.ok pkg)) (hmem : release ∈ pkg.releases)
    (hfree : s.named[release.qualified]? = none) (hvis : release.qualified ∉ s.visited) :
    Answer.Sound R c s (tryCandidate R go s release) ∧
    ((tryCandidate R go s release).1 = .ok →
      HeldAs R c (tryCandidate R go s release).2 release.qualified (R.releaseNode release)) := by
  unfold tryCandidate
  split
  case isTrue =>
    exact ⟨.of_err rfl rfl (.refl _) (List.prefix_refl _) (le_refl _) rfl, fun h => by cases h⟩
  case isFalse =>
    have he : s.Extends { s with budget := s.budget - 1 } :=
      ⟨fun _ _ h => h, List.prefix_refl _, .refl _, List.prefix_refl _, le_refl _⟩
    have hs' : ({ s with budget := s.budget - 1 } : Search).Inv R c := hs.later he rfl rfl rfl
    have hname : (R.releaseNode release).id.qualified = release.qualified := rfl
    obtain ⟨hsound, hok⟩ := solveNode_sound hgo hs' hfree hvis hname
      (.inl ⟨pkg, release, hpkg, hmem, rfl⟩)
    exact ⟨.trans he rfl rfl rfl hsound, hok⟩

/-- The release the loop over the candidates ends with is one of them. -/
theorem tryReleases_sound (hgo : Sounds R c go) {requester : ResolvedPkg} {request : Req}
    {range : Range} {pkg : IndexPkg}
    (hpkg : R.index.packages[request.qualified]? = some (.ok pkg)) :
    ∀ {releases : List Release} {first : Option Err} {s : Search}, s.Inv R c →
      (∀ release ∈ releases, release ∈ pkg.releases) → s.named[request.qualified]? = none →
      request.qualified ∉ s.visited →
      Answer.Sound R c s (tryReleases R go requester request range releases first s) ∧
      ((tryReleases R go requester request range releases first s).1 = .ok →
        ∃ release ∈ releases, release.version.inRange range = true ∧
          HeldAs R c (tryReleases R go requester request range releases first s).2 request.qualified
            (R.releaseNode release)) := by
  intro releases
  induction releases with
  | nil =>
    intro first s _ _ _ _
    cases first with
    | none => exact ⟨.refl_err _, fun h => by cases h⟩
    | some e => exact ⟨.refl_err _, fun h => by cases h⟩
  | cons release rest ih =>
    intro first s hs hsub hfree hvis
    have hown : release.qualified = request.qualified :=
      R.index.own _ _ hpkg _ (hsub _ List.mem_cons_self)
    have hrest : ∀ r ∈ rest, r ∈ pkg.releases := fun r hr => hsub r (List.mem_cons_of_mem _ hr)
    unfold tryReleases
    split
    case isTrue =>
      obtain ⟨hsound, hok⟩ := ih hs hrest hfree hvis
      refine ⟨hsound, fun h => ?_⟩
      obtain ⟨r, hr, hr'⟩ := hok h
      exact ⟨r, List.mem_cons_of_mem _ hr, hr'⟩
    case isFalse hlegal =>
      obtain ⟨hsound, hok⟩ := tryCandidate_sound hgo hs (hown ▸ hpkg)
        (hsub _ List.mem_cons_self) (hown ▸ hfree) (hown ▸ hvis)
      rcases hstep : tryCandidate R go s release with ⟨verdict, s₁⟩
      rw [hstep] at hsound hok
      cases verdict with
      | stuck => exact ⟨.of_stuck rfl, fun h => by cases h⟩
      | ok =>
        refine ⟨hsound, fun _ => ⟨release, List.mem_cons_self, ?_, hown ▸ hok rfl⟩⟩
        simpa using (not_or.1 hlegal).2
      | err e =>
        simp only
        split
        case isTrue => exact ⟨hsound, fun h => by cases h⟩
        case isFalse =>
          have hundone := hsound.undone e rfl
          have hvis₁ : s₁.visited = s.visited := hsound.visited Verdict.noConfusion
          obtain ⟨hsound₂, hok₂⟩ := ih (s := s₁)
            (hsound.inv_of_err hs rfl) hrest (hundone.1 ▸ hfree) (hvis₁ ▸ hvis)
          refine ⟨.trans (hsound.grows Verdict.noConfusion) hundone.1 hundone.2 hvis₁ hsound₂,
            fun h => ?_⟩
          obtain ⟨r, hr, hr'⟩ := hok₂ h
          exact ⟨r, List.mem_cons_of_mem _ hr, hr'⟩

/-- Writing down who met whom. -/
theorem Search.extends_note (s : Search) (m : Meeting) : s.Extends { s with met := s.met ++ [m] } :=
  ⟨fun _ _ h => h, List.prefix_refl _, .refl _, List.prefix_append _ _, le_refl _⟩

/-- A node that was just solved answers what it was solved for. -/
theorem HeldAs.satisfied {s : Search} {node requester : ResolvedPkg} {dep : Req}
    (h : HeldAs R c s dep.qualified node) (hmeets : Meets s.met node dep) :
    Satisfied R c s requester dep .scope := by
  obtain ⟨⟨held, hheld, hbare⟩, hfin⟩ := h
  refine ⟨⟨held, hheld, ?_⟩, fun _ => hfin⟩
  obtain ⟨hid, hsource, horigin, -⟩ := ResolvedPkg.eq_of_bare hbare
  simpa only [Meets, hid, hsource, horigin] using hmeets

theorem resolveIndexPackage_sound (hgo : Sounds R c go) {s : Search} (hs : s.Inv R c)
    {requester : ResolvedPkg} {request : Req} {range : Range}
    (hsource : request.source = .index range) :
    Answer.Sound R c s (resolveIndexPackage R holds go s requester request range) ∧
    ((resolveIndexPackage R holds go s requester request range).1 = .ok →
      Satisfied R c (resolveIndexPackage R holds go s requester request range).2 requester request
        .scope) := by
  have meets : ∀ (met : List Meeting) (pkg : ResolvedPkg),
      pkg.id.version.inRange range = true → Meets met pkg request := by
    intro met pkg h
    unfold Meets
    rw [hsource]
    exact h
  unfold resolveIndexPackage
  split
  case isTrue => exact ⟨.refl_err _, fun h => by cases h⟩
  case isFalse hvis =>
    cases hheld : s.named[request.qualified]? with
    | some existing =>
      have he := s.extends_note ⟨requester.id, holds, request, existing⟩
      simp only
      split
      case isTrue hin =>
        refine ⟨.of_ok he rfl (hs.later he rfl rfl rfl), fun _ => ⟨⟨existing, hheld, meets _ _ hin⟩, ?_⟩⟩
        exact fun _ => hs.finished_mono he (hs.finished _ _ hheld hvis)
      case isFalse =>
        exact ⟨.of_err rfl rfl (.refl _) he.met (le_refl _) rfl, fun h => by cases h⟩
    | none =>
      simp only
      cases hpkg : R.index.packages[request.qualified]? with
      | none => exact ⟨.refl_err _, fun h => by cases h⟩
      | some got =>
        cases got with
        | error diag => exact ⟨.refl_err _, fun h => by cases h⟩
        | ok pkg =>
          simp only
          cases hfind : holds.find request.qualified with
          | none =>
            obtain ⟨hsound, hok⟩ := tryReleases_sound hgo hpkg
              hs (fun r hr => List.mem_reverse.1 hr) hheld hvis
            refine ⟨hsound, fun h => ?_⟩
            obtain ⟨release, -, hin, hsolved⟩ := hok h
            exact hsolved.satisfied (meets _ _ hin)
          | some found =>
            obtain ⟨pinned, contradiction⟩ := found
            simp only
            split
            case isTrue => exact ⟨.refl_err _, fun h => by cases h⟩
            case isFalse hlegal =>
              cases hrelease : pkg.releases.find? fun release => release.version = pinned with
              | none => exact ⟨.refl_err _, fun h => by cases h⟩
              | some release =>
                have hmem : release ∈ pkg.releases := List.mem_of_find?_eq_some hrelease
                have hown : release.qualified = request.qualified := R.index.own _ _ hpkg _ hmem
                have hversion : release.version = pinned := by
                  simpa using List.find?_some hrelease
                obtain ⟨hsound, hok⟩ := tryCandidate_sound hgo hs (hown ▸ hpkg) hmem
                  (hown ▸ hheld) (hown ▸ hvis)
                refine ⟨hsound, fun h => ?_⟩
                refine (hown ▸ hok h : HeldAs R c _ request.qualified _).satisfied (meets _ _ ?_)
                show release.version.inRange range = true
                rw [hversion]
                simpa using (not_or.1 hlegal).2

theorem solveLocal_sound (hgo : Sounds R c go) {s : Search} (hs : s.Inv R c)
    {requester : ResolvedPkg} {request : Req} {pkg : RegistryPkg}
    (hlocal : ∀ range, request.source ≠ .index range)
    (hpkg : s.registry.pkgs[request.qualified]? = some pkg)
    (hfree : s.named[request.qualified]? = none) (hvis : request.qualified ∉ s.visited) :
    Answer.Sound R c s (solveLocal R holds go s requester request pkg) ∧
    ((solveLocal R holds go s requester request pkg).1 = .ok →
      Satisfied R c (solveLocal R holds go s requester request pkg).2 requester request .scope) := by
  have he := s.extends_note ⟨requester.id, holds, request, R.localNode pkg⟩
  have hs' := hs.later he rfl rfl rfl
  have hown : pkg.info.qualified = request.qualified := s.registry.own _ _ hpkg
  obtain ⟨hsound, hok⟩ := solveNode_sound hgo hs' hfree hvis hown
    (.inr ⟨pkg, (by rw [show (R.localNode pkg).id.qualified = request.qualified from hown]; exact hpkg), rfl⟩)
  have solved : Answer.Sound R c s
        (solveNode go { s with met := s.met ++ [⟨requester.id, holds, request, R.localNode pkg⟩] }
          request.qualified (R.localNode pkg)) ∧
      ((solveNode go { s with met := s.met ++ [⟨requester.id, holds, request, R.localNode pkg⟩] }
          request.qualified (R.localNode pkg)).1 = .ok →
        Satisfied R c (solveNode go
          { s with met := s.met ++ [⟨requester.id, holds, request, R.localNode pkg⟩] }
          request.qualified (R.localNode pkg)).2 requester request .scope) := by
    refine ⟨.trans he rfl rfl rfl hsound, fun h => ?_⟩
    have hmem := (hsound.grows (by rw [h]; exact Verdict.noConfusion)).met.subset
      (List.mem_append_right s.met (List.mem_singleton.2 rfl))
    refine (hok h).satisfied ?_
    unfold Meets
    cases hsource : request.source with
    | index range => exact absurd hsource (hlocal range)
    | root => exact ⟨_, hmem, rfl, hsource, rfl, rfl⟩
    | file path => exact ⟨_, hmem, rfl, hsource, rfl, rfl⟩
  unfold solveLocal
  simp only
  cases holds.find request.qualified with
  | none => exact solved
  | some found =>
    obtain ⟨pinned, contradiction⟩ := found
    simp only
    split
    case isTrue => exact ⟨.of_err rfl rfl (.refl _) he.met (le_refl _) rfl, fun h => by cases h⟩
    case isFalse => exact solved

theorem resolveLocalPackage_sound (hgo : Sounds R c go) {s : Search} (hs : s.Inv R c)
    {requester : ResolvedPkg} {request : Req}
    (hlocal : ∀ range, request.source ≠ .index range) :
    Answer.Sound R c s (resolveLocalPackage R holds go s requester request) ∧
    ((resolveLocalPackage R holds go s requester request).1 = .ok →
      Satisfied R c (resolveLocalPackage R holds go s requester request).2 requester request
        .scope) := by
  unfold resolveLocalPackage
  split
  case isTrue => exact ⟨.refl_err _, fun h => by cases h⟩
  case isFalse hvis =>
    cases hheld : s.named[request.qualified]? with
    | some existing =>
      have he := s.extends_note ⟨requester.id, holds, request, existing⟩
      refine ⟨.of_ok he rfl (hs.later he rfl rfl rfl), fun _ => ⟨⟨existing, hheld, ?_⟩, ?_⟩⟩
      · have hmem := List.mem_append_right s.met
          (List.mem_singleton.2 (rfl : Meeting.mk requester.id holds request existing = _))
        unfold Meets
        cases hsource : request.source with
        | index range => exact absurd hsource (hlocal range)
        | root => exact ⟨_, hmem, rfl, hsource, rfl, rfl⟩
        | file path => exact ⟨_, hmem, rfl, hsource, rfl, rfl⟩
      · exact fun _ => hs.finished_mono he (hs.finished _ _ hheld hvis)
    | none =>
      simp only
      cases hpkg : s.registry.pkgs[request.qualified]? with
      | some pkg => exact solveLocal_sound hgo hs hlocal hpkg hheld hvis
      | none =>
        cases hsource : request.source with
        | root => exact ⟨.refl_err _, fun h => by cases h⟩
        | index range => exact absurd hsource (hlocal range)
        | file path =>
          simp only [loadFilePkg, hpkg]
          cases R.manifests[path]? with
          | none => exact ⟨.refl_err _, fun h => by cases h⟩
          | some manifest =>
            cases manifest with
            | none => exact ⟨.refl_err _, fun h => by cases h⟩
            | some info =>
              simp only
              by_cases hname : info.qualified = request.qualified
              · -- the manifest declares the name: its package is registered
                simp only [ne_eq, hname, not_true_eq_false, if_false]
                have hr : s.registry.Extends (s.registry.insert ⟨.file, info, path⟩) :=
                  .insert (by rw [hname]; exact hpkg)
                have he : s.Extends { s with registry := s.registry.insert ⟨.file, info, path⟩ } :=
                  ⟨fun _ _ h => h, List.prefix_refl _, hr, List.prefix_refl _, le_refl _⟩
                have hgot : (s.registry.insert ⟨.file, info, path⟩).pkgs[request.qualified]? =
                    some ⟨.file, info, path⟩ :=
                  hname ▸ Table.getElem?_insert_self _ _ _
                obtain ⟨hsound, hok⟩ := solveLocal_sound
                  hgo (hs.later he rfl rfl rfl) hlocal hgot hheld hvis
                exact ⟨.trans he rfl rfl rfl hsound, hok⟩
              · simp only [ne_eq, hname, not_false_eq_true, if_true]
                exact ⟨.refl_err _, fun h => by cases h⟩

/-- Posting a boundary. -/
theorem post_sound {s : Search} (hs : s.Inv R c) {b : Boundary} (hb : Posted R c s b) :
    Answer.Sound R c s (.ok, { s with boundaries := s.boundaries ++ [b] }) := by
  have he : s.Extends { s with boundaries := s.boundaries ++ [b] } :=
    ⟨fun _ _ h => h, List.prefix_append _ _, .refl _, List.prefix_refl _, le_refl _⟩
  refine .of_ok he rfl ⟨hs.name, hs.made, fun k n held hk => ?_, hs.priority, hs.distinct,
    fun b' hb' => ?_⟩
  · exact hs.finished_mono he (hs.finished k n held hk)
  · rcases List.mem_append.1 hb' with hb' | hb'
    · exact hs.posted_mono he (hs.posted b' hb')
    · rw [List.mem_singleton.1 hb']
      exact hs.posted_mono he hb

/-- Whoever may ask may post what is not of the scope. -/
theorem Asks.posted {s : Search} {node : ResolvedPkg} {dep : Req} (h : Asks c s node dep)
    {edge : DepEdge} (hedge : R.classifyDep s.registry node dep = edge)
    (hcross : edge = .process ∨ edge = .isPrivate) : Posted R c s ⟨node.id, edge, dep⟩ := by
  rcases h with ⟨rfl, hdep⟩ | ⟨held, -, hdep⟩
  · refine .inl ⟨rfl, hdep, ?_⟩
    by_contra hplain
    have hscope : edge = .scope :=
      hedge.symm.trans (Req.plain_classifyDep (by simpa using hplain) R _ _)
    rcases hcross with h | h <;> simp [h] at hscope
  · exact .inr ⟨node, held, rfl, hdep, hedge, hcross⟩

end

/-- The search answers soundly, however deep the circle goes. -/
theorem resolveDep_sound (R : Resolver) (holds : Holds) (c : Ledger) (depth : ℕ) :
    Sounds R c (resolveDep R holds depth) := by
  induction depth with
  | zero =>
    intro s node dep _ _
    exact ⟨.of_stuck rfl, fun h => by cases h⟩
  | succ depth ih =>
    intro s node dep hs hasks
    unfold resolveDep
    cases hedge : R.classifyDep s.registry node dep with
    | pruned => exact ⟨.of_ok (.refl s) rfl hs, fun _ => ⟨trivial, fun h => by cases h⟩⟩
    | process =>
      refine ⟨post_sound hs (hasks.posted hedge (.inl rfl)), fun _ => ⟨?_, fun h => by cases h⟩⟩
      exact .inr (List.mem_append_right _ (List.mem_singleton.2 rfl))
    | isPrivate =>
      refine ⟨post_sound hs (hasks.posted hedge (.inr rfl)), fun _ => ⟨?_, fun h => by cases h⟩⟩
      exact .inr (List.mem_append_right _ (List.mem_singleton.2 rfl))
    | scope =>
      simp only
      cases hsource : dep.source with
      | index range => exact resolveIndexPackage_sound ih hs hsource
      | root => exact resolveLocalPackage_sound ih hs (by simp [hsource])
      | file path => exact resolveLocalPackage_sound ih hs (by simp [hsource])

/-- The requests of a scope: after a success each plain one is answered. -/
theorem solveReqs_sound (R : Resolver) (holds : Holds) (depth : ℕ) {c : Ledger} {reqs : List Req}
    {s : Search} (hs : s.Inv R c) (hreqs : ∀ req ∈ reqs, req ∈ c.asked) :
    ((solveReqs R holds depth reqs s).1 ≠ .stuck →
      s.Extends (solveReqs R holds depth reqs s).2 ∧
      (solveReqs R holds depth reqs s).2.visited = s.visited) ∧
    ((solveReqs R holds depth reqs s).1 = .ok →
      (solveReqs R holds depth reqs s).2.Inv R c ∧
      ∀ req ∈ reqs, req.plain = true →
        Satisfied R c (solveReqs R holds depth reqs s).2 rootNode req .scope) := by
  have hgo := resolveDep_sound R holds c depth
  have hasks : ∀ req ∈ reqs, Asks c s rootNode req := fun req hreq => .inl ⟨rfl, hreqs req hreq⟩
  refine ⟨resolveEach_grows hgo hs hasks, fun h => ?_⟩
  obtain ⟨hinv, hsat⟩ := resolveEach_ok hgo hs hasks h
  refine ⟨hinv, fun req hreq hplain => ?_⟩
  have := hsat req hreq fun s' _ => by
    rw [Req.plain_classifyDep hplain, Req.plain_classifyDep hplain]
  rwa [Req.plain_classifyDep hplain] at this

end Spn.Resolve
