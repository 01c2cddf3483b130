import Spn.Resolve.Pins

/-! # The rounds over the scopes

The invariant of a run between two scopes of the loop in `solve_once`: every
scope satisfies the invariant of the search, has answered the requests before
its cursor, and every boundary it posted was delivered to the scope of that
boundary.
-/
namespace Spn.Resolve

open Spn.Lib

/-- What a scope is found by. -/
def Scope.key (scope : Scope) : Str × PkgId := (scope.root, scope.owner)

/-- The root of the scope a boundary leads to. -/
def Boundary.root (b : Boundary) : Str :=
  if b.edge = .isPrivate then b.owner.qualified else b.req.qualified

/-- A request as it is pushed across a boundary. -/
def Req.asPlain (req : Req) : Req := { req with kind := .package, isPrivate := false }

theorem Req.plain_asPlain (req : Req) : req.asPlain.plain = true := rfl

/-- The scope was asked more, and is the same otherwise. -/
structure Scope.Grows (a b : Scope) : Prop where
  key : b.key = a.key
  cursor : b.cursor = a.cursor
  named : b.named = a.named
  pins : b.pins = a.pins
  processes : b.processes = a.processes
  reqs : a.reqs <+: b.reqs

theorem Scope.Grows.refl (a : Scope) : a.Grows a := ⟨rfl, rfl, rfl, rfl, rfl, List.prefix_refl _⟩

theorem Scope.Grows.trans {a b c : Scope} (hab : a.Grows b) (hbc : b.Grows c) : a.Grows c :=
  ⟨hbc.key.trans hab.key, hbc.cursor.trans hab.cursor, hbc.named.trans hab.named,
    hbc.pins.trans hab.pins, hbc.processes.trans hab.processes, hab.reqs.trans hbc.reqs⟩

/-- One request more. -/
def Scope.push (scope : Scope) (req : Req) : Scope := { scope with reqs := scope.reqs ++ [req] }

theorem Scope.grows_push (scope : Scope) (req : Req) : scope.Grows (scope.push req) :=
  ⟨rfl, rfl, rfl, rfl, rfl, List.prefix_append _ _⟩

/-- Nothing was solved in the scope yet. -/
def Scope.Untouched (scope : Scope) : Prop :=
  scope.cursor = 0 ∧ scope.named = ∅ ∧ scope.pins = [] ∧ scope.processes = []

theorem Scope.Untouched.grows {a b : Scope} (h : a.Untouched) (hg : a.Grows b) : b.Untouched :=
  ⟨hg.cursor.trans h.1, hg.named.trans h.2.1, hg.pins.trans h.2.2.1, hg.processes.trans h.2.2.2⟩

/-- Requests were pushed to scopes of the run, old or new, and nothing else. -/
structure Run.Spreads (run run' : Run) : Prop where
  keys : run.scopes.map Scope.key <+: run'.scopes.map Scope.key
  old : ∀ (i : ℕ) (scope : Scope), run.scopes[i]? = some scope →
    ∃ scope', run'.scopes[i]? = some scope' ∧ scope.Grows scope'
  fresh : ∀ (i : ℕ) (scope' : Scope), run'.scopes[i]? = some scope' → run.scopes[i]? = none →
    scope'.Untouched
  plain : ∀ (i : ℕ) (scope' : Scope), run'.scopes[i]? = some scope' → ∀ req ∈ scope'.reqs, req.plain = true ∨
    ∃ scope, run.scopes[i]? = some scope ∧ req ∈ scope.reqs
  edges : run.edges <+: run'.edges
  rest : { run' with scopes := run.scopes, edges := run.edges } = run

namespace Run.Spreads

theorem refl (run : Run) : run.Spreads run where
  keys := List.prefix_refl _
  old i scope h := ⟨scope, h, .refl _⟩
  fresh i scope' h hnone := by rw [hnone] at h; cases h
  plain i scope' h req hreq := .inr ⟨scope', h, hreq⟩
  edges := List.prefix_refl _
  rest := rfl

theorem trans {a b c : Run} (hab : a.Spreads b) (hbc : b.Spreads c) : a.Spreads c where
  keys := hab.keys.trans hbc.keys
  old i scope h := by
    obtain ⟨scope₁, h₁, hg₁⟩ := hab.old i scope h
    obtain ⟨scope₂, h₂, hg₂⟩ := hbc.old i scope₁ h₁
    exact ⟨scope₂, h₂, hg₁.trans hg₂⟩
  fresh i scope' h hnone := by
    cases hb : b.scopes[i]? with
    | none => exact hbc.fresh i scope' h hb
    | some scope₁ =>
      obtain ⟨scope₂, h₂, hg₂⟩ := hbc.old i scope₁ hb
      rw [h] at h₂
      cases h₂
      exact (hab.fresh i scope₁ hb hnone).grows hg₂
  plain i scope' h req hreq := by
    rcases hbc.plain i scope' h req hreq with hplain | ⟨scope₁, h₁, hreq₁⟩
    · exact .inl hplain
    · exact hab.plain i scope₁ h₁ req hreq₁
  edges := hab.edges.trans hbc.edges
  rest := by
    have h₁ := hab.rest
    rw [← hbc.rest] at h₁
    exact h₁

theorem registry {run run' : Run} (h : run.Spreads run') : run'.registry = run.registry := by
  rw [← h.rest]

theorem met {run run' : Run} (h : run.Spreads run') : run'.met = run.met := by
  rw [← h.rest]

theorem picks {run run' : Run} (h : run.Spreads run') : run'.picks = run.picks := by
  rw [← h.rest]

theorem visited {run run' : Run} (h : run.Spreads run') : run'.visited = run.visited := by
  rw [← h.rest]

end Run.Spreads

namespace Run

/-- The first scope of a key stays the first one when scopes are added. -/
theorem findScope_of_keys {run run' : Run} {root : Str} {owner : PkgId} {it : ℕ}
    (h : run.findScope root owner = some it)
    (hk : run.scopes.map Scope.key <+: run'.scopes.map Scope.key) :
    run'.findScope root owner = some it := by
  have keyed : ∀ r : Run, r.findScope root owner =
      (r.scopes.map Scope.key).findIdx? fun key => key.1 = root && key.2.eqv owner := by
    intro r
    rw [findScope, List.findIdx?_map]
    rfl
  rw [keyed] at h ⊢
  obtain ⟨tail, htail⟩ := hk
  rw [← htail, List.findIdx?_append, h]
  rfl

/-- A scope that is found is there. -/
theorem exists_of_findScope {run : Run} {root : Str} {owner : PkgId} {it : ℕ}
    (h : run.findScope root owner = some it) :
    ∃ scope, run.scopes[it]? = some scope ∧ isScope root owner scope = true := by
  obtain ⟨hlt, hp, -⟩ := List.findIdx?_eq_some_iff_getElem.1 h
  exact ⟨run.scopes[it], List.getElem?_eq_getElem hlt, hp⟩

theorem isScope_fresh (root : Str) (owner : PkgId) :
    isScope root owner (Scope.fresh root owner) = true := by
  simp [isScope, Scope.fresh, PkgId.eqv]

/-- `find_or_create_scope` finds it in what it leaves. -/
theorem findOrCreateScope_spec (run : Run) (root : Str) (owner : PkgId) :
    run.Spreads (run.findOrCreateScope root owner).2 ∧
      (run.findOrCreateScope root owner).2.findScope root owner =
        some (run.findOrCreateScope root owner).1 := by
  unfold findOrCreateScope
  cases h : run.findScope root owner with
  | some it => exact ⟨.refl run, h⟩
  | none =>
    refine ⟨⟨?_, ?_, ?_, ?_, List.prefix_refl _, rfl⟩, ?_⟩
    · simp
    · intro i scope hi
      have hlt := (List.getElem?_eq_some_iff.1 hi).1
      exact ⟨scope, by rw [← hi]; exact List.getElem?_append_left hlt, .refl _⟩
    · intro i scope' hi hnone
      have hge : run.scopes.length ≤ i := List.getElem?_eq_none_iff.1 hnone
      simp only at hi
      rw [List.getElem?_append_right hge, List.getElem?_singleton] at hi
      split at hi
      · cases hi
        exact ⟨rfl, rfl, rfl, rfl⟩
      · cases hi
    · intro i scope' hi req hreq
      rcases lt_or_ge i run.scopes.length with hlt | hge
      · simp only at hi
        rw [List.getElem?_append_left hlt] at hi
        exact .inr ⟨scope', hi, hreq⟩
      · simp only at hi
        rw [List.getElem?_append_right hge, List.getElem?_singleton] at hi
        split at hi
        · cases hi
          cases hreq
        · cases hi
    · rw [findScope] at h ⊢
      simp only
      rw [List.findIdx?_append, h]
      simp [List.findIdx?_cons, isScope_fresh]

/-- The boundary's scope was asked the request, and the run has the edge. -/
def Delivered (run : Run) (src : ℕ) (b : Boundary) : Prop :=
  ∃ dst scope, run.findScope b.root b.owner = some dst ∧ run.scopes[dst]? = some scope ∧
    b.req.asPlain ∈ scope.reqs ∧ ⟨src, dst, b.edge = .isPrivate⟩ ∈ run.edges

theorem Delivered.spread {run run' : Run} {src : ℕ} {b : Boundary} (h : Delivered run src b)
    (hs : run.Spreads run') : Delivered run' src b := by
  obtain ⟨dst, scope, hfind, hscope, hreq, hedge⟩ := h
  obtain ⟨scope', hscope', hg⟩ := hs.old dst scope hscope
  exact ⟨dst, scope', findScope_of_keys hfind hs.keys, hscope', hg.reqs.subset hreq,
    hs.edges.subset hedge⟩

/-- Asking one scope for one thing more. -/
theorem spreads_push (run : Run) (src dst : ℕ) (isPrivate : Bool) {req : Req}
    (hplain : req.plain = true) :
    run.Spreads { run with
      edges := run.edges ++ [⟨src, dst, isPrivate⟩]
      scopes := run.scopes.modify dst (·.push req) } := by
  have hget : ∀ i : ℕ, (run.scopes.modify dst (·.push req))[i]? =
      run.scopes[i]?.map fun scope => if dst = i then scope.push req else scope := by
    intro i
    rw [List.getElem?_modify]
    by_cases h : dst = i <;> simp [h]
  refine ⟨?_, ?_, ?_, ?_, List.prefix_append _ _, rfl⟩
  · have hkeys : (run.scopes.modify dst (·.push req)).map Scope.key = run.scopes.map Scope.key := by
      refine List.ext_getElem? fun i => ?_
      rw [List.getElem?_map, List.getElem?_map, hget]
      cases run.scopes[i]? with
      | none => rfl
      | some scope => by_cases h : dst = i <;> simp [h, Scope.key, Scope.push]
    simp only [hkeys]
    exact List.prefix_refl _
  · intro i scope hi
    refine ⟨if dst = i then scope.push req else scope, by rw [hget, hi]; rfl, ?_⟩
    split
    · exact scope.grows_push req
    · exact .refl _
  · intro i scope' hi hnone
    rw [hget, hnone] at hi
    cases hi
  · intro i scope' hi r hr
    rw [hget] at hi
    obtain ⟨scope, hscope, rfl⟩ := Option.map_eq_some_iff.1 hi
    by_cases h : dst = i
    · rw [if_pos h] at hr
      rcases List.mem_append.1 hr with hr | hr
      · exact .inr ⟨scope, hscope, hr⟩
      · rw [List.mem_singleton.1 hr]
        exact .inl hplain
    · rw [if_neg h] at hr
      exact .inr ⟨scope, hscope, hr⟩

theorem processBoundary_spec (src : ℕ) (run : Run) (b : Boundary) :
    run.Spreads (processBoundary src run b) ∧ Delivered (processBoundary src run b) src b := by
  obtain ⟨hspread, hfind⟩ := run.findOrCreateScope_spec b.root b.owner
  have heq : processBoundary src run b =
      { (run.findOrCreateScope b.root b.owner).2 with
        edges := (run.findOrCreateScope b.root b.owner).2.edges ++
          [⟨src, (run.findOrCreateScope b.root b.owner).1, b.edge = .isPrivate⟩]
        scopes := (run.findOrCreateScope b.root b.owner).2.scopes.modify
          (run.findOrCreateScope b.root b.owner).1 (·.push b.req.asPlain) } := rfl
  rcases hpair : run.findOrCreateScope b.root b.owner with ⟨dst, run₁⟩
  rw [hpair] at hspread hfind heq
  have hpush := run₁.spreads_push src dst (b.edge = .isPrivate) b.req.plain_asPlain
  rw [heq]
  refine ⟨hspread.trans hpush, ?_⟩
  obtain ⟨scope, hscope, -⟩ := exists_of_findScope hfind
  refine ⟨dst, scope.push b.req.asPlain, findScope_of_keys hfind hpush.keys, ?_,
    List.mem_append_right _ (List.mem_singleton.2 rfl),
    List.mem_append_right _ (List.mem_singleton.2 rfl)⟩
  show (run₁.scopes.modify dst _)[dst]? = _
  rw [List.getElem?_modify_eq, hscope]
  rfl

/-- Every boundary that was posted is delivered. -/
theorem foldl_processBoundary_spec (src : ℕ) (bs : List Boundary) (run : Run) :
    run.Spreads (bs.foldl (processBoundary src) run) ∧
      ∀ b ∈ bs, Delivered (bs.foldl (processBoundary src) run) src b := by
  induction bs generalizing run with
  | nil => exact ⟨.refl run, by simp⟩
  | cons b rest ih =>
    obtain ⟨hspread, hdelivered⟩ := processBoundary_spec src run b
    obtain ⟨hrest, hall⟩ := ih (processBoundary src run b)
    refine ⟨hspread.trans hrest, ?_⟩
    intro b' hb'
    rcases List.mem_cons.1 hb' with rfl | hb'
    · exact hdelivered.spread hrest
    · exact hall b' hb'

end Run

/-- The invariant of the search at the beginning of its scope's next turn: the
boundaries it posted are past. -/
theorem Search.Inv.turn {R : Resolver} {c c' : Ledger} {s s' : Search} (h : s.Inv R c)
    (hu : s'.named = s.named) (hv : s'.visited = s.visited)
    (hr : s.registry.Extends s'.registry) (hm : s.met <+: s'.met) (hp : s.picks ≤ s'.picks)
    (hb : s'.boundaries = []) (hpast : ∀ b, b ∈ c.past ∨ b ∈ s.boundaries → b ∈ c'.past) :
    s'.Inv R c' := by
  have class_eq : ∀ {name : Str} {node : ResolvedPkg}, s.named[name]? = some node → ∀ dep : Req,
      R.classifyDep s'.registry node dep = R.classifyDep s.registry node dep :=
    fun held dep => (h.made _ _ held).classifyDep_eq hr dep
  have finished : ∀ name, Finished R c s name → Finished R c' s' name := by
    intro name hf
    induction hf with
    | @intro name node held answered _ ih =>
      refine .intro (hu ▸ held) ?_ ?_
      · intro dep hdep
        have hans := answered dep hdep
        rw [class_eq held]
        cases hedge : R.classifyDep s.registry node dep with
        | pruned => trivial
        | process => exact .inl (hpast _ (by rwa [hedge] at hans))
        | isPrivate => exact .inl (hpast _ (by rwa [hedge] at hans))
        | scope =>
          rw [hedge] at hans
          obtain ⟨pkg, hpkg, hmeets⟩ := hans
          exact ⟨pkg, hu ▸ hpkg, hmeets.mono hm⟩
      · intro dep hdep hscope
        rw [class_eq held] at hscope
        exact ih dep hdep hscope
  exact
    { name := fun k n held => h.name k n (hu ▸ held)
      made := fun k n held => (h.made k n (hu ▸ held)).mono hr
      finished := fun k n held hk => finished k (h.finished k n (hu ▸ held) (hv ▸ hk))
      priority := fun k n held => (h.priority k n (hu ▸ held)).trans_le hp
      distinct := fun a b n m ha hb => h.distinct a b n m (hu ▸ ha) (hu ▸ hb)
      posted := by rw [hb]; simp }

/-- Nothing is held, so nothing is wrong. -/
theorem Search.inv_empty {R : Resolver} {c : Ledger} {s : Search} (hn : s.named = ∅)
    (hb : s.boundaries = []) : s.Inv R c := by
  have none : ∀ (k : Str) (n : ResolvedPkg), ¬ s.named[k]? = some n := by
    intro k n h
    rw [hn] at h
    simp at h
  exact
    { name := fun k n h => absurd h (none k n)
      made := fun k n h => absurd h (none k n)
      finished := fun k n h => absurd h (none k n)
      priority := fun k n h => absurd h (none k n)
      distinct := fun a b n m h => absurd h (none a n)
      posted := by rw [hb]; simp }

/-- One scope between its turns. -/
structure ScopeInv (R : Resolver) (run : Run) (it : ℕ) (scope : Scope) : Prop where
  cursor : scope.cursor ≤ scope.reqs.length
  ledger : ∃ past, (run.search scope).Inv R ⟨scope.reqs, past⟩ ∧ ∀ b ∈ past, run.Delivered it b
  answered : ∀ req ∈ scope.reqs.take scope.cursor, req.plain = true →
    ∃ pkg, scope.named[req.qualified]? = some pkg ∧ Meets run.met pkg req

/-- The invariant of a run between two scopes. -/
structure Run.Inv (R : Resolver) (run : Run) : Prop where
  scopes : ∀ (i : ℕ) (scope : Scope), run.scopes[i]? = some scope → ScopeInv R run i scope
  boundaries : run.boundaries = []
  visited : run.visited = ∅

/-- What one scope of a run leaves: the scope is solved, and the run has grown. -/
structure Resolved (R : Resolver) (run : Run) (it : ℕ) (scope : Scope) (past : List Boundary)
    (run' : Run) (scope' : Scope) : Prop where
  scopes : run'.scopes = run.scopes.set it scope'
  key : scope'.key = scope.key
  cursor : scope'.cursor = scope'.reqs.length
  reqs : scope'.reqs.Perm scope.reqs
  held : ∀ (name : Str) (node : ResolvedPkg), scope.named[name]? = some node →
    scope'.named[name]? = some node
  answered : ∀ req ∈ scope'.reqs, req.plain = true →
    ∃ pkg, scope'.named[req.qualified]? = some pkg ∧ Meets run'.met pkg req
  edges : run'.edges = run.edges
  visited : run'.visited = run.visited
  registry : run.registry.Extends run'.registry
  met : run.met <+: run'.met
  picks : run.picks ≤ run'.picks
  inv : (run'.search scope').Inv R ⟨scope'.reqs, past⟩

/-- The requests of a scope, with those behind the cursor sorted. -/
def Scope.sorted (scope : Scope) : Scope :=
  { scope with
    cursor := scope.reqs.length
    reqs := scope.reqs.take scope.cursor ++ Req.canonical (scope.reqs.drop scope.cursor) }

theorem Scope.sorted_reqs (scope : Scope) : scope.sorted.reqs.Perm scope.reqs := by
  refine List.Perm.trans ((Req.canonical_perm _).append_left _) ?_
  rw [List.take_append_drop]

section

variable {R : Resolver} {run : Run} {it : ℕ} {scope : Scope} {past : List Boundary}

/-- Taking a solved search back into the run. -/
theorem absorb_resolved (hscope : ScopeInv R run it scope) {pins : List Pin} {budget : ℕ}
    {s : Search} (he : (run.search scope).Extends s) (hv : s.visited = run.visited)
    (hs : Solves R ⟨scope.sorted.reqs, past⟩ (Req.canonical (scope.reqs.drop scope.cursor)) s) :
    Resolved R run it scope past
      (({ run with budget := budget } : Run).absorb it { scope.sorted with pins := pins } s)
      { scope.sorted with pins := pins, named := s.named } where
  scopes := rfl
  key := rfl
  cursor := (scope.sorted_reqs.length_eq).symm
  reqs := scope.sorted_reqs
  held := he.named
  answered req hreq hplain := by
    rcases List.mem_append.1 hreq with hreq | hreq
    · obtain ⟨pkg, hpkg, hmeets⟩ := hscope.answered req hreq hplain
      exact ⟨pkg, he.named _ _ hpkg, hmeets.mono he.met⟩
    · obtain ⟨⟨pkg, hpkg, hmeets⟩, -⟩ := hs.answered req hreq hplain
      exact ⟨pkg, hpkg, hmeets⟩
  edges := rfl
  visited := hv
  registry := he.registry
  met := he.met
  picks := he.picks
  inv := hs.inv

theorem resolveScope_sound (L : Listing) (depth : ℕ) (hrun : run.Inv R)
    (hscope : ScopeInv R run it scope) (hpast : (run.search scope).Inv R ⟨scope.reqs, past⟩)
    (hok : (resolveScope R L depth run it scope).1 = .ok) :
    ∃ scope', Resolved R run it scope past (resolveScope R L depth run it scope).2 scope' := by
  let s : Search := ({ run with budget := R.budget } : Run).search scope.sorted
  let fresh := Req.canonical (scope.reqs.drop scope.cursor)
  have he : (run.search scope).Extends s :=
    ⟨fun _ _ h => h, List.prefix_refl _, .refl _, List.prefix_refl _, le_refl _⟩
  have hs : s.Inv R ⟨scope.sorted.reqs, past⟩ := by
    refine hpast.turn rfl rfl (.refl _) (List.prefix_refl _) (le_refl _) hrun.boundaries ?_
    rintro b (hb | hb)
    · exact hb
    · rw [show (run.search scope).boundaries = [] from hrun.boundaries] at hb
      cases hb
  have hreqs : ∀ req ∈ fresh, req ∈ scope.sorted.reqs := fun req h => List.mem_append_right _ h
  by_cases hfirst : 0 < scope.cursor ∨ run.result.size = 0
  · have heq : resolveScope R L depth run it scope =
        let answer := solveReqs R ⟨run.forced, scope.pins⟩ depth fresh s
        (answer.1, ({ run with budget := R.budget } : Run).absorb it scope.sorted answer.2) :=
      if_pos hfirst
    rw [heq] at hok ⊢
    obtain ⟨hgrows, hsolves⟩ := solveReqs_sound R ⟨run.forced, scope.pins⟩ depth hs hreqs
    obtain ⟨hinv, hans⟩ := hsolves hok
    obtain ⟨he₂, hv₂⟩ := hgrows (fun h => by cases hok.symm.trans h)
    exact ⟨_, absorb_resolved hscope (he.trans he₂) hv₂ ⟨hinv, hans⟩⟩
  · have heq : resolveScope R L depth run it scope =
        let answer := resolvePinned R L it run.forced depth fresh
          (({ run with budget := R.budget } : Run).picksOf L) scope.pins s
        (answer.1, ({ run with budget := R.budget } : Run).absorb it
          { scope.sorted with pins := answer.2.2 } answer.2.1) :=
      if_neg hfirst
    rw [heq] at hok ⊢
    obtain ⟨he₂, hv₂, hsolves⟩ := resolvePinned_sound hreqs hs hok
    exact ⟨_, absorb_resolved hscope (he.trans he₂) hv₂ hsolves⟩

theorem Resolved.keys {run' : Run} {scope' : Scope} (hr : Resolved R run it scope past run' scope')
    (hscope : run.scopes[it]? = some scope) :
    run'.scopes.map Scope.key = run.scopes.map Scope.key := by
  obtain ⟨hlt, hget⟩ := List.getElem?_eq_some_iff.1 hscope
  rw [hr.scopes, List.map_set, hr.key]
  refine List.ext_getElem? fun i => ?_
  rw [List.getElem?_set]
  split
  case isTrue h =>
    subst h
    simp [hlt, hget]
  case isFalse => rfl

/-- A boundary delivered before a scope was solved is delivered after it. -/
theorem Run.Delivered.resolved {run' : Run} {scope' : Scope} {src : ℕ} {b : Boundary}
    (h : run.Delivered src b) (hscope : run.scopes[it]? = some scope)
    (hr : Resolved R run it scope past run' scope') : run'.Delivered src b := by
  obtain ⟨dst, target, hfind, htarget, hreq, hedge⟩ := h
  have hlt := (List.getElem?_eq_some_iff.1 hscope).1
  have hfind' := Run.findScope_of_keys hfind (by rw [hr.keys hscope])
  rw [← hr.edges] at hedge
  by_cases hdst : dst = it
  · subst hdst
    rw [hscope] at htarget
    cases htarget
    exact ⟨_, scope', hfind', by rw [hr.scopes, List.getElem?_set_self hlt],
      hr.reqs.mem_iff.2 hreq, hedge⟩
  · exact ⟨_, target, hfind', by rw [hr.scopes, List.getElem?_set_ne (Ne.symm hdst)]; exact htarget,
      hreq, hedge⟩

/-- A scope that only got requests keeps its invariant while the run goes on. -/
theorem ScopeInv.later {run' : Run} {scope' : Scope} (h : ScopeInv R run it scope)
    (hg : scope.Grows scope') (hv : run'.visited = run.visited)
    (hr : run.registry.Extends run'.registry) (hm : run.met <+: run'.met)
    (hp : run.picks ≤ run'.picks) (hb : run.boundaries = []) (hb' : run'.boundaries = [])
    (hd : ∀ b, run.Delivered it b → run'.Delivered it b) : ScopeInv R run' it scope' where
  cursor := hg.cursor ▸ h.cursor.trans hg.reqs.length_le
  ledger := by
    obtain ⟨past, hinv, hpast⟩ := h.ledger
    refine ⟨past, hinv.turn hg.named hv hr hm hp hb' ?_, fun b hmem => hd b (hpast b hmem)⟩
    rintro b (hmem | hmem)
    · exact hmem
    · rw [show (run.search scope).boundaries = [] from hb] at hmem
      cases hmem
  answered := by
    intro req hreq hplain
    obtain ⟨tail, htail⟩ := hg.reqs
    rw [hg.cursor, ← htail, List.take_append_of_le_length h.cursor] at hreq
    obtain ⟨pkg, hpkg, hmeets⟩ := h.answered req hreq hplain
    exact ⟨pkg, hg.named ▸ hpkg, hmeets.mono hm⟩

/-- Nothing is wrong in a scope nothing was solved in. -/
theorem Scope.Untouched.inv (h : scope.Untouched) (hb : run.boundaries = []) :
    ScopeInv R run it scope where
  cursor := by rw [h.1]; exact Nat.zero_le _
  ledger := ⟨[], Search.inv_empty h.2.1 hb, by simp⟩
  answered req hreq := by
    rw [h.1] at hreq
    simp at hreq

/-- How a scope of the loop was solved. -/
theorem solveScope_ok {L : Listing} {depth : ℕ} (hrun : run.Inv R)
    (hscope : run.scopes[it]? = some scope) {run' : Run}
    (h : solveScope R L depth run it scope = (.ok, run')) :
    ∃ past run₁ scope', (∀ b ∈ past, run.Delivered it b) ∧
      Resolved R run it scope past run₁ scope' ∧
      resolveScope R L depth run it scope = (.ok, run₁) ∧ run₁.scopes[it]? = some scope' ∧
      run' = (run₁.commitScope L it scope').processBoundaries it := by
  obtain ⟨past, hpast, hdelivered⟩ := (hrun.scopes it scope hscope).ledger
  have hresolved := resolveScope_sound L depth hrun (hrun.scopes it scope hscope) hpast
  unfold solveScope at h
  rcases hres : resolveScope R L depth run it scope with ⟨verdict, run₁⟩
  rw [hres] at hresolved h
  cases verdict with
  | err e => cases h
  | stuck => cases h
  | ok =>
    obtain ⟨scope', hr⟩ := hresolved rfl
    have hlt := (List.getElem?_eq_some_iff.1 hscope).1
    have hhere : run₁.scopes[it]? = some scope' := by rw [hr.scopes, List.getElem?_set_self hlt]
    simp only [hhere] at h
    cases h
    exact ⟨past, run₁, scope', hdelivered, hr, rfl, hhere, rfl⟩

/-- The run after a scope, before its boundaries are delivered. -/
theorem solveScope_sound (L : Listing) (depth : ℕ) (hrun : run.Inv R)
    (hscope : run.scopes[it]? = some scope)
    (hok : (solveScope R L depth run it scope).1 = .ok) :
    (solveScope R L depth run it scope).2.Inv R := by
  rcases hres : solveScope R L depth run it scope with ⟨verdict, run'⟩
  rw [hres] at hok
  cases hok
  obtain ⟨past, run₁, scope', hdelivered, hr, -, hhere, rfl⟩ := solveScope_ok hrun hscope hres
  -- the boundaries are delivered from a run that differs in its result only
  let base := run₁.commitScope L it scope'
  obtain ⟨hspread, hposted⟩ := Run.foldl_processBoundary_spec it run₁.boundaries base
  let done := run₁.boundaries.foldl (Run.processBoundary it) base
  have hregistry : done.registry = run₁.registry := hspread.registry
  have hmet : done.met = run₁.met := hspread.met
  have hpicks : done.picks = run₁.picks := hspread.picks
  have hvisited : done.visited = run.visited := hspread.visited.trans hr.visited
  show ({ done with boundaries := [] } : Run).Inv R
  refine ⟨?_, rfl, hvisited.trans hrun.visited⟩
  intro i scope₂ hi
  have hi : done.scopes[i]? = some scope₂ := hi
  cases hbase : run₁.scopes[i]? with
  | none => exact (hspread.fresh i scope₂ hi hbase).inv rfl
  | some scope₁ =>
    obtain ⟨scope₂', hi', hg⟩ := hspread.old i scope₁ hbase
    rw [hi] at hi'
    cases hi'
    have hd : ∀ src b, run.Delivered src b →
        ({ done with boundaries := [] } : Run).Delivered src b := by
      intro src b h
      have hsolved : run₁.Delivered src b := h.resolved hscope hr
      have hbase : base.Delivered src b := hsolved
      have hdone : done.Delivered src b := hbase.spread hspread
      exact hdone
    by_cases hit : i = it
    · subst hit
      rw [hhere] at hbase
      cases hbase
      refine ⟨?_, ⟨past ++ run₁.boundaries, ?_, ?_⟩, ?_⟩
      · rw [hg.cursor, hr.cursor]
        exact hg.reqs.length_le
      · refine hr.inv.turn hg.named (hvisited.trans hr.visited.symm) (hregistry ▸ .refl _)
          (hmet ▸ List.prefix_refl _) hpicks.ge rfl ?_
        rintro b (hb | hb)
        · exact List.mem_append_left _ hb
        · exact List.mem_append_right _ hb
      · intro b hb
        rcases List.mem_append.1 hb with hb | hb
        · exact hd i b (hdelivered b hb)
        · exact hposted b hb
      · intro req hreq hplain
        obtain ⟨tail, htail⟩ := hg.reqs
        rw [hg.cursor, hr.cursor, ← htail, List.take_left] at hreq
        obtain ⟨pkg, hpkg, hmeets⟩ := hr.answered req hreq hplain
        exact ⟨pkg, hg.named ▸ hpkg, hmeets.mono (hmet ▸ List.prefix_refl _)⟩
    · rw [hr.scopes, List.getElem?_set_ne (Ne.symm hit)] at hbase
      exact (hrun.scopes i scope₁ hbase).later hg hvisited (hregistry ▸ hr.registry)
        (hmet ▸ hr.met) (hpicks ▸ hr.picks) hrun.boundaries rfl (hd i)

/-- The loop ends with every scope solved. -/
theorem solveScopes_sound (L : Listing) (depth : ℕ) :
    ∀ {fuel it : ℕ} {progress : Bool} {run : Run}, run.Inv R →
      (progress = false → ∀ i < it, ∀ scope, run.scopes[i]? = some scope →
        scope.cursor = scope.reqs.length) →
      (solveScopes R L depth fuel it progress run).1 = .ok →
        (solveScopes R L depth fuel it progress run).2.Inv R ∧
        ∀ (i : ℕ) (scope : Scope),
          (solveScopes R L depth fuel it progress run).2.scopes[i]? = some scope →
          scope.cursor = scope.reqs.length := by
  intro fuel
  induction fuel with
  | zero =>
    intro it progress run _ _ hok
    cases hok
  | succ fuel ih =>
    intro it progress run hrun hbelow hok
    unfold solveScopes at hok ⊢
    cases hscope : run.scopes[it]? with
    | none =>
      simp only [hscope] at hok ⊢
      cases progress with
      | true => exact ih hrun (fun _ i hi => absurd hi (Nat.not_lt_zero i)) hok
      | false =>
        refine ⟨hrun, fun i scope hi => hbelow rfl i ?_ scope hi⟩
        have hge : run.scopes.length ≤ it := List.getElem?_eq_none_iff.1 hscope
        exact (List.getElem?_eq_some_iff.1 hi).1.trans_le hge
    | some scope =>
      simp only [hscope] at hok ⊢
      by_cases hcursor : scope.cursor = scope.reqs.length
      · rw [if_pos hcursor] at hok ⊢
        refine ih hrun (fun hp i hi scope' hi' => ?_) hok
        rcases Nat.lt_succ_iff_lt_or_eq.1 hi with hi | rfl
        · exact hbelow hp i hi scope' hi'
        · rw [hscope] at hi'
          cases hi'
          exact hcursor
      · rw [if_neg hcursor] at hok ⊢
        have hsound := solveScope_sound L depth hrun hscope
        rcases hres : solveScope R L depth run it scope with ⟨verdict, run₁⟩
        rw [hres] at hsound hok
        cases verdict with
        | err e => cases hok
        | stuck => cases hok
        | ok => exact ih (hsound rfl) (fun h => by cases h) hok

end

end Spn.Resolve
