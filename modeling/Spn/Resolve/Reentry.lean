import Spn.Resolve.Identity
import Spn.Resolve.Registered

/-! # Scopes that are entered again

A scope can be asked again after it was solved: another scope holds a package of the
same name and version as its owner, and posts its boundaries. The source takes it that
these requests were asked before. They were when the packages are one; a package of
the index and one of the project may ask for different things.
-/
namespace Spn.Resolve

open Spn.Lib

/-- The request `add_root` makes. -/
def rootRequest (name : Str) : Req := ⟨name, .package, false, .root⟩

/-- The loop of `solve_once`, before it looks at the scope `it`. -/
inductive Reached (R : Resolver) (L : Listing) (depth : ℕ) (start : Run) : ℕ → Run → Prop
  | start : Reached R L depth start 0 start
  | skip {it : ℕ} {run : Run} {scope : Scope} : Reached R L depth start it run →
      run.scopes[it]? = some scope → scope.cursor = scope.reqs.length →
      Reached R L depth start (it + 1) run
  | solve {it : ℕ} {run run' : Run} {scope : Scope} : Reached R L depth start it run →
      run.scopes[it]? = some scope → scope.cursor ≠ scope.reqs.length →
      solveScope R L depth run it scope = (.ok, run') → Reached R L depth start (it + 1) run'
  | again {it : ℕ} {run : Run} : Reached R L depth start it run → run.scopes[it]? = none →
      Reached R L depth start 0 run

/-- What a node asks for across its boundaries with this root. -/
def Resolver.asks (R : Resolver) (registry : Registry) (node : ResolvedPkg) (root : Str) :
    List Req :=
  (node.deps.filter fun dep =>
    match R.classifyDep registry node dep with
    | .process => dep.qualified = root
    | .isPrivate => node.id.qualified = root
    | .scope | .pruned => false).map Req.asPlain

theorem Resolver.mem_asks {R : Resolver} {registry : Registry} {node : ResolvedPkg} {root : Str}
    {req : Req} : req ∈ R.asks registry node root ↔ ∃ b : Boundary, b.owner = node.id ∧
      b.req ∈ node.deps ∧ b.edge = R.classifyDep registry node b.req ∧
      (b.edge = .process ∨ b.edge = .isPrivate) ∧ b.root = root ∧ req = b.req.asPlain := by
  unfold Resolver.asks
  simp only [List.mem_map, List.mem_filter]
  constructor
  · rintro ⟨dep, ⟨hdep, hclass⟩, rfl⟩
    refine ⟨⟨node.id, R.classifyDep registry node dep, dep⟩, rfl, hdep, rfl, ?_, ?_, rfl⟩
    · cases hc : R.classifyDep registry node dep <;> simp [hc] at hclass ⊢
    · cases hc : R.classifyDep registry node dep <;> simp [hc] at hclass
      · simpa [Boundary.root] using hclass
      · simpa [Boundary.root] using hclass
  · rintro ⟨⟨owner, edge, dep⟩, rfl, hdep, hclass, hedge, hroot, rfl⟩
    refine ⟨dep, ⟨hdep, ?_⟩, rfl⟩
    simp only at hclass hedge
    subst hclass
    rcases hedge with hc | hc
    · simpa [hc, Boundary.root] using hroot
    · simpa [hc, Boundary.root] using hroot

/-- What a scope of this key is asked in one go: by the query, or by a node that is
held. -/
inductive Run.Batch (R : Resolver) (reqs : List Req) (run : Run) : Str → PkgId → List Req → Prop
  | query : Run.Batch R reqs run [] rootId reqs
  | node {key : GroupNode} {node : ResolvedPkg} (root : Str) : run.nodeAt key = some node →
      Run.Batch R reqs run root node.id (R.asks run.registry node root)

/-- Whoever has the same name and version asks a scope for the same things. -/
def Run.Agrees (R : Resolver) (reqs : List Req) (run : Run) : Prop :=
  ∀ root owner owner' batch batch', run.Batch R reqs root owner batch →
    run.Batch R reqs root owner' batch' → owner.eqv owner' = true → batch' ≠ [] →
    ∀ req ∈ batch, req ∈ batch'

section

variable {R : Resolver} {L : Listing} {depth : ℕ} {reqs : List Req} {run run' : Run}

theorem Run.Batch.later (hmade : ∀ key node, run.nodeAt key = some node → Made R run.registry node)
    (hnodes : ∀ key node, run.nodeAt key = some node → run'.nodeAt key = some node)
    (hregistry : run.registry.Extends run'.registry) {root : Str} {owner : PkgId}
    {batch : List Req} (h : run.Batch R reqs root owner batch) :
    run'.Batch R reqs root owner batch := by
  cases h with
  | query => exact .query
  | @node key node _ hn =>
    have hasks : R.asks run.registry node root = R.asks run'.registry node root := by
      unfold Resolver.asks
      simp only [(hmade key node hn).classifyDep_eq hregistry]
    rw [hasks]
    exact .node root (hnodes key node hn)

/-- Where the requests of the scopes come from, and that a scope that was entered was
asked everything one of those who ask it asks. -/
structure Run.Batched (R : Resolver) (reqs : List Req) (run : Run) : Prop where
  query : ∃ scope, run.scopes[0]? = some scope ∧ run.findScope [] rootId = some 0 ∧
    ∀ req ∈ reqs, req ∈ scope.reqs
  plain : ∀ (i : ℕ) (scope : Scope), run.scopes[i]? = some scope →
    ∀ req ∈ scope.reqs, req.plain = true
  source : ∀ (i : ℕ) (scope : Scope), run.scopes[i]? = some scope → ∀ req ∈ scope.reqs,
    ∃ owner batch, run.Batch R reqs scope.root owner batch ∧ req ∈ batch ∧
      run.findScope scope.root owner = some i
  entered : ∀ (i : ℕ) (scope : Scope), run.scopes[i]? = some scope → 0 < scope.cursor →
    ∃ owner batch, run.Batch R reqs scope.root owner batch ∧ batch ≠ [] ∧
      run.findScope scope.root owner = some i ∧ ∀ req ∈ batch, req ∈ scope.reqs.take scope.cursor

theorem startRun_batched (R : Resolver) (registry : Registry) (forced : Option Pin)
    (hplain : ∀ req ∈ reqs, req.plain = true) :
    (startRun R registry forced reqs).Batched R reqs := by
  have hfind : (startRun R registry forced reqs).findScope [] rootId = some 0 := rfl
  have hscope : ∀ (i : ℕ) (scope : Scope),
      (startRun R registry forced reqs).scopes[i]? = some scope →
      i = 0 ∧ scope = { Scope.fresh [] rootId with reqs := reqs } := by
    intro i scope hi
    rw [startRun, List.getElem?_singleton] at hi
    split at hi
    · rename_i h0
      cases hi
      exact ⟨h0, rfl⟩
    · cases hi
  refine ⟨⟨_, rfl, hfind, fun req h => h⟩, ?_, ?_, ?_⟩
  · intro i scope hi req hreq
    obtain ⟨-, rfl⟩ := hscope i scope hi
    exact hplain req hreq
  · intro i scope hi req hreq
    obtain ⟨rfl, rfl⟩ := hscope i scope hi
    exact ⟨_, _, .query, hreq, hfind⟩
  · intro i scope hi hc
    obtain ⟨rfl, rfl⟩ := hscope i scope hi
    exact absurd hc (Nat.lt_irrefl 0)

/-! ## The requests of a scope -/

theorem findOrCreateScope_reqs {root : Str} {owner : PkgId} {i : ℕ} {scope' : Scope}
    (h : (run.findOrCreateScope root owner).2.scopes[i]? = some scope') {req : Req}
    (hreq : req ∈ scope'.reqs) : ∃ scope, run.scopes[i]? = some scope ∧ req ∈ scope.reqs := by
  unfold Run.findOrCreateScope at h
  cases hf : run.findScope root owner with
  | some it =>
    simp only [hf] at h
    exact ⟨scope', h, hreq⟩
  | none =>
    simp only [hf] at h
    rcases lt_or_ge i run.scopes.length with hlt | hge
    · rw [List.getElem?_append_left hlt] at h
      exact ⟨scope', h, hreq⟩
    · rw [List.getElem?_append_right hge, List.getElem?_singleton] at h
      split at h
      · cases h
        cases hreq
      · cases h

/-- A request of a scope was there before the boundary, or came across it. -/
theorem processBoundary_reqs (src : ℕ) {b : Boundary} {i : ℕ} {scope' : Scope}
    (h : (Run.processBoundary src run b).scopes[i]? = some scope') {req : Req}
    (hreq : req ∈ scope'.reqs) :
    (∃ scope, run.scopes[i]? = some scope ∧ req ∈ scope.reqs) ∨
      req = b.req.asPlain ∧ (Run.processBoundary src run b).findScope b.root b.owner = some i := by
  obtain ⟨hspread, hfind⟩ := run.findOrCreateScope_spec b.root b.owner
  have hscopes : (Run.processBoundary src run b).scopes =
      (run.findOrCreateScope b.root b.owner).2.scopes.modify
        (run.findOrCreateScope b.root b.owner).1 (·.push b.req.asPlain) := rfl
  rw [hscopes, List.getElem?_modify] at h
  obtain ⟨scope₁, hscope₁, rfl⟩ := Option.map_eq_some_iff.1 h
  by_cases hi : (run.findOrCreateScope b.root b.owner).1 = i
  · rw [if_pos hi] at hreq
    rcases List.mem_append.1 hreq with hreq | hreq
    · exact .inl (findOrCreateScope_reqs hscope₁ hreq)
    · refine .inr ⟨List.mem_singleton.1 hreq, ?_⟩
      have hpush := (run.findOrCreateScope b.root b.owner).2.spreads_push src
        (run.findOrCreateScope b.root b.owner).1 (b.edge = .isPrivate) b.req.plain_asPlain
      rw [← hi]
      exact Run.findScope_of_keys hfind hpush.keys
  · rw [if_neg hi] at hreq
    exact .inl (findOrCreateScope_reqs hscope₁ hreq)

theorem foldl_processBoundary_reqs (src : ℕ) (bs : List Boundary) (run : Run) {i : ℕ}
    {scope' : Scope} (h : (bs.foldl (Run.processBoundary src) run).scopes[i]? = some scope')
    {req : Req} (hreq : req ∈ scope'.reqs) :
    (∃ scope, run.scopes[i]? = some scope ∧ req ∈ scope.reqs) ∨
      ∃ b ∈ bs, req = b.req.asPlain ∧
        (bs.foldl (Run.processBoundary src) run).findScope b.root b.owner = some i := by
  induction bs generalizing run with
  | nil => exact .inl ⟨scope', h, hreq⟩
  | cons b rest ih =>
    rw [List.foldl_cons] at h ⊢
    rcases ih _ h with ⟨scope₁, hscope₁, hreq₁⟩ | ⟨b', hb', heq, hfind⟩
    · rcases processBoundary_reqs src hscope₁ hreq₁ with hold | ⟨heq, hfind⟩
      · exact .inl hold
      · obtain ⟨hspread, -⟩ :=
          Run.foldl_processBoundary_spec src rest (Run.processBoundary src run b)
        exact .inr ⟨b, List.mem_cons_self, heq, Run.findScope_of_keys hfind hspread.keys⟩
    · exact .inr ⟨b', List.mem_cons_of_mem _ hb', heq, hfind⟩

theorem Run.Inv.made (hrun : run.Inv R) {key : GroupNode} {node : ResolvedPkg}
    (hn : run.nodeAt key = some node) : Made R run.registry node := by
  obtain ⟨scope, hscope, held⟩ := Run.nodeAt_eq_some.1 hn
  obtain ⟨past, hinv, -⟩ := (hrun.scopes _ _ hscope).ledger
  exact hinv.made _ _ held

/-- The scope an owner of this name and version finds. -/
theorem Run.findScope_eqv {root : Str} {owner owner' : PkgId} {i : ℕ}
    (h : run.findScope root owner = some i) (h' : run.findScope root owner' = some i) :
    owner.eqv owner' = true := by
  obtain ⟨scope, hscope, his⟩ := Run.exists_of_findScope h
  obtain ⟨scope', hscope', his'⟩ := Run.exists_of_findScope h'
  rw [hscope] at hscope'
  cases hscope'
  simp only [Run.isScope, PkgId.eqv, Bool.and_eq_true, decide_eq_true_eq] at his his' ⊢
  exact ⟨his.2.1.symm.trans his'.2.1, his.2.2.symm.trans his'.2.2⟩

theorem Run.root_of_findScope {root : Str} {owner : PkgId} {i : ℕ} {scope : Scope}
    (h : run.findScope root owner = some i) (hscope : run.scopes[i]? = some scope) :
    scope.root = root := by
  obtain ⟨scope', hscope', his⟩ := Run.exists_of_findScope h
  rw [hscope] at hscope'
  cases hscope'
  simp only [Run.isScope, Bool.and_eq_true, decide_eq_true_eq] at his
  exact his.1

/-- The first time a scope is entered, it was asked all that one of those who ask it
asks. -/
theorem Run.Batched.complete (hrun : run.Inv R) (hb : run.Batched R reqs) {it : ℕ} {scope : Scope}
    (hscope : run.scopes[it]? = some scope) (hne : scope.cursor ≠ scope.reqs.length) :
    ∃ owner batch, run.Batch R reqs scope.root owner batch ∧ batch ≠ [] ∧
      run.findScope scope.root owner = some it ∧ ∀ req ∈ batch, req ∈ scope.reqs := by
  have hlen : scope.reqs ≠ [] := by
    intro hnil
    have hcursor := (hrun.scopes it scope hscope).cursor
    rw [hnil] at hcursor hne
    exact hne (Nat.le_zero.1 hcursor)
  obtain ⟨req, hreq⟩ := List.exists_mem_of_ne_nil _ hlen
  obtain ⟨owner, batch, hbatch, hmem, hfind⟩ := hb.source it scope hscope req hreq
  refine ⟨owner, batch, hbatch, List.ne_nil_of_mem hmem, hfind, ?_⟩
  generalize scope.root = root at hbatch hfind
  cases hbatch with
  | query =>
    obtain ⟨scope₀, hscope₀, hfind₀, hall⟩ := hb.query
    rw [hfind] at hfind₀
    cases hfind₀
    rw [hscope] at hscope₀
    cases hscope₀
    exact hall
  | @node key node _ hn =>
    intro r hr
    obtain ⟨b, howner, hdep, hedge, hcross, hroot, rfl⟩ := Resolver.mem_asks.1 hr
    obtain ⟨owner, edge, dep⟩ := b
    cases howner
    obtain ⟨dst, target, hfind', htarget, hreq', -⟩ := hrun.delivered hn hdep hedge.symm hcross
    rw [hroot, hfind] at hfind'
    cases hfind'
    rw [hscope] at htarget
    cases htarget
    exact hreq'

/-! ## What one scope of the loop leaves -/

/-- The scopes before and after the scope `it` was solved: it was asked nothing but what
it had answered then, and the others were only asked more. -/
structure Run.Turned (R : Resolver) (run : Run) (it : ℕ) (run' : Run) : Prop where
  keys : run.scopes.map Scope.key <+: run'.scopes.map Scope.key
  registry : run.registry.Extends run'.registry
  old : ∀ (i : ℕ) (scope : Scope), run.scopes[i]? = some scope →
    ∃ scope', run'.scopes[i]? = some scope' ∧ scope'.key = scope.key ∧
      (∀ (name : Str) (node : ResolvedPkg), scope.named[name]? = some node →
        scope'.named[name]? = some node) ∧
      (∀ req ∈ scope.reqs, req ∈ scope'.reqs) ∧ (i ≠ it → scope.Grows scope') ∧
      (i = it → ∀ req ∈ scope.reqs, req ∈ scope'.reqs.take scope'.cursor)
  fresh : ∀ (i : ℕ) (scope' : Scope), run'.scopes[i]? = some scope' → run.scopes[i]? = none →
    scope'.Untouched
  asked : ∀ (i : ℕ) (scope' : Scope), run'.scopes[i]? = some scope' → ∀ req ∈ scope'.reqs,
    (∃ scope, run.scopes[i]? = some scope ∧ req ∈ scope.reqs) ∨
      ∃ (key : GroupNode) (node : ResolvedPkg) (b : Boundary), run'.nodeAt key = some node ∧
        b.owner = node.id ∧ b.req ∈ node.deps ∧
        R.classifyDep run'.registry node b.req = b.edge ∧
        (b.edge = .process ∨ b.edge = .isPrivate) ∧ req = b.req.asPlain ∧
        run'.findScope b.root b.owner = some i

theorem solveScope_turned (hrun : run.Inv R) {it : ℕ} {scope : Scope}
    (hscope : run.scopes[it]? = some scope) (hplain : ∀ req ∈ scope.reqs, req.plain = true)
    (h : solveScope R L depth run it scope = (.ok, run')) : run.Turned R it run' := by
  obtain ⟨past, run₁, scope', -, hr, -, hhere, rfl⟩ := solveScope_ok hrun hscope h
  let base := run₁.commitScope L it scope'
  obtain ⟨hspread, -⟩ := Run.foldl_processBoundary_spec it run₁.boundaries base
  have hlt := (List.getElem?_eq_some_iff.1 hscope).1
  have hregistry : (base.processBoundaries it).registry = run₁.registry := hspread.registry
  have hother : ∀ i, i ≠ it → run₁.scopes[i]? = run.scopes[i]? := by
    intro i hi
    rw [hr.scopes, List.getElem?_set_ne (Ne.symm hi)]
  refine ⟨?_, ?_, ?_, ?_, ?_⟩
  · have hkeys : run₁.scopes.map Scope.key <+: (base.processBoundaries it).scopes.map Scope.key :=
      hspread.keys
    rwa [hr.keys hscope] at hkeys
  · exact hregistry ▸ hr.registry
  · intro i scope₁ hi
    by_cases hit : i = it
    · subst hit
      rw [hscope] at hi
      cases hi
      obtain ⟨scope₂, hi₂, hg⟩ := hspread.old i scope' hhere
      refine ⟨scope₂, hi₂, hg.key.trans hr.key, ?_, ?_, fun h => absurd rfl h, fun _ => ?_⟩
      · exact fun name node held => hg.named ▸ hr.held name node held
      · exact fun req hreq => hg.reqs.subset (hr.reqs.mem_iff.2 hreq)
      · intro req hreq
        obtain ⟨tail, htail⟩ := hg.reqs
        rw [hg.cursor, hr.cursor, ← htail, List.take_left]
        exact hr.reqs.mem_iff.2 hreq
    · have hi₁ : base.scopes[i]? = some scope₁ := by rw [← hi]; exact hother i hit
      obtain ⟨scope₂, hi₂, hg⟩ := hspread.old i scope₁ hi₁
      exact ⟨scope₂, hi₂, hg.key, fun name node held => hg.named ▸ held,
        fun req hreq => hg.reqs.subset hreq, fun _ => hg, fun h => absurd h hit⟩
  · intro i scope₂ hi hnone
    refine hspread.fresh i scope₂ hi ?_
    have hge := List.getElem?_eq_none_iff.1 hnone
    have hne : i ≠ it := by omega
    exact (hother i hne).trans hnone
  · intro i scope₂ hi req hreq
    rcases foldl_processBoundary_reqs it run₁.boundaries base hi hreq with
      ⟨scope₁, hscope₁, hreq₁⟩ | ⟨b, hb, rfl, hfind⟩
    · refine .inl ?_
      by_cases hit : i = it
      · subst hit
        have hsame : scope' = scope₁ := Option.some.inj (hhere.symm.trans hscope₁)
        subst hsame
        exact ⟨scope, hscope, hr.reqs.mem_iff.1 hreq₁⟩
      · exact ⟨scope₁, (hother i hit).symm.trans hscope₁, hreq₁⟩
    · -- what the scope itself was asked is plain, and crosses no boundary
      rcases hr.inv.posted b hb with ⟨-, hasked, hnot⟩ | ⟨node, held, howner, hdep, hclass, hcross⟩
      · rw [hplain b.req (hr.reqs.mem_iff.1 hasked)] at hnot
        cases hnot
      · obtain ⟨scope₃, hi₃, hg⟩ := hspread.old it scope' hhere
        refine .inr ⟨⟨it, b.owner.qualified⟩, node, b, ?_, howner.symm, hdep, ?_, hcross, rfl, hfind⟩
        · exact Run.nodeAt_eq_some.2 ⟨scope₃, hi₃, hg.named ▸ held⟩
        · rw [hregistry]
          exact hclass

theorem Run.Turned.nodeAt {it : ℕ} (h : run.Turned R it run') {key : GroupNode}
    {node : ResolvedPkg} (hn : run.nodeAt key = some node) : run'.nodeAt key = some node := by
  obtain ⟨scope, hscope, held⟩ := Run.nodeAt_eq_some.1 hn
  obtain ⟨scope', hscope', -, hheld, -⟩ := h.old _ _ hscope
  exact Run.nodeAt_eq_some.2 ⟨scope', hscope', hheld _ _ held⟩

theorem Run.Batched.turned (hrun : run.Inv R) (hb : run.Batched R reqs) {it : ℕ} {scope : Scope}
    (hscope : run.scopes[it]? = some scope) (hne : scope.cursor ≠ scope.reqs.length)
    (h : run.Turned R it run') : run'.Batched R reqs := by
  have hlater : ∀ {root : Str} {owner : PkgId} {batch : List Req},
      run.Batch R reqs root owner batch → run'.Batch R reqs root owner batch :=
    fun hbatch => hbatch.later (fun _ _ => hrun.made) (fun _ _ => h.nodeAt) h.registry
  have hroot : ∀ {a b : Scope}, b.key = a.key → b.root = a.root := fun hk => congrArg Prod.fst hk
  refine ⟨?_, ?_, ?_, ?_⟩
  · obtain ⟨scope₀, hscope₀, hfind, hall⟩ := hb.query
    obtain ⟨scope', hscope', -, -, hreqs, -⟩ := h.old 0 scope₀ hscope₀
    exact ⟨scope', hscope', Run.findScope_of_keys hfind h.keys, fun req hreq => hreqs req (hall req hreq)⟩
  · intro i scope' hi req hreq
    rcases h.asked i scope' hi req hreq with
      ⟨scope₁, hscope₁, hreq₁⟩ | ⟨-, -, b, -, -, -, -, -, rfl, -⟩
    · exact hb.plain i scope₁ hscope₁ req hreq₁
    · exact b.req.plain_asPlain
  · intro i scope' hi req hreq
    rcases h.asked i scope' hi req hreq with
      ⟨scope₁, hscope₁, hreq₁⟩ | ⟨key, node, b, hn, howner, hdep, hclass, hcross, rfl, hfind⟩
    · obtain ⟨owner, batch, hbatch, hmem, hfind⟩ := hb.source i scope₁ hscope₁ req hreq₁
      obtain ⟨scope₂, hscope₂, hkey, -⟩ := h.old i scope₁ hscope₁
      rw [hi] at hscope₂
      cases hscope₂
      rw [← hroot hkey] at hbatch hfind
      exact ⟨owner, batch, hlater hbatch, hmem, Run.findScope_of_keys hfind h.keys⟩
    · have hsame := Run.root_of_findScope hfind hi
      rw [howner, ← hsame] at hfind
      refine ⟨node.id, _, .node scope'.root hn, ?_, hfind⟩
      exact Resolver.mem_asks.2 ⟨b, howner, hdep, hclass.symm, hcross, hsame.symm, rfl⟩
  · intro i scope' hi hpos
    cases hi₀ : run.scopes[i]? with
    | none =>
      have huntouched := h.fresh i scope' hi hi₀
      exact absurd huntouched.1 hpos.ne'
    | some scope₁ =>
      obtain ⟨scope₂, hscope₂, hkey, -, -, hgrows, hsolved⟩ := h.old i scope₁ hi₀
      rw [hi] at hscope₂
      cases hscope₂
      by_cases hit : i = it
      · subst hit
        rw [hscope] at hi₀
        cases hi₀
        obtain ⟨owner, batch, hbatch, hnil, hfind, hall⟩ := hb.complete hrun hscope hne
        rw [← hroot hkey] at hbatch hfind
        exact ⟨owner, batch, hlater hbatch, hnil, Run.findScope_of_keys hfind h.keys,
          fun req hreq => hsolved rfl req (hall req hreq)⟩
      · have hg := hgrows hit
        obtain ⟨owner, batch, hbatch, hnil, hfind, hall⟩ := hb.entered i scope₁ hi₀ (hg.cursor ▸ hpos)
        rw [← hroot hkey] at hbatch hfind
        refine ⟨owner, batch, hlater hbatch, hnil, Run.findScope_of_keys hfind h.keys, fun req hreq => ?_⟩
        rw [hg.cursor]
        exact (hg.reqs.take scope₁.cursor).subset (hall req hreq)

/-! ## The run of the loop -/

/-- A scope that has something to solve is stuck without depth. -/
theorem solveScope_zero {it : ℕ} {scope : Scope} (hlt : scope.cursor < scope.reqs.length) :
    (solveScope R L 0 run it scope).1 = .stuck := by
  have hfresh : Req.canonical (scope.reqs.drop scope.cursor) ≠ [] := by
    intro hnil
    have hperm := Req.canonical_perm (scope.reqs.drop scope.cursor)
    rw [hnil] at hperm
    exact List.ne_nil_of_length_pos (by rw [List.length_drop]; omega) hperm.symm.eq_nil
  have hreqs : ∀ (holds : Holds) (s : Search),
      solveReqs R holds 0 (Req.canonical (scope.reqs.drop scope.cursor)) s = (.stuck, s) := by
    intro holds s
    obtain ⟨req, rest, heq⟩ := List.exists_cons_of_ne_nil hfresh
    rw [heq]
    rfl
  have hscope : (resolveScope R L 0 run it scope).1 = .stuck := by
    unfold resolveScope
    simp only
    split
    · rw [hreqs]
    · unfold resolvePinned attemptReqs
      rw [hreqs]
  unfold solveScope
  split
  case h_1 hres =>
    rw [hres] at hscope
    cases hscope
  case h_2 => exact hscope

variable {registry : Registry} {forced : Option Pin} {name : Str}

/-- The invariants of the loop, in every state it reaches. -/
theorem Reached.inv {it : ℕ}
    (h : Reached R L depth (startRun R registry forced [rootRequest name]) it run) :
    run.Inv R ∧ run.Batched R [rootRequest name] := by
  induction h with
  | start =>
    refine ⟨startRun_inv R registry forced _, startRun_batched R registry forced ?_⟩
    intro req hreq
    rw [List.mem_singleton.1 hreq]
    rfl
  | skip _ _ _ ih => exact ih
  | again _ _ ih => exact ih
  | solve _ hscope hne hsolve ih =>
    have hinv := solveScope_sound L depth ih.1 hscope (congrArg Prod.fst hsolve)
    rw [hsolve] at hinv
    have hturned := solveScope_turned ih.1 hscope (ih.2.plain _ _ hscope) hsolve
    exact ⟨hinv, ih.2.turned ih.1 hscope hne hturned⟩

/-- No scope is entered without depth. -/
theorem Reached.depth_pos {it : ℕ}
    (h : Reached R L depth (startRun R registry forced [rootRequest name]) it run) {i : ℕ}
    {scope : Scope} (hscope : run.scopes[i]? = some scope) (hpos : 0 < scope.cursor) :
    0 < depth := by
  rcases Nat.eq_zero_or_pos depth with rfl | hdepth
  · exfalso
    induction h generalizing i scope with
    | start =>
      rw [startRun, List.getElem?_singleton] at hscope
      split at hscope
      · cases hscope
        exact Nat.lt_irrefl 0 hpos
      · cases hscope
    | skip _ _ _ ih => exact ih hscope hpos
    | again _ _ ih => exact ih hscope hpos
    | solve hreached hturn hne hsolve ih =>
      have hcursor := (hreached.inv.1.scopes _ _ hturn).cursor
      cases (congrArg Prod.fst hsolve).symm.trans (solveScope_zero (lt_of_le_of_ne hcursor hne))
  · exact hdepth

/-- What the scope holds already costs nothing to ask for. -/
theorem solveReqs_held (R : Resolver) (depth : ℕ) (holds : Holds) (asked : List Req) {s : Search}
    (hvisited : s.visited = ∅)
    (hheld : ∀ req ∈ asked, req.plain = true ∧
      ∃ pkg, s.named[req.qualified]? = some pkg ∧ Meets s.met pkg req) :
    ∃ met, solveReqs R holds (depth + 1) asked s = (.ok, { s with met := met }) := by
  unfold solveReqs
  induction asked generalizing s with
  | nil => exact ⟨s.met, rfl⟩
  | cons req rest ih =>
    obtain ⟨hplain, pkg, hpkg, hmeets⟩ := hheld req List.mem_cons_self
    let met := s.met ++ [⟨rootId, holds, req, pkg⟩]
    have hfree : req.qualified ∉ s.visited := by
      rw [hvisited]
      exact Finset.notMem_empty _
    have hstep : resolveDep R holds (depth + 1) s rootNode req = (.ok, { s with met := met }) := by
      unfold resolveDep
      rw [Req.plain_classifyDep hplain]
      simp only
      cases hsource : req.source with
      | index range =>
        simp only [Meets, hsource] at hmeets
        simp only [resolveIndexPackage, if_neg hfree, hpkg, if_pos hmeets]
        rfl
      | root =>
        simp only [resolveLocalPackage, if_neg hfree, hpkg]
        rfl
      | file path =>
        simp only [resolveLocalPackage, if_neg hfree, hpkg]
        rfl
    have hrest : ∀ r ∈ rest, r.plain = true ∧
        ∃ pkg, s.named[r.qualified]? = some pkg ∧ Meets met pkg r := by
      intro r hr
      obtain ⟨hp, pkg', hpkg', hm⟩ := hheld r (List.mem_cons_of_mem _ hr)
      exact ⟨hp, pkg', hpkg', hm.mono (List.prefix_append _ _)⟩
    obtain ⟨met', hmet'⟩ := ih (s := { s with met := met }) hvisited hrest
    refine ⟨met', ?_⟩
    rw [resolveEach, hstep]
    exact hmet'

/-- A registry that knows its packages from the start keeps to them. -/
theorem Reached.known {it : ℕ}
    (h : Reached R L depth (startRun R registry forced [rootRequest name]) it run) :
    R.Known registry run.registry := by
  have hloads := R.loads_known registry
  induction h with
  | start => exact R.known_start registry
  | skip _ _ _ ih => exact ih
  | again _ _ ih => exact ih
  | @solve it run run' scope _ _ _ hsolve ih =>
    have hkeeps := solveScope_keeps L it depth hloads run scope ih
    rw [hsolve] at hkeeps
    exact hkeeps

/-- Where a name and a version stand for one package, they ask for the same things. -/
theorem Run.agrees_of_nodes {start : Registry} (hrun : run.Inv R)
    (hknown : R.Known start run.registry)
    (hroot : ∀ a ∈ R.nodes start, a.id.qualified ≠ [])
    (hnodes : ∀ a ∈ R.nodes start, ∀ b ∈ R.nodes start, a.id.eqv b.id = true → a = b) :
    run.Agrees R reqs := by
  have hbare : ∀ {key : GroupNode} {node : ResolvedPkg}, run.nodeAt key = some node →
      node.bare ∈ R.nodes start := fun hn => (hrun.made hn).mem_nodes hknown
  have hnamed : ∀ {key : GroupNode} {node : ResolvedPkg}, run.nodeAt key = some node →
      node.id.qualified ≠ [] := fun hn => hroot (ResolvedPkg.bare _) (hbare hn)
  intro root owner owner' batch batch' hbatch hbatch' heqv _ req hreq
  cases hbatch with
  | query =>
    cases hbatch' with
    | query => exact hreq
    | node _ hn' =>
      simp only [PkgId.eqv, Bool.decide_and, Bool.and_eq_true, decide_eq_true_eq] at heqv
      exact absurd heqv.1.symm (hnamed hn')
  | @node key node _ hn =>
    cases hbatch' with
    | query =>
      simp only [PkgId.eqv, Bool.decide_and, Bool.and_eq_true, decide_eq_true_eq] at heqv
      exact absurd heqv.1 (hnamed hn)
    | @node key' node' _ hn' =>
      have hsame : node.bare = node'.bare := hnodes _ (hbare hn) _ (hbare hn') heqv
      have hasks : R.asks run.registry node root = R.asks run.registry node'.bare root := by
        rw [← hsame]
        rfl
      rw [hasks] at hreq
      exact hreq

/-- The search `resolve_scope` begins in a scope. -/
def Run.beginning (R : Resolver) (run : Run) (scope : Scope) : Search :=
  ({ run with budget := R.budget } : Run).search scope.sorted

end

/-- In every run of `solve_once` in which those of one name and version always ask a scope
for the same things, entering a scope again answers the new requests with the names the
scope holds: no budget is spent, no name and no boundary is added. -/
theorem reentry_adds_nothing {R : Resolver} {L : Listing} {depth : ℕ} {registry : Registry}
    {forced : Option Pin} {name : Str}
    (hagrees : ∀ it run, Reached R L depth (startRun R registry forced [rootRequest name]) it run →
      run.Agrees R [rootRequest name])
    {it : ℕ} {run : Run} {scope : Scope}
    (hreached : Reached R L depth (startRun R registry forced [rootRequest name]) it run)
    (hscope : run.scopes[it]? = some scope) (hentered : 0 < scope.cursor) :
    ∃ met, solveReqs R ⟨run.forced, scope.pins⟩ depth
        (Req.canonical (scope.reqs.drop scope.cursor)) (run.beginning R scope) =
          (.ok, { run.beginning R scope with met := met }) ∧
      resolveScope R L depth run it scope =
        (.ok, { run with
          budget := R.budget
          scopes := run.scopes.set it scope.sorted
          met := met }) := by
  obtain ⟨hinv, hbatched⟩ := hreached.inv
  obtain ⟨depth, rfl⟩ := Nat.exists_eq_succ_of_ne_zero (hreached.depth_pos hscope hentered).ne'
  obtain ⟨owner', batch', hbatch', hnil, hfind', hall⟩ := hbatched.entered it scope hscope hentered
  have hheld : ∀ req ∈ Req.canonical (scope.reqs.drop scope.cursor), req.plain = true ∧
      ∃ pkg, (run.beginning R scope).named[req.qualified]? = some pkg ∧
        Meets (run.beginning R scope).met pkg req := by
    intro req hreq
    have hmem : req ∈ scope.reqs := List.mem_of_mem_drop (Req.mem_canonical.1 hreq)
    obtain ⟨owner, batch, hbatch, hin, hfind⟩ := hbatched.source it scope hscope req hmem
    have heqv := Run.findScope_eqv hfind hfind'
    have hsame := hagrees it run hreached _ owner owner' batch batch' hbatch hbatch' heqv hnil req hin
    have hplain := hbatched.plain it scope hscope req hmem
    exact ⟨hplain, (hinv.scopes it scope hscope).answered req (hall req hsame) hplain⟩
  obtain ⟨met, hsolve⟩ := solveReqs_held R depth ⟨run.forced, scope.pins⟩ _ hinv.visited hheld
  refine ⟨met, hsolve, ?_⟩
  have hresolve : resolveScope R L (depth + 1) run it scope =
      let answer := solveReqs R ⟨run.forced, scope.pins⟩ (depth + 1)
        (Req.canonical (scope.reqs.drop scope.cursor)) (run.beginning R scope)
      (answer.1, ({ run with budget := R.budget } : Run).absorb it scope.sorted answer.2) :=
    if_pos (.inl hentered)
  rw [hresolve, hsolve]
  rfl

/-! ## Scopes that are entered again -/

/-- The versions of a major version. -/
def major (n : ℕ) : Range := ⟨⟨⟨n, 0, 0⟩, .geq⟩, ⟨⟨n + 1, 0, 0⟩, .lt⟩, .caret⟩

/-- The package x, which is built with y, and two versions of y. -/
def builtWith : Index :=
  (Index.empty.add (str "x")
    ⟨[release "x" ⟨1, 0, 0⟩ [⟨str "y", .build, false, major 1, []⟩] []], by simp⟩
    (by simp [release])).add (str "y")
      ⟨[release "y" ⟨1, 0, 0⟩ [] [], release "y" ⟨2, 0, 0⟩ [] []], by simp [release, Version.le]⟩
      (by simp [release])

/-- A root that takes x from the index, and is built with b; b is built with c, which
takes the package x, too. -/
def askedTwice (manifests : List PkgInfo) (x : Req) : Resolver :=
  plainResolver builtWith
    (manifests ++ [manifest "b" [.ofFile "c" .build] [], manifest "c" [x] []])

/-- The x of c is the one of the index. -/
def onePlace : Resolver := askedTwice [] (.ofIndex "x" anyVersion .package)

/-- The x of c is one of the project, which is built with another y. -/
def twoPlaces : Resolver :=
  askedTwice [manifest "x" [.ofIndex "y" (major 2) .build] []] (.ofFile "x" .package)

/-- The run of the root under `R`. -/
def askedTwiceRun (R : Resolver) : Run :=
  startRun R (Registry.empty.insert
    (rootPkg [.ofIndex "x" anyVersion .package, .ofFile "b" .build])) none [rootRequest (str "r")]

/-- The loop of `solve_once`, that many looks at a scope later. -/
def loopState (R : Resolver) (L : Listing) (depth : ℕ) : ℕ → ℕ → Run → Option (ℕ × Run)
  | 0, it, run => some (it, run)
  | steps + 1, it, run =>
    match run.scopes[it]? with
    | none => loopState R L depth steps 0 run
    | some scope =>
      if scope.cursor = scope.reqs.length then loopState R L depth steps (it + 1) run
      else
        match solveScope R L depth run it scope with
        | (.ok, run) => loopState R L depth steps (it + 1) run
        | _ => none

theorem Reached.of_loopState {R : Resolver} {L : Listing} {depth steps it it' : ℕ}
    {start run run' : Run} (h : Reached R L depth start it run)
    (hstate : loopState R L depth steps it run = some (it', run')) :
    Reached R L depth start it' run' := by
  induction steps generalizing it run with
  | zero =>
    cases hstate
    exact h
  | succ steps ih =>
    rw [loopState] at hstate
    split at hstate
    case h_1 hnone => exact ih (.again h hnone) hstate
    case h_2 scope hscope =>
      split at hstate
      case isTrue hdone => exact ih (.skip h hscope hdone) hstate
      case isFalse hne =>
        split at hstate
        case h_1 hsolve => exact ih (.solve h hscope hne hsolve) hstate
        case h_2 => cases hstate

/-- The scope of y is entered a second time for the x that c takes. -/
theorem reentry_adds_nothing_onePlace : ∃ run scope met,
    Reached onePlace .byKey 20 (askedTwiceRun onePlace) 2 run ∧
    run.scopes[2]? = some scope ∧ 0 < scope.cursor ∧ scope.cursor < scope.reqs.length ∧
    resolveScope onePlace .byKey 20 run 2 scope =
      (.ok, { run with
        budget := onePlace.budget
        scopes := run.scopes.set 2 scope.sorted
        met := met }) := by
  have hroot : ∀ a ∈ onePlace.nodes (askedTwiceRun onePlace).registry, a.id.qualified ≠ [] := by
    decide +kernel
  have hone : ∀ a ∈ onePlace.nodes (askedTwiceRun onePlace).registry,
      ∀ b ∈ onePlace.nodes (askedTwiceRun onePlace).registry, a.id.eqv b.id = true → a = b := by
    decide +kernel
  have hagrees : ∀ it run, Reached onePlace .byKey 20 (askedTwiceRun onePlace) it run →
      run.Agrees onePlace [rootRequest (str "r")] :=
    fun it run h => Run.agrees_of_nodes h.inv.1 h.known hroot hone
  have hstate : (loopState onePlace .byKey 20 7 0 (askedTwiceRun onePlace)).bind (fun state =>
      (state.2.scopes[2]?).map fun scope => (state.1, scope.cursor, scope.reqs.length)) =
        some (2, 1, 2) := by decide +kernel
  obtain ⟨⟨it, run⟩, hrun, hlook⟩ := Option.bind_eq_some_iff.1 hstate
  obtain ⟨scope, hscope, heq⟩ := Option.map_eq_some_iff.1 hlook
  obtain ⟨rfl, hcursor, hlength⟩ : it = 2 ∧ scope.cursor = 1 ∧ scope.reqs.length = 2 := by
    simpa using heq
  have hreached := Reached.start.of_loopState hrun
  have hentered : 0 < scope.cursor := by omega
  obtain ⟨met, -, hresolve⟩ := reentry_adds_nothing hagrees hreached hscope hentered
  exact ⟨run, scope, met, hreached, hscope, hentered, by omega, hresolve⟩

/-- The y of the scope is not the one that x is built with. -/
theorem twoPlaces_conflict : ∃ run scope,
    Reached twoPlaces .byKey 20 (askedTwiceRun twoPlaces) 2 run ∧
    run.scopes[2]? = some scope ∧ 0 < scope.cursor ∧ scope.cursor < scope.reqs.length ∧
    (solveReqs twoPlaces ⟨run.forced, scope.pins⟩ 20
      (Req.canonical (scope.reqs.drop scope.cursor)) (run.beginning twoPlaces scope)).1 =
        .err (.unsatisfiable .conflict (str "y") (some (major 2)) [] ⟨0, 0, 0⟩ ⟨1, 0, 0⟩) := by
  have hstate : (loopState twoPlaces .byKey 20 7 0 (askedTwiceRun twoPlaces)).bind (fun state =>
      (state.2.scopes[2]?).map fun scope => (state.1, scope.cursor, scope.reqs.length,
        (solveReqs twoPlaces ⟨state.2.forced, scope.pins⟩ 20
          (Req.canonical (scope.reqs.drop scope.cursor)) (state.2.beginning twoPlaces scope)).1)) =
      some (2, 1, 2,
        .err (.unsatisfiable .conflict (str "y") (some (major 2)) [] ⟨0, 0, 0⟩ ⟨1, 0, 0⟩)) := by
    decide +kernel
  obtain ⟨⟨it, run⟩, hrun, hlook⟩ := Option.bind_eq_some_iff.1 hstate
  obtain ⟨scope, hscope, heq⟩ := Option.map_eq_some_iff.1 hlook
  simp only [Prod.mk.injEq] at heq
  obtain ⟨rfl, hcursor, hlength, hverdict⟩ := heq
  have hreached := Reached.start.of_loopState hrun
  exact ⟨run, scope, hreached, hscope, by omega, by omega, hverdict⟩

end Spn.Resolve
