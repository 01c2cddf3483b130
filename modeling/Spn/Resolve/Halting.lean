import Spn.Resolve.Ends
import Spn.Resolve.Deeper
import Spn.Resolve.Finishing
import Spn.Resolve.Reentry

/-! # The resolver ends

The loop of `solve_once` creates scopes while it runs. It ends because the keys of the
scopes come from a finite set, and because every turn that posts boundaries enters a scope
for the first time or adds a name to one that was entered before: a turn that does
neither only asks for names that are held, and leaves one scope less to look at.
-/
namespace Spn.Resolve

open Spn.Lib

/-! ## The keys of the scopes -/

/-- What `find_scope` compares. -/
def Scope.slot (scope : Scope) : Str × Str × Version :=
  (scope.root, scope.owner.qualified, scope.owner.version)

/-- The key of the scope a boundary leads to. -/
def Boundary.slot (b : Boundary) : Str × Str × Version :=
  (b.root, b.owner.qualified, b.owner.version)

theorem Run.isScope_iff {root : Str} {owner : PkgId} {scope : Scope} :
    Run.isScope root owner scope = true ↔
      scope.slot = (root, owner.qualified, owner.version) := by
  simp [Run.isScope, Scope.slot, PkgId.eqv, Prod.ext_iff]

/-- The names that can be asked for. -/
def Resolver.roots (R : Resolver) (start : Registry) : Finset Str :=
  insert [] (R.names start ∪
    ((R.nodes start).flatMap fun node => node.deps.map Req.qualified).toFinset)

/-- Who can ask. -/
def Resolver.owners (R : Resolver) (start : Registry) : Finset (Str × Version) :=
  insert (rootId.qualified, rootId.version)
    ((R.nodes start).map fun node => (node.id.qualified, node.id.version)).toFinset

/-- The keys a scope can have. -/
def Resolver.slots (R : Resolver) (start : Registry) : Finset (Str × Str × Version) :=
  R.roots start ×ˢ R.owners start

section

variable {R : Resolver} {L : Listing} {start : Registry} {depth : ℕ} {run run' : Run} {it : ℕ}
  {scope : Scope}

/-- A boundary of a node leads to one of these keys. -/
theorem Made.slot_mem {registry : Registry} {node : ResolvedPkg} (h : Made R registry node)
    (hknown : R.Known start registry) {b : Boundary} (howner : node.id = b.owner)
    (hdep : b.req ∈ node.deps) : b.slot ∈ R.slots start := by
  have hnode := h.mem_nodes hknown
  refine Finset.mem_product.2 ⟨?_, ?_⟩
  · refine Finset.mem_insert_of_mem (Finset.mem_union.2 ?_)
    show b.root ∈ _ ∨ b.root ∈ _
    unfold Boundary.root
    split
    · rw [← howner]
      exact .inl (Resolver.mem_names node.bare hnode)
    · refine .inr (List.mem_toFinset.2 (List.mem_flatMap.2 ⟨node.bare, hnode, ?_⟩))
      exact List.mem_map_of_mem hdep
  · refine Finset.mem_insert_of_mem (List.mem_toFinset.2 (List.mem_map.2 ⟨node.bare, hnode, ?_⟩))
    rw [Boundary.slot, ← howner]
    rfl

/-- A key more where there is none of it. -/
theorem findOrCreateScope_slots (root : Str) (owner : PkgId) :
    (run.findOrCreateScope root owner).2.scopes.map Scope.slot = run.scopes.map Scope.slot ∨
      (root, owner.qualified, owner.version) ∉ run.scopes.map Scope.slot ∧
      (run.findOrCreateScope root owner).2.scopes.map Scope.slot =
        run.scopes.map Scope.slot ++ [(root, owner.qualified, owner.version)] := by
  unfold Run.findOrCreateScope
  cases hfind : run.findScope root owner with
  | some it => exact .inl rfl
  | none =>
    refine .inr ⟨?_, by simp [Scope.slot, Scope.fresh]⟩
    intro hmem
    obtain ⟨scope, hscope, heq⟩ := List.mem_map.1 hmem
    have hnone := List.findIdx?_eq_none_iff.1 hfind scope hscope
    rw [Run.isScope_iff.2 heq] at hnone
    cases hnone

theorem processBoundary_slots (run : Run) (src : ℕ) (b : Boundary) :
    (Run.processBoundary src run b).scopes.map Scope.slot = run.scopes.map Scope.slot ∨
      b.slot ∉ run.scopes.map Scope.slot ∧
      (Run.processBoundary src run b).scopes.map Scope.slot =
        run.scopes.map Scope.slot ++ [b.slot] := by
  have hscopes : (Run.processBoundary src run b).scopes =
      (run.findOrCreateScope b.root b.owner).2.scopes.modify
        (run.findOrCreateScope b.root b.owner).1 (·.push b.req.asPlain) := rfl
  have hpush : ∀ (scopes : List Scope) (dst : ℕ),
      (scopes.modify dst (·.push b.req.asPlain)).map Scope.slot = scopes.map Scope.slot := by
    intro scopes dst
    refine List.ext_getElem? fun i => ?_
    rw [List.getElem?_map, List.getElem?_map, List.getElem?_modify]
    cases scopes[i]? with
    | none => rfl
    | some scope => by_cases hi : dst = i <;> simp [hi, Scope.slot, Scope.push]
  rw [hscopes, hpush]
  exact findOrCreateScope_slots b.root b.owner

/-- Every scope keeps a key of its own. -/
theorem foldl_processBoundary_slots (src : ℕ) (bs : List Boundary) (run : Run)
    (hnodup : (run.scopes.map Scope.slot).Nodup) :
    ((bs.foldl (Run.processBoundary src) run).scopes.map Scope.slot).Nodup ∧
      ∀ slot ∈ (bs.foldl (Run.processBoundary src) run).scopes.map Scope.slot,
        slot ∈ run.scopes.map Scope.slot ∨ ∃ b ∈ bs, slot = b.slot := by
  induction bs generalizing run with
  | nil => exact ⟨hnodup, fun slot h => .inl h⟩
  | cons b rest ih =>
    rw [List.foldl_cons]
    rcases processBoundary_slots run src b with hsame | ⟨hnew, hmore⟩
    · obtain ⟨hnodup', hall⟩ := ih (Run.processBoundary src run b) (hsame ▸ hnodup)
      refine ⟨hnodup', fun slot hslot => ?_⟩
      rcases hall slot hslot with hold | ⟨b', hb', heq⟩
      · exact .inl (hsame ▸ hold)
      · exact .inr ⟨b', List.mem_cons_of_mem _ hb', heq⟩
    · have hnodup₁ : ((Run.processBoundary src run b).scopes.map Scope.slot).Nodup := by
        rw [hmore]
        exact List.nodup_append.2 ⟨hnodup, List.nodup_singleton _,
          fun a ha c hc heq => hnew (by rwa [← List.mem_singleton.1 hc, ← heq])⟩
      obtain ⟨hnodup', hall⟩ := ih (Run.processBoundary src run b) hnodup₁
      refine ⟨hnodup', fun slot hslot => ?_⟩
      rcases hall slot hslot with hold | ⟨b', hb', heq⟩
      · rw [hmore] at hold
        rcases List.mem_append.1 hold with hold | hold
        · exact .inl hold
        · exact .inr ⟨b, List.mem_cons_self, List.mem_singleton.1 hold⟩
      · exact .inr ⟨b', List.mem_cons_of_mem _ hb', heq⟩

/-- The scopes of a run are among those there can be. -/
structure Run.Bounded (R : Resolver) (start : Registry) (run : Run) : Prop where
  known : R.Known start run.registry
  nodup : (run.scopes.map Scope.slot).Nodup
  inside : ∀ slot ∈ run.scopes.map Scope.slot, slot ∈ R.slots start
  plain : ∀ (i : ℕ) (scope : Scope), run.scopes[i]? = some scope →
    ∀ req ∈ scope.reqs, req.plain = true
  processes : ∀ scope ∈ run.scopes, scope.processes = []

theorem startRun_bounded (R : Resolver) {registry : Registry} (hknown : R.Known start registry)
    (forced : Option Pin) (name : Str) :
    (startRun R registry forced [rootRequest name]).Bounded R start where
  known := hknown
  nodup := List.nodup_singleton _
  inside slot hslot := by
    rw [List.mem_singleton.1 hslot]
    exact Finset.mem_product.2 ⟨Finset.mem_insert_self _ _, Finset.mem_insert_self _ _⟩
  plain i scope hi req hreq := by
    have hscope := List.mem_singleton.1 (List.mem_of_getElem? hi)
    rw [hscope] at hreq
    rw [List.mem_singleton.1 hreq]
    rfl
  processes scope hscope := by rw [List.mem_singleton.1 hscope]; rfl

/-- What `resolve_scope` writes to the scopes. -/
theorem resolveScope_scopes (R : Resolver) (L : Listing) (depth : ℕ) (run : Run) (it : ℕ)
    (scope : Scope) : ∃ named pins,
    (resolveScope R L depth run it scope).2.scopes =
      run.scopes.set it { scope.sorted with named := named, pins := pins } := by
  unfold resolveScope
  simp only
  split
  · exact ⟨_, scope.pins, rfl⟩
  · exact ⟨_, _, rfl⟩

theorem solveScope_bounded (hrun : run.Inv R) (hb : run.Bounded R start)
    (hscope : run.scopes[it]? = some scope)
    (h : solveScope R L depth run it scope = (.ok, run')) : run'.Bounded R start := by
  have hturned := solveScope_turned hrun hscope (hb.plain it scope hscope) h
  have hknown := solveScope_keeps L it depth (R.loads_known start) run
    scope hb.known
  rw [h] at hknown
  obtain ⟨past, run₁, scope', -, hr, hres, hhere, rfl⟩ := solveScope_ok hrun hscope h
  let base := run₁.commitScope L it scope'
  obtain ⟨hspread, -⟩ := Run.foldl_processBoundary_spec it run₁.boundaries base
  have hslots : run₁.scopes.map Scope.slot = run.scopes.map Scope.slot := by
    have hkey : Scope.slot = (fun key : Str × PkgId => (key.1, key.2.qualified, key.2.version)) ∘
      Scope.key := rfl
    rw [hkey, ← List.map_map, ← List.map_map, hr.keys hscope]
  have hknown₁ : R.Known start run₁.registry := by
    have hregistry : (base.processBoundaries it).registry = run₁.registry := hspread.registry
    rwa [← hregistry]
  obtain ⟨hnodup, hall⟩ := foldl_processBoundary_slots it run₁.boundaries base
    (by rw [show base.scopes = run₁.scopes from rfl, hslots]; exact hb.nodup)
  refine ⟨hknown, hnodup, fun slot hslot => ?_, fun i scope₂ hi req hreq => ?_,
    fun scope₂ hscope₂ => ?_⟩
  · rcases hall slot hslot with hold | ⟨b, hmem, rfl⟩
    · have hold : slot ∈ run₁.scopes.map Scope.slot := hold
      rw [hslots] at hold
      exact hb.inside slot hold
    · rcases hr.inv.posted b hmem with ⟨-, hasked, hnot⟩ | ⟨node, held, howner, hdep, -⟩
      · rw [hb.plain it scope hscope b.req (hr.reqs.mem_iff.1 hasked)] at hnot
        cases hnot
      · exact (hr.inv.made _ _ held).slot_mem hknown₁ howner hdep
  · rcases hturned.asked i scope₂ hi req hreq with
      ⟨scope₁, hscope₁, hreq₁⟩ | ⟨-, -, b, -, -, -, -, -, rfl, -⟩
    · exact hb.plain i scope₁ hscope₁ req hreq₁
    · exact b.req.plain_asPlain
  · obtain ⟨i, hi⟩ := List.getElem?_of_mem hscope₂
    have hbase : ∀ scope₁ ∈ run₁.scopes, scope₁.processes = [] := by
      obtain ⟨named, pins, hwrite⟩ := resolveScope_scopes R L depth run it scope
      rw [hres] at hwrite
      intro scope₁ hscope₁
      rw [show run₁.scopes = _ from hwrite] at hscope₁
      rcases List.mem_or_eq_of_mem_set hscope₁ with hold | rfl
      · exact hb.processes scope₁ hold
      · exact hb.processes scope (List.mem_of_getElem? hscope)
    cases hi₁ : run₁.scopes[i]? with
    | none => exact (hspread.fresh i scope₂ hi hi₁).2.2.2
    | some scope₁ =>
      obtain ⟨scope₃, hscope₃, hg⟩ := hspread.old i scope₁ hi₁
      have hsame : scope₂ = scope₃ := Option.some.inj (hi.symm.trans hscope₃)
      rw [hsame, hg.processes]
      exact hbase scope₁ (List.mem_of_getElem? hi₁)

/-! ## Turns that are quiet -/

/-- A request for a name that is held adds neither names nor boundaries. -/
theorem resolveDep_quiet (R : Resolver) (holds : Holds) (depth : ℕ) {s : Search}
    (node : ResolvedPkg) {dep : Req}
    (hplain : dep.plain = true) {existing : ResolvedPkg}
    (hheld : s.named[dep.qualified]? = some existing)
    (hok : (resolveDep R holds depth s node dep).1 = .ok) :
    (resolveDep R holds depth s node dep).2.named = s.named ∧
      (resolveDep R holds depth s node dep).2.boundaries = s.boundaries := by
  cases depth with
  | zero => cases hok
  | succ depth =>
    rw [resolveDep, Req.plain_classifyDep hplain] at hok ⊢
    simp only at hok ⊢
    by_cases hvisited : dep.qualified ∈ s.visited
    · cases hsource : dep.source with
      | index range => simp [hsource, resolveIndexPackage, hvisited] at hok
      | root => simp [hsource, resolveLocalPackage, hvisited] at hok
      | file path => simp [hsource, resolveLocalPackage, hvisited] at hok
    · cases hsource : dep.source with
      | index range =>
        simp only [resolveIndexPackage, if_neg hvisited, hheld]
        split <;> exact ⟨rfl, rfl⟩
      | root =>
        constructor <;> simp only [resolveLocalPackage, if_neg hvisited, hheld]
      | file path =>
        constructor <;> simp only [resolveLocalPackage, if_neg hvisited, hheld]

theorem solveReqs_quiet {holds : Holds} {reqs : List Req} {s : Search}
    (hreqs : ∀ req ∈ reqs, req.plain = true ∧ ∃ pkg, s.named[req.qualified]? = some pkg)
    (hok : (solveReqs R holds depth reqs s).1 = .ok) :
    (solveReqs R holds depth reqs s).2.named = s.named ∧
      (solveReqs R holds depth reqs s).2.boundaries = s.boundaries := by
  unfold solveReqs at hok ⊢
  induction reqs generalizing s with
  | nil => exact ⟨rfl, rfl⟩
  | cons req rest ih =>
    obtain ⟨hplain, existing, hheld⟩ := hreqs req List.mem_cons_self
    have hquiet := resolveDep_quiet R holds depth rootNode hplain hheld
    rw [resolveEach] at hok ⊢
    rcases hres : resolveDep R holds depth s rootNode req with ⟨verdict, s'⟩
    rw [hres] at hok hquiet
    cases verdict with
    | err e => cases hok
    | stuck => cases hok
    | ok =>
      obtain ⟨hnamed, hboundaries⟩ := hquiet rfl
      simp only at hnamed hboundaries hok ⊢
      obtain ⟨hnamed', hboundaries'⟩ := ih (s := s') (fun r hr => by
        rw [hnamed]
        exact hreqs r (List.mem_cons_of_mem _ hr)) hok
      exact ⟨hnamed'.trans hnamed, hboundaries'.trans hboundaries⟩

/-! ## What a turn gains -/

/-- The names a scope holds, and that it was entered. -/
def Scope.weight (scope : Scope) : ℕ := scope.named.size + if scope.cursor = 0 then 0 else 1

/-- The scope has requests nobody looked at. -/
def Scope.awaits (scope : Scope) : ℕ := if scope.cursor = scope.reqs.length then 0 else 1

def Run.weight (run : Run) : ℕ := (run.scopes.map Scope.weight).sum

def Run.pending (run : Run) : ℕ := (run.scopes.map Scope.awaits).sum

/-- A turn enters a scope, or adds a name to one, or leaves one scope less to look at. -/
theorem solveScope_progress (hrun : run.Inv R) (hb : run.Bounded R start)
    (hscope : run.scopes[it]? = some scope) (hne : scope.cursor ≠ scope.reqs.length)
    (h : solveScope R L depth run it scope = (.ok, run')) :
    run.weight < run'.weight ∨ run.weight ≤ run'.weight ∧ run'.pending < run.pending := by
  have hturned := solveScope_turned hrun hscope (hb.plain it scope hscope) h
  have hlt := (List.getElem?_eq_some_iff.1 hscope).1
  have hnil : scope.reqs ≠ [] := by
    intro hnil
    have hcursor := (hrun.scopes it scope hscope).cursor
    rw [hnil] at hcursor hne
    exact hne (Nat.le_zero.1 hcursor)
  have hentered : ∀ scope' : Scope, (∀ req ∈ scope.reqs, req ∈ scope'.reqs.take scope'.cursor) →
      scope'.cursor ≠ 0 := by
    intro scope' hall hzero
    obtain ⟨req, hreq⟩ := List.exists_mem_of_ne_nil _ hnil
    have hmem := hall req hreq
    rw [hzero] at hmem
    cases hmem
  have hweight : ∀ (i : ℕ) (a : Scope), run.scopes[i]? = some a →
      ∃ b, run'.scopes[i]? = some b ∧ a.weight ≤ b.weight := by
    intro i a ha
    obtain ⟨a', ha', -, hheld, -, hgrows, hsolved⟩ := hturned.old i a ha
    refine ⟨a', ha', ?_⟩
    have hsize := Table.size_le_size fun k v hk => ⟨v, hheld k v hk⟩
    unfold Scope.weight
    by_cases hit : i = it
    · subst hit
      rw [hscope] at ha
      cases ha
      rw [if_neg (hentered a' (hsolved rfl))]
      split <;> omega
    · rw [(hgrows hit).cursor]
      omega
  obtain ⟨scope', hscope', -, hheld, -, -, hsolved⟩ := hturned.old it scope hscope
  have hcursor' := hentered scope' (hsolved rfl)
  by_cases hfirst : scope.cursor = 0
  · refine .inl (sum_map_lt hweight hscope hscope' ?_)
    have hsize := Table.size_le_size fun k v hk => ⟨v, hheld k v hk⟩
    rw [Scope.weight, Scope.weight, if_pos hfirst, if_neg hcursor']
    omega
  by_cases hnew : ∃ req ∈ scope.reqs, scope.named[req.qualified]? = none
  · -- the name is held after the turn
    obtain ⟨req, hreq, hfree⟩ := hnew
    obtain ⟨past, run₁, scope₁, -, hr, -, hhere, rfl⟩ := solveScope_ok hrun hscope h
    obtain ⟨pkg, hpkg, -⟩ := hr.answered req (hr.reqs.mem_iff.2 hreq)
      (hb.plain it scope hscope req hreq)
    let base := run₁.commitScope L it scope₁
    obtain ⟨hspread, -⟩ := Run.foldl_processBoundary_spec it run₁.boundaries base
    obtain ⟨scope₂, hscope₂, hg⟩ := hspread.old it scope₁ hhere
    have hsame : scope' = scope₂ := Option.some.inj (hscope'.symm.trans hscope₂)
    have hpkg' : scope'.named[req.qualified]? = some pkg := by rw [hsame, hg.named]; exact hpkg
    have hsize := Table.size_lt_size (fun k v hk => ⟨v, hheld k v hk⟩) hfree hpkg'
    refine .inl (sum_map_lt hweight hscope hscope' ?_)
    rw [Scope.weight, Scope.weight, if_neg hfirst, if_neg hcursor']
    omega
  · -- nothing is posted, and the scopes are the ones there were
    refine .inr ⟨sum_map_le hweight, ?_⟩
    obtain ⟨past, run₁, scope₁, -, hr, hres, hhere, rfl⟩ := solveScope_ok hrun hscope h
    have hfresh : ∀ req ∈ Req.canonical (scope.reqs.drop scope.cursor), req.plain = true ∧
        ∃ pkg, (run.beginning R scope).named[req.qualified]? = some pkg := by
      intro req hreq
      have hmem : req ∈ scope.reqs := List.mem_of_mem_drop (Req.mem_canonical.1 hreq)
      refine ⟨hb.plain it scope hscope req hmem, Option.ne_none_iff_exists'.1 fun hnone => ?_⟩
      exact hnew ⟨req, hmem, hnone⟩
    have hresolve : resolveScope R L depth run it scope =
        let answer := solveReqs R ⟨run.forced, scope.pins⟩ depth
          (Req.canonical (scope.reqs.drop scope.cursor)) (run.beginning R scope)
        (answer.1, ({ run with budget := R.budget } : Run).absorb it scope.sorted answer.2) :=
      if_pos (.inl (Nat.pos_of_ne_zero hfirst))
    rw [hres] at hresolve
    have hquiet := solveReqs_quiet hfresh (congrArg Prod.fst hresolve).symm
    have hnone : run₁.boundaries = [] := by
      rw [congrArg (fun a : Verdict × Run => a.2.boundaries) hresolve]
      exact hquiet.2.trans hrun.boundaries
    have hscopes : ((run₁.commitScope L it scope₁).processBoundaries it).scopes =
        run.scopes.set it scope₁ := by
      rw [Run.processBoundaries, show (run₁.commitScope L it scope₁).boundaries = [] from hnone]
      exact hr.scopes
    have hset : (run.scopes.set it scope₁)[it]? = some scope₁ := List.getElem?_set_self hlt
    have hawaits : scope₁.awaits < scope.awaits := by
      rw [Scope.awaits, Scope.awaits, if_pos hr.cursor, if_neg hne]
      exact Nat.one_pos
    unfold Run.pending
    rw [hscopes]
    refine sum_map_lt ?_ hset hscope hawaits
    intro i a ha
    by_cases hit : i = it
    · subst hit
      rw [hset] at ha
      cases ha
      exact ⟨scope, hscope, hawaits.le⟩
    · rw [List.getElem?_set_ne (Ne.symm hit)] at ha
      exact ⟨a, ha, le_refl _⟩

/-! ## The rounds end -/

theorem Run.Bounded.length_le (hb : run.Bounded R start) :
    run.scopes.length ≤ (R.slots start).card := by
  rw [← List.length_map Scope.slot, ← List.toFinset_card_of_nodup hb.nodup]
  exact Finset.card_le_card fun slot hslot => hb.inside slot (List.mem_toFinset.1 hslot)

/-- The names all scopes together can hold, and every one of them entered. -/
def Resolver.room (R : Resolver) (start : Registry) : ℕ :=
  (R.slots start).card * ((R.names start).card + 1)

theorem Run.Bounded.weight_le (hrun : run.Inv R) (hb : run.Bounded R start) :
    run.weight ≤ R.room start := by
  have hone : ∀ scope ∈ run.scopes, scope.weight ≤ (R.names start).card + 1 := by
    intro scope hscope
    obtain ⟨i, hi⟩ := List.getElem?_of_mem hscope
    have hsize : scope.named.size ≤ (R.names start).card := by
      refine Table.size_le_card fun name node held => ?_
      have hn : run.nodeAt ⟨i, name⟩ = some node := Run.nodeAt_eq_some.2 ⟨scope, hi, held⟩
      have hname : node.id.qualified = name := by
        obtain ⟨past, hinv, -⟩ := (hrun.scopes i scope hi).ledger
        exact hinv.name _ _ held
      rw [← hname]
      exact Resolver.mem_names node.bare ((hrun.made hn).mem_nodes hb.known)
    unfold Scope.weight
    split <;> omega
  exact (sum_map_le_mul hone).trans (Nat.mul_le_mul_right _ hb.length_le)

theorem Run.Bounded.pending_le (hb : run.Bounded R start) : run.pending ≤ (R.slots start).card := by
  have hone : ∀ scope ∈ run.scopes, scope.awaits ≤ 1 := by
    intro scope _
    unfold Scope.awaits
    split <;> omega
  have hle := sum_map_le_mul hone
  rw [Nat.mul_one] at hle
  exact hle.trans hb.length_le

/-- What a turn lowers: the room that is left, and then the scopes to look at. -/
def Run.ahead (R : Resolver) (start : Registry) (run : Run) : ℕ :=
  (R.room start - run.weight) * ((R.slots start).card + 1) + run.pending

/-- How many looks at a scope are ahead of the loop, at most. -/
def Run.looks (R : Resolver) (start : Registry) (run : Run) (it : ℕ) (progress : Bool) : ℕ :=
  (run.ahead R start * 2 + progress.toNat) * ((R.slots start).card + 2) +
    ((R.slots start).card + 1 - it)

theorem solveScope_ahead (hrun : run.Inv R) (hb : run.Bounded R start)
    (hscope : run.scopes[it]? = some scope) (hne : scope.cursor ≠ scope.reqs.length)
    (h : solveScope R L depth run it scope = (.ok, run')) (hrun' : run'.Inv R) :
    run'.ahead R start < run.ahead R start := by
  have hb' := solveScope_bounded hrun hb hscope h
  have hroom := Run.Bounded.weight_le hrun' hb'
  have hpending := hb'.pending_le
  unfold Run.ahead
  rcases solveScope_progress hrun hb hscope hne h with hlt | ⟨hle, hless⟩
  · have hleft : (R.room start - run'.weight + 1) * ((R.slots start).card + 1) ≤
        (R.room start - run.weight) * ((R.slots start).card + 1) :=
      Nat.mul_le_mul_right _ (by omega)
    rw [Nat.add_mul] at hleft
    omega
  · have hleft : (R.room start - run'.weight) * ((R.slots start).card + 1) ≤
        (R.room start - run.weight) * ((R.slots start).card + 1) :=
      Nat.mul_le_mul_right _ (by omega)
    omega

/-- The loop is not stuck with that much fuel, and no search in it with that depth. -/
theorem solveScopes_ends (hdepth : (R.names start).card < depth) {fuel : ℕ} {progress : Bool}
    (hrun : run.Inv R) (hb : run.Bounded R start) (hfuel : run.looks R start it progress < fuel) :
    (solveScopes R L depth fuel it progress run).1 ≠ .stuck ∧
      ∀ scope ∈ (solveScopes R L depth fuel it progress run).2.scopes,
        (solveScopes R L depth fuel it progress run).1 = .ok → scope.processes = [] := by
  induction fuel generalizing it progress run with
  | zero => exact absurd hfuel (Nat.not_lt_zero _)
  | succ fuel ih =>
    rw [solveScopes]
    cases hscope : run.scopes[it]? with
    | none =>
      cases progress with
      | false => exact ⟨Verdict.noConfusion, fun scope hs _ => hb.processes scope hs⟩
      | true =>
        refine ih hrun hb ?_
        unfold Run.looks at hfuel ⊢
        simp only [Bool.toNat_true, Bool.toNat_false, Nat.add_mul] at hfuel ⊢
        omega
    | some scope =>
      have hlength := hb.length_le
      have hlt := (List.getElem?_eq_some_iff.1 hscope).1
      simp only
      by_cases hdone : scope.cursor = scope.reqs.length
      · rw [if_pos hdone]
        refine ih hrun hb ?_
        unfold Run.looks at hfuel ⊢
        omega
      · rw [if_neg hdone]
        have hends : (solveScope R L depth run it scope).1 ≠ .stuck := by
          have hresolve := resolveScope_ends L it scope hrun.visited hb.known hdepth
          obtain ⟨named, pins, hwrite⟩ := resolveScope_scopes R L depth run it scope
          unfold solveScope
          rcases hres : resolveScope R L depth run it scope with ⟨verdict, run₁⟩
          rw [hres] at hresolve hwrite
          cases verdict with
          | err e => exact Verdict.noConfusion
          | stuck => exact absurd rfl hresolve
          | ok =>
            have hhere : run₁.scopes[it]? =
                some { scope.sorted with named := named, pins := pins } := by
              rw [show run₁.scopes = _ from hwrite]
              exact List.getElem?_set_self hlt
            simp only [hhere]
            exact Verdict.noConfusion
        have hsound := solveScope_sound L depth hrun hscope
        rcases hres : solveScope R L depth run it scope with ⟨verdict, run₁⟩
        rw [hres] at hends hsound
        cases verdict with
        | err e => exact ⟨Verdict.noConfusion, fun scope _ hok => by cases hok⟩
        | stuck => exact absurd rfl hends
        | ok =>
          have hrun₁ := hsound rfl
          have hahead := solveScope_ahead hrun hb hscope hdone hres hrun₁
          refine ih hrun₁ (solveScope_bounded hrun hb hscope hres) ?_
          unfold Run.looks at hfuel ⊢
          have htwo : (run₁.ahead R start * 2 + 2) * ((R.slots start).card + 2) ≤
              run.ahead R start * 2 * ((R.slots start).card + 2) :=
            Nat.mul_le_mul_right _ (by omega)
          simp only [Bool.toNat_true, Nat.add_mul] at hfuel htwo ⊢
          omega

end

/-! ## The resolver -/

/-- Fuel for the rounds and the searches of every run over these packages. -/
def Resolver.fuel (R : Resolver) (start : Registry) : ℕ :=
  (R.names start).card + 1 +
    (((R.room start * ((R.slots start).card + 1) + (R.slots start).card) * 2) *
      ((R.slots start).card + 2) + ((R.slots start).card + 2))

section

variable {R : Resolver} (L : Listing) (H : Hashing) {start registry : Registry} (name : Str)
  {fuel : ℕ}

theorem solveOnce_ends (hknown : R.Known start registry) (forced : Option Pin)
    (hfuel : R.fuel start ≤ fuel) :
    (solveOnce R L H fuel registry forced [rootRequest name]).1 ≠ .stuck := by
  have hrun := startRun_inv R registry forced [rootRequest name]
  have hb := startRun_bounded R hknown forced name
  have hlooks : (startRun R registry forced [rootRequest name]).looks R start 0 false < fuel := by
    have hahead : (startRun R registry forced [rootRequest name]).ahead R start ≤
        R.room start * ((R.slots start).card + 1) + (R.slots start).card :=
      Nat.add_le_add (Nat.mul_le_mul_right _ (Nat.sub_le _ _)) hb.pending_le
    have hmul := Nat.mul_le_mul_right ((R.slots start).card + 2) (Nat.mul_le_mul_right 2 hahead)
    unfold Run.looks
    unfold Resolver.fuel at hfuel
    simp only [Bool.toNat_false, Nat.add_zero]
    omega
  have hdepth : (R.names start).card < fuel := by
    unfold Resolver.fuel at hfuel
    omega
  obtain ⟨hne, hprocesses⟩ := solveScopes_ends (L := L) hdepth hrun hb hlooks
  unfold solveOnce
  rcases hres : solveScopes R L fuel fuel 0 false
    (startRun R registry forced [rootRequest name]) with ⟨verdict, run⟩
  rw [hres] at hne hprocesses
  cases verdict with
  | err e => exact Verdict.noConfusion
  | stuck => exact absurd rfl hne
  | ok => exact finishRun_ne_stuck fun scope hscope => hprocesses scope hscope rfl

theorem retryForced_ends (hfuel : R.fuel start ≤ fuel) (first : Err) (pins : List Pin)
    {solved : Solved} (hknown : R.Known start solved.run.registry) :
    (retryForced R L H fuel [rootRequest name] first pins solved).1 ≠ .stuck := by
  induction pins generalizing solved with
  | nil => exact Verdict.noConfusion
  | cons pin rest ih =>
    have honce := solveOnce_ends L H name hknown (some pin) hfuel
    have hkept := solveOnce_keeps L (some pin) H [rootRequest name] (R.loads_known start) fuel
      solved.run.registry hknown
    rw [retryForced]
    rcases hres : solveOnce R L H fuel solved.run.registry (some pin) [rootRequest name] with
      ⟨verdict, solved'⟩
    rw [hres] at honce hkept
    cases verdict with
    | ok => exact Verdict.noConfusion
    | stuck => exact absurd rfl honce
    | err e => exact ih hkept

theorem resolveFromSolver_ends (R : Resolver) (L : Listing) (H : Hashing) (registry : Registry)
    (name : Str) :
    (resolveFromSolver R L H (R.fuel registry) registry [rootRequest name]).1 ≠ .stuck := by
  have honce := solveOnce_ends L H name (R.known_start registry) none
    (le_refl (R.fuel registry))
  have hkept := solveOnce_keeps L none H [rootRequest name] (R.loads_known registry)
    (R.fuel registry) registry (R.known_start registry)
  unfold resolveFromSolver
  rcases hres : solveOnce R L H (R.fuel registry) registry none [rootRequest name] with
    ⟨verdict, solved⟩
  rw [hres] at honce hkept
  cases verdict with
  | ok => exact Verdict.noConfusion
  | stuck => exact absurd rfl honce
  | err e => exact retryForced_ends L H name (le_refl _) e _ hkept

end

/-- The resolver returns: some fuel is enough, and more of it changes nothing. -/
theorem resolver_terminates (R : Resolver) (L : Listing) (H : Hashing) (registry : Registry)
    (name : Str) : ∃ enough answer, answer.1 ≠ .stuck ∧ ∀ fuel ≥ enough,
      resolveFromSolver R L H fuel registry [rootRequest name] = answer :=
  ⟨R.fuel registry, _, resolveFromSolver_ends R L H registry name, fun _ hle =>
    resolveFromSolver_deeper R L H hle registry _ (resolveFromSolver_ends R L H registry name)⟩

end Spn.Resolve
