import Spn.Options.Gates

/-! # Applying options prunes what is gated off

The loop of `spn_session_apply_options` ends, since every turn that goes round again
has pruned an edge. What it promises of the edges rests on `node_find_edge` finding
the edge of the dependency it is asked about: it looks for a name and a kind only.
-/
namespace Spn.Options

open Spn.Resolve Spn.Lib

theorem find?_key {α κ : Type} [DecidableEq κ] {key : α → κ} {l : List α}
    (hn : (l.map key).Nodup) {a : α} (ha : a ∈ l) : l.find? (fun b => key b = key a) = some a := by
  cases h : l.find? (fun b => key b = key a) with
  | none =>
    have := List.find?_eq_none.1 h a ha
    simp at this
  | some b =>
    have hb : key b = key a := by simpa using List.find?_some h
    rw [List.inj_on_of_nodup_map hn (List.mem_of_find?_eq_some h) ha hb]

/-! ## The sweep -/

namespace Graph

variable {g : Graph}

theorem succ_of_mem {node : Node} (h : node ∈ g.nodes) :
    g.succ node.id = node.edges.map ResolvedDep.id := by
  rw [succ, find?_key g.distinct h]

theorem exists_of_mem_succ {a b : PkgId} (h : b ∈ g.succ a) :
    ∃ node ∈ g.nodes, node.id = a ∧ b ∈ node.edges.map ResolvedDep.id := by
  unfold succ at h
  cases hf : g.nodes.find? fun node => node.id = a with
  | none => simp [hf] at h
  | some node =>
    rw [hf] at h
    exact ⟨node, List.mem_of_find?_eq_some hf, by simpa using List.find?_some hf, h⟩

theorem sweep_ne_none (L : Order) (g : Graph) : g.sweep L ≠ none := by
  obtain ⟨ids, hids⟩ : ∃ ids,
      ids = g.roots ++ g.nodes.flatMap fun node => node.edges.map ResolvedDep.id := ⟨_, rfl⟩
  have hsucc : ∀ a, ∀ b ∈ g.succ a, b ∈ ids.toFinset := by
    intro a b hb
    obtain ⟨node, hn, -, hb⟩ := exists_of_mem_succ hb
    simp only [hids, List.mem_toFinset, List.mem_append, List.mem_flatMap]
    exact .inr ⟨node, hn, hb⟩
  have hroot : ∀ k ∈ g.roots, k ∈ ids.toFinset := by
    intro k hk
    simp [hids, hk]
  have hbudget := Worklist.foldl_push_budget hroot (∅, [])
  have hcard := List.toFinset_card_le ids
  have hroots : g.roots.length ≤ g.nodes.length := by
    simpa [roots] using List.length_filter_le _ g.nodes
  have hedges : (g.nodes.flatMap fun node => node.edges.map ResolvedDep.id).length =
      g.edgeCount := by
    simp [List.length_flatMap, edgeCount]
  have hlen : ids.length = g.roots.length + g.edgeCount := by
    rw [hids, List.length_append, hedges]
  simp only [Finset.sdiff_empty, List.length_nil] at hbudget
  have hclose := Worklist.close_ne_none hsucc (g.edgeCount + g.nodes.length + 1)
    (g.roots.foldl Worklist.push (∅, [])) (by omega)
  simpa [sweep] using hclose

/-- What a sweep leaves: the nodes the roots reach, unchanged. -/
theorem mem_sweep {L : Order} {swept : Graph} (h : g.sweep L = some swept) (node : Node) :
    node ∈ swept.nodes ↔ node ∈ g.nodes ∧ Worklist.Reached g.succ g.roots node.id := by
  obtain ⟨kept, hclose, rfl⟩ := Option.map_eq_some_iff.1 h
  rw [keep, (L.perm _).mem_iff, List.mem_filter]
  simp [Worklist.mem_of_close (Worklist.Frontier.start g.roots) hclose]

/-- Every node that is left is reached through nodes that are left. -/
theorem reached_of_sweep {L : Order} {swept : Graph} (h : g.sweep L = some swept) {node : Node}
    (hn : node ∈ swept.nodes) : Worklist.Reached swept.succ swept.roots node.id := by
  obtain ⟨root, hr, hp⟩ := ((mem_sweep h node).1 hn).2
  have hroot : root ∈ swept.roots := by
    obtain ⟨r, hr', rfl⟩ := List.mem_map.1 hr
    obtain ⟨hr', hs⟩ := List.mem_filter.1 hr'
    have hkept : r ∈ swept.nodes := (mem_sweep h r).2 ⟨hr', r.id, hr, .refl⟩
    exact List.mem_map.2 ⟨r, List.mem_filter.2 ⟨hkept, hs⟩, rfl⟩
  refine ⟨root, hroot, ?_⟩
  -- along the path every node is reached, so it is left and has the edges it had
  generalize node.id = id at hp
  induction hp with
  | refl => exact .refl
  | @tail a b hab hb ih =>
    refine ih.tail ?_
    obtain ⟨node, hm, rfl, hb'⟩ := exists_of_mem_succ hb
    rw [succ_of_mem ((mem_sweep h node).2 ⟨hm, root, hr, hab⟩)]
    exact hb'

theorem reached_of_reached_sweep {L : Order} {swept : Graph} (h : g.sweep L = some swept)
    {id : PkgId} (hr : Worklist.Reached swept.succ swept.roots id) :
    Worklist.Reached g.succ g.roots id := by
  obtain ⟨root, hroot, hp⟩ := hr
  refine ⟨root, ?_, Relation.ReflTransGen.mono (fun a b hb => ?_) _ _ hp⟩
  · obtain ⟨r, hr, rfl⟩ := List.mem_map.1 hroot
    obtain ⟨hr, hs⟩ := List.mem_filter.1 hr
    exact List.mem_map.2 ⟨r, List.mem_filter.2 ⟨((mem_sweep h r).1 hr).1, hs⟩, rfl⟩
  · obtain ⟨node, hm, rfl, hb'⟩ := exists_of_mem_succ hb
    rw [succ_of_mem ((mem_sweep h node).1 hm).1]
    exact hb'

theorem edgeCount_sweep {L : Order} {swept : Graph} (h : g.sweep L = some swept) :
    swept.edgeCount ≤ g.edgeCount := by
  obtain ⟨kept, -, rfl⟩ := Option.map_eq_some_iff.1 h
  have hp := ((L.perm (g.nodes.filter fun node => node.id ∈ kept)).map
    fun node => node.edges.length).sum_eq
  rw [edgeCount, edgeCount, keep, hp]
  exact (List.filter_sublist.map _).sum_le_sum fun _ _ => Nat.zero_le _

end Graph

/-! ## The merge -/

namespace Session

variable {s s₁ : Session}

theorem mergeAll_eq_none (h : s.mergeAll = (s₁, none)) :
    s₁ = { s with
      options := s.resolve.nodes.map fun node => (node.id, (s.merged node).options)
      seeds := s.requests.map fun entry => (entry.1.qualified, entry.2) } ∧
    ∀ node ∈ s.resolve.nodes, (s.merged node).violations = [] := by
  unfold mergeAll at h
  cases hd : s.resolve.nodes.dropWhile fun node => decide ((s.merged node).violations = []) with
  | cons node rest => simp [hd] at h
  | nil =>
    have hall := List.dropWhile_eq_nil_iff.1 hd
    have htake : s.resolve.nodes.takeWhile (fun node => decide ((s.merged node).violations = [])) =
        s.resolve.nodes := List.takeWhile_eq_self_iff.2 hall
    rw [hd, htake] at h
    cases h
    exact ⟨rfl, fun node hn => by simpa using hall node hn⟩

end Session

/-! ## A turn -/

/-- How a turn that goes round again got there. -/
theorem turn_again {L : Order} {s s' : Session} {m m' : Str × Str} (h : turn L s m = .again s' m') :
    ∃ s₁ graph pass swept, s.mergeAll = (s₁, none) ∧
      s₁.gateAll ⟨false, false, m.1, m.2⟩ = (graph, pass) ∧ pass.pruned = true ∧
      graph.sweep L = some swept ∧ s' = { s₁ with resolve := swept } := by
  unfold turn at h
  rcases hm : s.mergeAll with ⟨s₁, all⟩
  rw [hm] at h
  cases all with
  | some all => cases h
  | none =>
    dsimp only at h
    rcases hg : s₁.gateAll ⟨false, false, m.1, m.2⟩ with ⟨graph, pass⟩
    rw [hg] at h
    dsimp only at h
    cases hp : pass.pruned with
    | true =>
      rw [if_pos hp] at h
      cases hs : graph.sweep L with
      | none => simp [hs] at h
      | some swept =>
        rw [hs] at h
        cases h
        exact ⟨s₁, graph, pass, swept, rfl, hg, hp, hs, rfl⟩
    | false =>
      rw [if_neg (by simp [hp])] at h
      split_ifs at h
      cases hk : ({ s₁ with resolve := graph } : Session).unknownKey <;> simp [hk] at h

/-- How a turn that ends the call well got there. -/
theorem turn_ok {L : Order} {s s' : Session} {m : Str × Str} (h : turn L s m = .done s' (.ok false)) :
    ∃ s₁ graph pass, s.mergeAll = (s₁, none) ∧
      s₁.gateAll ⟨false, false, m.1, m.2⟩ = (graph, pass) ∧ pass.pruned = false ∧
      pass.missing = false ∧ s' = { s₁ with resolve := graph } := by
  unfold turn at h
  rcases hm : s.mergeAll with ⟨s₁, all⟩
  rw [hm] at h
  cases all with
  | some all => cases h
  | none =>
    dsimp only at h
    rcases hg : s₁.gateAll ⟨false, false, m.1, m.2⟩ with ⟨graph, pass⟩
    rw [hg] at h
    dsimp only at h
    cases hp : pass.pruned with
    | true =>
      rw [if_pos hp] at h
      cases hs : graph.sweep L <;> simp [hs] at h
    | false =>
      rw [if_neg (by simp [hp])] at h
      cases hmiss : pass.missing with
      | true =>
        rw [if_pos hmiss] at h
        split_ifs at h <;> simp at h
      | false =>
        rw [if_neg (by simp [hmiss])] at h
        cases hk : ({ s₁ with resolve := graph } : Session).unknownKey with
        | some key => simp [hk] at h
        | none =>
          rw [hk] at h
          cases h
          exact ⟨s₁, graph, pass, rfl, hg, hp, hmiss, rfl⟩

theorem turn_ne_stuck (L : Order) (s : Session) (m : Str × Str) : turn L s m ≠ .stuck := by
  unfold turn
  rcases s.mergeAll with ⟨s₁, all⟩
  cases all with
  | some all => simp
  | none =>
    dsimp only
    rcases s₁.gateAll ⟨false, false, m.1, m.2⟩ with ⟨graph, pass⟩
    dsimp only
    split_ifs
    · cases hs : graph.sweep L with
      | none => exact absurd hs (Graph.sweep_ne_none L graph)
      | some swept => simp
    · simp
    · simp
    · split <;> simp

/-- What the third loop of a turn does to the graph the turn starts with. -/
theorem gateAll_gates {s s₁ : Session} {m : Str × Str} {graph : Graph} {pass : Pass}
    (hm : s.mergeAll = (s₁, none)) (hg : s₁.gateAll ⟨false, false, m.1, m.2⟩ = (graph, pass)) :
    GatesAll s₁ s.resolve.nodes ⟨false, false, m.1, m.2⟩ (graph.nodes, pass) := by
  have hs : s₁.resolve = s.resolve := by rw [(Session.mergeAll_eq_none hm).1]
  have h := gateNodes_gatesAll s₁ s₁.resolve.nodes ⟨false, false, m.1, m.2⟩
  cases hg
  rw [← hs]
  exact h

/-- A turn that goes round again has pruned an edge. -/
theorem edgeCount_again {L : Order} {s s' : Session} {m m' : Str × Str}
    (h : turn L s m = .again s' m') : s'.resolve.edgeCount < s.resolve.edgeCount := by
  obtain ⟨s₁, graph, pass, swept, hm, hg, hp, hs, rfl⟩ := turn_again h
  have hlt := (gateAll_gates hm hg).fewer rfl hp
  have hle := Graph.edgeCount_sweep hs
  simp only [countEdges, Graph.edgeCount] at hlt hle ⊢
  omega

/-- The loop ends. -/
theorem applyLoop_ne_none (L : Order) (fuel : ℕ) (s : Session) (m : Str × Str)
    (h : s.resolve.edgeCount < fuel) : applyLoop L fuel s m ≠ none := by
  induction fuel generalizing s m with
  | zero => omega
  | succ fuel ih =>
    rw [applyLoop]
    cases ht : turn L s m with
    | again s' m' =>
      have := edgeCount_again ht
      exact ih s' m' (by omega)
    | done s' result => simp
    | stuck => exact absurd ht (turn_ne_stuck L s m)

/-- The turns the loop takes. -/
inductive Rounds (L : Order) (s : Session) (m : Str × Str) : Session → Str × Str → Prop
  | start : Rounds L s m s m
  | again {t t' : Session} {n n' : Str × Str} : Rounds L s m t n → turn L t n = .again t' n' →
      Rounds L s m t' n'

theorem Rounds.head {L : Order} {s t u : Session} {m n k : Str × Str}
    (h : turn L s m = .again t n) (hr : Rounds L t n u k) : Rounds L s m u k := by
  induction hr with
  | start => exact .again .start h
  | again _ hstep ih => exact .again ih hstep

/-- The call ends with the last of its turns. -/
theorem exists_turn_of_applyLoop {L : Order} {fuel : ℕ} {s s' : Session} {m : Str × Str}
    {result : Except Err Bool} (h : applyLoop L fuel s m = some (s', result)) :
    ∃ t n, Rounds L s m t n ∧ turn L t n = .done s' result := by
  induction fuel generalizing s m with
  | zero => cases h
  | succ fuel ih =>
    rw [applyLoop] at h
    cases ht : turn L s m with
    | again t n =>
      rw [ht] at h
      obtain ⟨u, k, hr, hd⟩ := ih h
      exact ⟨u, k, hr.head ht, hd⟩
    | done t r =>
      rw [ht] at h
      cases h
      exact ⟨s, m, .start, ht⟩
    | stuck => simp [ht] at h

/-! ## The lookup finds the right edge -/

/-- The edge is the one of this dependency. -/
def Dep.Names (dep : Dep) (e : ResolvedDep) : Prop :=
  e.id.qualified = dep.qualified ∧ e.kind = dep.kind ∧ e.isPrivate = dep.isPrivate

instance (dep : Dep) (e : ResolvedDep) : Decidable (dep.Names e) := by
  unfold Dep.Names; infer_instance

/-- A session as the resolver leaves it: no two edges of a node agree in name, kind and
private flag, and the root reaches every node. -/
structure Session.Resolved (s : Session) : Prop where
  edges : ∀ node ∈ s.resolve.nodes, node.edges.Pairwise fun e e' =>
    ¬(e.id.qualified = e'.id.qualified ∧ e.kind = e'.kind ∧ e.isPrivate = e'.isPrivate)
  reached : ∀ node ∈ s.resolve.nodes,
    Worklist.Reached s.resolve.succ s.resolve.roots node.id

/-- What gates are evaluated in this turn. -/
def Session.turnEnv (s : Session) (node : Node) : Env := s.mergeAll.1.env node

/-- A name and a kind are enough to find the edge of a dependency that has a gate or
options: an edge of this name and kind has the private flag of the dependency, and
when the dependency is gated off, so is every other the edge belongs to. -/
def Session.Unambiguous (s : Session) : Prop :=
  ∀ node ∈ s.resolve.nodes, ∀ dep ∈ s.deps node.id, dep.gate ≠ [] ∨ dep.options ≠ [] →
    ∀ e ∈ node.edges, isEdge dep.qualified dep.kind e = true → e.isPrivate = dep.isPrivate ∧
      (¬dep.On (s.turnEnv node) →
        ∀ dep' ∈ s.deps node.id, dep'.Names e → ¬dep'.On (s.turnEnv node))

/-- From one turn to the next: a node that stays loses only edges all of whose
dependencies are gated off, and a node that goes is one the root no longer reaches. -/
structure Prunes (s s' : Session) : Prop where
  edges : ∀ node' ∈ s'.resolve.nodes, ∃ node ∈ s.resolve.nodes,
    node' = { node with edges := node'.edges } ∧ node'.edges.Sublist node.edges ∧
    ∀ e ∈ node.edges, e ∉ node'.edges →
      ∀ dep ∈ s.deps node.id, dep.Names e → ¬dep.On (s.turnEnv node)
  swept : ∀ node ∈ s.resolve.nodes, node.id ∉ s'.resolve.nodes.map Node.id →
    ¬Worklist.Reached s'.resolve.succ s'.resolve.roots node.id
  packages : s'.packages = s.packages
  config : s'.config = s.config
  profile : s'.profile = s.profile
  resolved : s'.Resolved

/-- The requests a node's edges carry: those of the dependencies the edge belongs to. -/
def Session.carriedBy (s : Session) (node : Node) : List (PkgId × Request) :=
  (s.deps node.id).flatMap fun dep =>
    if dep.options = [] then []
    else (node.edges.filter fun e => dep.Names e).map fun e => (e.id, ⟨node.name, dep.options⟩)

/-- The requests the edges into a node carry. -/
def Session.carried (s : Session) (id : PkgId) : List Request :=
  ((s.resolve.nodes.flatMap s.carriedBy).filter fun entry => entry.1 = id).map Prod.snd

/-- What the call promises when it ends well and needs no further resolve. -/
structure Session.Applied (s : Session) : Prop where
  present : ∀ node ∈ s.resolve.nodes, ∀ dep ∈ s.deps node.id, dep.gate ≠ [] →
    dep.On (s.env node) → ∃ e ∈ node.edges, dep.Names e
  options : ∀ node ∈ s.resolve.nodes, s.options.find? (fun entry => entry.1 = node.id) =
    some (node.id, (mergeOptions node s.profile s.config (s.carried node.id)).options)
  reached : ∀ node ∈ s.resolve.nodes,
    Worklist.Reached s.resolve.succ s.resolve.roots node.id

theorem turnEnv_eq {s s₁ : Session} (hm : s.mergeAll = (s₁, none)) : s.turnEnv = s₁.env := by
  funext node
  rw [Session.turnEnv, hm]

theorem isEdge_of_names {dep : Dep} {e : ResolvedDep} (h : dep.Names e) :
    isEdge dep.qualified dep.kind e = true := by
  simp [isEdge, h.1, h.2.1]

theorem prunes_of_again {L : Order} {s s' : Session} {m m' : Str × Str} (hr : s.Resolved)
    (hu : s.Unambiguous) (h : turn L s m = .again s' m') : Prunes s s' := by
  obtain ⟨s₁, graph, pass, swept, hm, hg, hp, hs, rfl⟩ := turn_again h
  have heq := (Session.mergeAll_eq_none hm).1
  have hpk : s₁.deps = s.deps := by funext id; rw [Session.deps, heq]; rfl
  have hgates := gateAll_gates hm hg
  have hshrunk : ∀ node' ∈ swept.nodes, ∃ node ∈ s.resolve.nodes, Shrunk s₁ node node' := by
    intro node' hn
    obtain ⟨i, hi, rfl⟩ := List.mem_iff_getElem.1 ((Graph.mem_sweep hs node').1 hn).1
    have hlen : s.resolve.nodes.length = graph.nodes.length := hgates.each.length_eq
    exact ⟨_, List.getElem_mem (by omega), (List.forall₂_iff_get.1 hgates.each).2 i (by omega) hi⟩
  refine ⟨?_, ?_, by rw [heq], by rw [heq], by rw [heq], ?_, fun node' hn => Graph.reached_of_sweep hs hn⟩
  · intro node' hn
    obtain ⟨node, hnode, hsh⟩ := hshrunk node' hn
    refine ⟨node, hnode, hsh.same, hsh.sublist, ?_⟩
    intro e he hne dep hdep hnames
    obtain ⟨d, hd, hoff, hedge⟩ := hsh.removed e he hne
    rw [hpk] at hd
    rw [← turnEnv_eq hm] at hoff
    have hgate : d.gate ≠ [] := fun hg => hoff (Dep.on_of_ungated hg _)
    exact (hu node hnode d hd (.inl hgate) e he hedge).2 hoff dep hdep hnames
  · intro node hn hgone hreached
    obtain ⟨i, hi, rfl⟩ := List.mem_iff_getElem.1 hn
    have hlen : s.resolve.nodes.length = graph.nodes.length := hgates.each.length_eq
    have hi' : i < graph.nodes.length := hlen ▸ hi
    have hsh : Shrunk s₁ s.resolve.nodes[i] graph.nodes[i] :=
      (List.forall₂_iff_get.1 hgates.each).2 i hi hi'
    have hid : graph.nodes[i].id = s.resolve.nodes[i].id := by rw [hsh.same]
    have hkept : graph.nodes[i] ∈ swept.nodes := (Graph.mem_sweep hs _).2
      ⟨List.getElem_mem _, hid ▸ Graph.reached_of_reached_sweep hs hreached⟩
    exact hgone (List.mem_map.2 ⟨_, hkept, hid⟩)
  · intro node' hn
    obtain ⟨node, hnode, hsh⟩ := hshrunk node' hn
    exact (hr.edges node hnode).sublist hsh.sublist

/-- The edge the lookup finds is the only one the dependency belongs to. -/
theorem filter_names_eq {edges : List ResolvedDep} {dep : Dep}
    (hp : edges.Pairwise fun e e' =>
      ¬(e.id.qualified = e'.id.qualified ∧ e.kind = e'.kind ∧ e.isPrivate = e'.isPrivate))
    (hu : ∀ e ∈ edges, isEdge dep.qualified dep.kind e = true → e.isPrivate = dep.isPrivate) :
    edges.filter (fun e => dep.Names e) = (findEdge edges dep.qualified dep.kind).toList := by
  induction edges with
  | nil => rfl
  | cons e edges ih =>
    obtain ⟨hne, hp⟩ := List.pairwise_cons.1 hp
    have ih := ih hp fun e' he' => hu e' (List.mem_cons_of_mem _ he')
    by_cases he : isEdge dep.qualified dep.kind e = true
    · have hkey : e.id.qualified = dep.qualified ∧ e.kind = dep.kind := by
        simpa [isEdge] using he
      have hnames : dep.Names e := ⟨hkey.1, hkey.2, hu e (by simp) he⟩
      have hrest : edges.filter (fun e => dep.Names e) = [] := by
        refine List.filter_eq_nil_iff.2 fun e' he' hn => ?_
        have hn : dep.Names e' := by simpa using hn
        exact hne e' he' ⟨hnames.1.trans hn.1.symm, hnames.2.1.trans hn.2.1.symm,
          hnames.2.2.trans hn.2.2.symm⟩
      rw [List.filter_cons_of_pos (by simpa using hnames), hrest, findEdge,
        List.find?_cons_of_pos he]
      rfl
    · have hnames : ¬dep.Names e := fun hn => he (isEdge_of_names hn)
      rw [List.filter_cons_of_neg (by simpa using hnames), ih, findEdge, findEdge,
        List.find?_cons_of_neg he]

theorem carriedBy_eq {s : Session} (hr : s.Resolved) (hu : s.Unambiguous) {node : Node}
    (hn : node ∈ s.resolve.nodes) : s.carriedBy node = s.nodeRequests node := by
  have hdep : ∀ dep ∈ s.deps node.id,
      (if dep.options = [] then []
        else (node.edges.filter fun e => dep.Names e).map fun e =>
          (e.id, (⟨node.name, dep.options⟩ : Request))) =
      (if dep.options = [] then none
        else (findEdge node.edges dep.qualified dep.kind).map fun edge =>
          (edge.id, (⟨node.name, dep.options⟩ : Request))).toList := by
    intro dep hdep
    by_cases ho : dep.options = []
    · simp [ho]
    · rw [if_neg ho, if_neg ho, filter_names_eq (hr.edges node hn) fun e he hedge =>
        (hu node hn dep hdep (.inr ho) e he hedge).1]
      cases findEdge node.edges dep.qualified dep.kind <;> rfl
  rw [Session.carriedBy, Session.nodeRequests, List.filterMap_eq_flatMap_toList]
  exact List.flatMap_congr hdep

theorem carried_eq {s : Session} (hr : s.Resolved) (hu : s.Unambiguous) (id : PkgId) :
    s.carried id = s.asked id := by
  rw [Session.carried, Session.asked, Session.requests,
    List.flatMap_congr fun node hn => carriedBy_eq hr hu hn]

theorem applied_of_ok {L : Order} {s s' : Session} {m : Str × Str} (hr : s.Resolved)
    (hu : s.Unambiguous) (h : turn L s m = .done s' (.ok false)) : s'.Applied := by
  obtain ⟨s₁, graph, pass, hm, hg, hp, hmiss, rfl⟩ := turn_ok h
  have hgates := gateAll_gates hm hg
  have hgraph : graph = s.resolve := by
    have hnodes : graph.nodes = s.resolve.nodes := (hgates.kept hp).1
    obtain ⟨nodes, _⟩ := graph
    cases hnodes
    rfl
  have heq := (Session.mergeAll_eq_none hm).1
  have hpk : s₁.deps = s.deps := by funext id; rw [Session.deps, heq]; rfl
  subst hgraph
  refine ⟨?_, ?_, hr.reached⟩
  · intro node hn dep hdep hgate hon
    have hdep : dep ∈ s.deps node.id := hpk ▸ hdep
    have hsome := hgates.present hp hmiss node hn dep (hpk ▸ hdep) hgate hon
    obtain ⟨e, he⟩ := Option.ne_none_iff_exists'.1 hsome
    obtain ⟨hmem, hq, hk⟩ := findEdge_eq_some he
    have hpriv := (hu node hn dep hdep (.inl hgate) e hmem (by simp [isEdge, hq, hk])).1
    exact ⟨e, hmem, hq, hk, hpriv⟩
  · intro node hn
    have hnodup : ((s.resolve.nodes.map fun node => (node.id, (s.merged node).options)).map
        Prod.fst).Nodup := by
      simpa [Function.comp_def] using s.resolve.distinct
    have hmem : (node.id, (s.merged node).options) ∈
        s.resolve.nodes.map fun node => (node.id, (s.merged node).options) :=
      List.mem_map_of_mem hn
    subst heq
    have hfind := find?_key hnodup hmem
    rw [Session.merged, ← carried_eq hr hu] at hfind
    exact hfind

/-- Every turn before this one met the condition, so this one starts as the resolver
leaves a session. -/
theorem Rounds.resolved {L : Order} {s t : Session} {m n : Str × Str} (h : Rounds L s m t n)
    (hr : s.Resolved) (hu : ∀ t n, Rounds L s m t n → t.Unambiguous) : t.Resolved := by
  induction h with
  | start => exact hr
  | again hrounds hstep ih => exact (prunes_of_again ih (hu _ _ hrounds) hstep).resolved

/-- The loop ends on every session. On a resolved session, when an edge can be told by
its name and kind in every turn, each turn removes only edges whose dependencies are
all gated off, and a call that ends well and needs no further resolve leaves an edge
for every dependency that is gated on, the options merged from the requests of the
remaining edges, and only nodes the root reaches. -/
theorem applyOptions_prunes (L : Order) (s : Session) :
    (∃ s' result, applyOptions L s = some (s', result)) ∧
    (s.Resolved → (∀ t m, Rounds L s ([], []) t m → t.Unambiguous) →
      (∀ t m t' m', Rounds L s ([], []) t m → turn L t m = .again t' m' → Prunes t t') ∧
      ∀ s', applyOptions L s = some (s', .ok false) → s'.Applied) := by
  refine ⟨?_, fun hr hu => ⟨?_, ?_⟩⟩
  · obtain ⟨⟨s', result⟩, h⟩ := Option.ne_none_iff_exists'.1
      (applyLoop_ne_none L (s.resolve.edgeCount + 1) s ([], []) (Nat.lt_succ_self _))
    exact ⟨s', result, h⟩
  · intro t m t' m' hrounds hstep
    exact prunes_of_again (hrounds.resolved hr hu) (hu t m hrounds) hstep
  · intro s' h
    obtain ⟨t, n, hrounds, hdone⟩ := exists_turn_of_applyLoop h
    exact applied_of_ok (hrounds.resolved hr hu) (hu t n hrounds) hdone

/-- A root with an option that is off and an edge to one other package, for which it
lists these dependencies. -/
def oneEdge (gates : List (List Clause)) : Session where
  resolve :=
    { nodes := [
        { id := ⟨str "core/r", ⟨1, 0, 0⟩, 0⟩, name := str "r", source := .root
          options := ⟨[⟨str "o", .bool, false, [], []⟩], by simp⟩
          edges := [⟨⟨str "core/x", ⟨1, 0, 0⟩, 0⟩, .package, .scope, false⟩], patches := none },
        { id := ⟨str "core/x", ⟨1, 0, 0⟩, 0⟩, name := str "x", source := .index
          options := .empty, edges := [], patches := none }]
      distinct := by decide }
  packages id :=
    { qualified := id.qualified, name := pkgName id.qualified, version := id.version
      commit := [], platform := 0
      deps := if id.qualified = str "core/r" then
        gates.map fun gate => ⟨str "core/x", .package, false, gate, []⟩ else [] }
  config := []
  profile := ⟨fun _ => none, []⟩
  options := []
  seeds := []
  resolves := 0

def whenOn : Clause := ⟨str "o", .bool true, false⟩
def whenOff : Clause := ⟨str "o", .bool false, false⟩

def noOrder : Order := ⟨id, fun _ => .refl _⟩

theorem oneEdge_resolved (gates : List (List Clause)) : (oneEdge gates).Resolved := by
  have hnodes : ∀ node ∈ (oneEdge gates).resolve.nodes, node.edges.length ≤ 1 ∧
      node.id ∈ [(⟨str "core/r", ⟨1, 0, 0⟩, 0⟩ : PkgId), ⟨str "core/x", ⟨1, 0, 0⟩, 0⟩] := by
    intro node hn
    rcases List.mem_cons.1 hn with rfl | hn
    · simp
    · rcases List.mem_singleton.1 hn with rfl
      simp
  refine ⟨fun node hn => ?_, fun node hn => ?_⟩
  · have hlen := (hnodes node hn).1
    cases he : node.edges with
    | nil => exact .nil
    | cons e rest =>
      rw [he] at hlen
      have : rest = [] := by simpa using hlen
      rw [this]
      simp
  · refine ⟨⟨str "core/r", ⟨1, 0, 0⟩, 0⟩, by show _ ∈ [_]; simp, ?_⟩
    rcases List.mem_cons.1 (hnodes node hn).2 with h | h
    · rw [h]
    · rw [List.mem_singleton.1 h]
      exact .single (show _ ∈ (oneEdge []).resolve.succ _ by decide)

theorem applyOptions_prunes_oneEdge : ∃ s',
    applyOptions noOrder (oneEdge [[whenOn]]) = some (s', .ok false) ∧ s'.Applied := by
  have hfirst : ∃ t n, turn noOrder (oneEdge [[whenOn]]) ([], []) = .again t n ∧
      t.Unambiguous ∧ ∃ u, turn noOrder t n = .done u (.ok false) := by
    refine ⟨_, _, rfl, ?_, _, rfl⟩
    unfold Session.Unambiguous
    decide
  obtain ⟨t₁, n₁, h₁, hu₁, u₁, hd₁⟩ := hfirst
  refine ⟨_, rfl, ((applyOptions_prunes noOrder (oneEdge [[whenOn]])).2 (oneEdge_resolved _) ?_).2
    _ rfl⟩
  have hrounds : ∀ t m, Rounds noOrder (oneEdge [[whenOn]]) ([], []) t m →
      t = oneEdge [[whenOn]] ∧ m = ([], []) ∨ t = t₁ ∧ m = n₁ := by
    intro t m h
    induction h with
    | start => exact .inl ⟨rfl, rfl⟩
    | again _ hstep ih =>
      rcases ih with ⟨rfl, rfl⟩ | ⟨rfl, rfl⟩
      · rw [h₁] at hstep
        cases hstep
        exact .inr ⟨rfl, rfl⟩
      · rw [hd₁] at hstep
        cases hstep
  intro t m h
  rcases hrounds t m h with ⟨rfl, -⟩ | ⟨rfl, -⟩
  · unfold Session.Unambiguous
    decide
  · exact hu₁

/-- Of two dependencies for one edge the first is gated off: the edge goes, though the
second is gated on. -/
theorem gatedTwice_prunes : (oneEdge [[whenOn], [whenOff]]).Resolved ∧
    ∃ s' m', turn noOrder (oneEdge [[whenOn], [whenOff]]) ([], []) = .again s' m' ∧
      ¬Prunes (oneEdge [[whenOn], [whenOff]]) s' := by
  refine ⟨oneEdge_resolved _, _, _, rfl, ?_⟩
  intro h
  obtain ⟨node, hn, hsame, -, hgone⟩ := h.edges _ (List.Mem.head _)
  rcases List.mem_cons.1 hn with rfl | hn
  · exact hgone _ (List.Mem.head _) List.not_mem_nil _ (List.Mem.tail _ (List.Mem.head _))
      (by decide) (by decide)
  · rcases List.mem_singleton.1 hn with rfl
    exact absurd (congrArg Node.id hsame) (by decide)

end Spn.Options
