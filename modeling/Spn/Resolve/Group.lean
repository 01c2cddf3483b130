import Spn.Resolve.Commit
import Spn.Resolve.Rounds

/-! # The graph of the solved scopes

Once every scope is solved each dependency that is not pruned is an edge to a
node that is there. This file has what the walks over that graph and the table
of instances say about it.
-/
namespace Spn.Resolve

open Spn.Lib

/-- The class of a dependency is that of its kind and its privacy. -/
theorem Resolver.classifyDep_congr (R : Resolver) (registry : Registry) (node : ResolvedPkg)
    {a b : Req} (hk : a.kind = b.kind) (hp : a.isPrivate = b.isPrivate) :
    R.classifyDep registry node a = R.classifyDep registry node b := by
  simp only [classifyDep, hk, hp]

namespace Run

variable {R : Resolver} {run : Run}

/-- What an edge of a node is made of. -/
theorem edgeOf_eq_some {it : ℕ} {node : ResolvedPkg} {dep : Req} {e : NodeEdge} :
    run.edgeOf R it node dep = some e ↔
      run.targetScope it node dep (R.classifyDep run.registry node dep) = some e.scope ∧
      run.nodeAt e.key = some e.node ∧ e.name = dep.qualified ∧ e.kind = dep.kind ∧
      e.edge = R.classifyDep run.registry node dep ∧ e.isPrivate = dep.isPrivate := by
  obtain ⟨scope, name, target, kind, edge, isPrivate⟩ := e
  unfold edgeOf
  simp only
  cases run.targetScope it node dep (R.classifyDep run.registry node dep) with
  | none => simp
  | some s =>
    simp only [Option.map_eq_some_iff, NodeEdge.mk.injEq, Option.some.injEq, NodeEdge.key]
    constructor
    · rintro ⟨target', hnode, rfl, rfl, rfl, rfl, rfl, rfl⟩
      exact ⟨rfl, hnode, rfl, rfl, rfl, rfl⟩
    · rintro ⟨rfl, hnode, rfl, rfl, rfl, rfl⟩
      exact ⟨target, hnode, rfl, rfl, rfl, rfl, rfl, rfl⟩

/-- Edges of one node that compare the same are the same. -/
theorem edgeOf_eq_of_same {it : ℕ} {node : ResolvedPkg} {dep dep' : Req} {e e' : NodeEdge}
    (h : run.edgeOf R it node dep = some e) (h' : run.edgeOf R it node dep' = some e')
    (hsame : e.same e' = true) : e = e' := by
  obtain ⟨-, hnode, -, hkind, hedge, hprivate⟩ := edgeOf_eq_some.1 h
  obtain ⟨-, hnode', -, hkind', hedge', hprivate'⟩ := edgeOf_eq_some.1 h'
  simp only [NodeEdge.same, Bool.and_eq_true, decide_eq_true_eq] at hsame
  obtain ⟨⟨⟨hscope, hname⟩, hkinds⟩, hprivates⟩ := hsame
  have hclass : R.classifyDep run.registry node dep = R.classifyDep run.registry node dep' :=
    R.classifyDep_congr _ _ (hkind.symm.trans (hkinds.trans hkind'))
      (hprivate.symm.trans (hprivates.trans hprivate'))
  have hnodes : e.node = e'.node := by
    have hkey : e.key = e'.key := by rw [NodeEdge.key, NodeEdge.key, hscope, hname]
    rw [hkey, hnode'] at hnode
    exact (Option.some.inj hnode).symm
  have hedges : e.edge = e'.edge := by rw [hedge, hedge', hclass]
  obtain ⟨scope, name, target, kind, edge, isPrivate⟩ := e
  obtain ⟨scope', name', target', kind', edge', isPrivate'⟩ := e'
  simp only at hscope hname hkinds hprivates hnodes hedges
  subst hscope hname hkinds hprivates hnodes hedges
  rfl

/-- `collect_node_edges`, from the edges it has so far. -/
def collectFrom (R : Resolver) (run : Run) (it : ℕ) (node : ResolvedPkg) (edges : List NodeEdge)
    (deps : List Req) : List NodeEdge :=
  deps.foldl
    (fun edges dep =>
      match run.edgeOf R it node dep with
      | none => edges
      | some e => if edges.any e.same then edges else edges ++ [e])
    edges

theorem mem_collectFrom {it : ℕ} {node : ResolvedPkg} (deps : List Req) (edges : List NodeEdge)
    (hedges : ∀ e ∈ edges, ∃ dep, run.edgeOf R it node dep = some e) {e : NodeEdge} :
    e ∈ collectFrom R run it node edges deps ↔
      e ∈ edges ∨ ∃ dep ∈ deps, run.edgeOf R it node dep = some e := by
  induction deps generalizing edges with
  | nil => simp [collectFrom]
  | cons dep rest ih =>
    have hunfold : collectFrom R run it node edges (dep :: rest) =
        collectFrom R run it node
          (match run.edgeOf R it node dep with
          | none => edges
          | some e => if edges.any e.same then edges else edges ++ [e]) rest := rfl
    rw [hunfold]
    cases hdep : run.edgeOf R it node dep with
    | none => simp [ih edges hedges, hdep]
    | some e₁ =>
      simp only
      by_cases hany : edges.any e₁.same = true
      · rw [if_pos hany, ih edges hedges]
        -- the edge is there already
        have hmem : e₁ ∈ edges := by
          obtain ⟨e₂, he₂, hsame⟩ := List.any_eq_true.1 hany
          obtain ⟨dep₂, hdep₂⟩ := hedges e₂ he₂
          rw [edgeOf_eq_of_same hdep hdep₂ hsame]
          exact he₂
        constructor
        · rintro (h | ⟨d, hd, he⟩)
          · exact .inl h
          · exact .inr ⟨d, List.mem_cons_of_mem _ hd, he⟩
        · rintro (h | ⟨d, hd, he⟩)
          · exact .inl h
          · rcases List.mem_cons.1 hd with rfl | hd
            · rw [hdep] at he
              cases he
              exact .inl hmem
            · exact .inr ⟨d, hd, he⟩
      · rw [if_neg hany, ih (edges ++ [e₁])]
        · constructor
          · rintro (h | ⟨d, hd, he⟩)
            · rcases List.mem_append.1 h with h | h
              · exact .inl h
              · rw [List.mem_singleton.1 h]
                exact .inr ⟨dep, List.mem_cons_self, hdep⟩
            · exact .inr ⟨d, List.mem_cons_of_mem _ hd, he⟩
          · rintro (h | ⟨d, hd, he⟩)
            · exact .inl (List.mem_append_left _ h)
            · rcases List.mem_cons.1 hd with rfl | hd
              · rw [hdep] at he
                cases he
                exact .inl (List.mem_append_right _ (List.mem_singleton.2 rfl))
              · exact .inr ⟨d, hd, he⟩
        · intro e he
          rcases List.mem_append.1 he with he | he
          · exact hedges e he
          · rw [List.mem_singleton.1 he]
            exact ⟨dep, hdep⟩

/-- The edges of a node are those of its dependencies. -/
theorem mem_collectNodeEdges {it : ℕ} {node : ResolvedPkg} {e : NodeEdge} :
    e ∈ run.collectNodeEdges R it node ↔ ∃ dep ∈ node.deps, run.edgeOf R it node dep = some e := by
  show e ∈ collectFrom R run it node [] node.deps ↔ _
  rw [mem_collectFrom node.deps [] (by simp)]
  simp

/-- The scopes are solved: every node comes from the input, and every dependency
of it that is not pruned is an edge to a node that meets it. -/
structure Closed (R : Resolver) (run : Run) : Prop where
  name : ∀ (key : GroupNode) (node : ResolvedPkg), run.nodeAt key = some node →
    node.id.qualified = key.name
  made : ∀ (key : GroupNode) (node : ResolvedPkg), run.nodeAt key = some node →
    Made R run.registry node
  linked : ∀ (key : GroupNode) (node : ResolvedPkg), run.nodeAt key = some node →
    ∀ dep ∈ node.deps, R.classifyDep run.registry node dep ≠ .pruned →
    ∃ e, run.edgeOf R key.scope node dep = some e ∧ Meets run.met e.node dep ∧
      (e.edge ≠ .scope → ⟨key.scope, e.scope, e.edge = .isPrivate⟩ ∈ run.edges)

theorem nodeAt_eq_some {key : GroupNode} {node : ResolvedPkg} :
    run.nodeAt key = some node ↔
      ∃ scope, run.scopes[key.scope]? = some scope ∧ scope.named[key.name]? = some node := by
  rw [nodeAt, Option.bind_eq_some_iff]

/-- What a held node asks for across a boundary was delivered. -/
theorem Inv.delivered (hrun : run.Inv R) {key : GroupNode} {node : ResolvedPkg}
    (hnode : run.nodeAt key = some node) {dep : Req} (hdep : dep ∈ node.deps) {edge : DepEdge}
    (hedge : R.classifyDep run.registry node dep = edge)
    (hcross : edge = .process ∨ edge = .isPrivate) :
    run.Delivered key.scope ⟨node.id, edge, dep⟩ := by
  obtain ⟨scope, hscope, held⟩ := nodeAt_eq_some.1 hnode
  obtain ⟨past, hinv, hpast⟩ := (hrun.scopes _ _ hscope).ledger
  have hvis : key.name ∉ (run.search scope).visited := by
    rw [show (run.search scope).visited = ∅ from hrun.visited]
    exact Finset.notMem_empty _
  have hfin := hinv.finished _ _ held hvis
  cases hfin with
  | @intro _ node' held' answered _ =>
    have held'' : scope.named[key.name]? = some node' := held'
    rw [held] at held''
    cases held''
    have hans := answered dep hdep
    change Answered ⟨scope.reqs, past⟩ (run.search scope) node dep
      (R.classifyDep run.registry node dep) at hans
    rw [hedge] at hans
    have hposted : (⟨node.id, edge, dep⟩ : Boundary) ∈ past ∨
        (⟨node.id, edge, dep⟩ : Boundary) ∈ (run.search scope).boundaries := by
      rcases hcross with rfl | rfl
      · exact hans
      · exact hans
    rcases hposted with hb | hb
    · exact hpast _ hb
    · rw [show (run.search scope).boundaries = [] from hrun.boundaries] at hb
      cases hb

/-- The end of the rounds. -/
theorem closed_of_inv (hrun : run.Inv R)
    (hdone : ∀ (i : ℕ) (scope : Scope), run.scopes[i]? = some scope →
      scope.cursor = scope.reqs.length) : run.Closed R := by
  have search : ∀ (key : GroupNode) (node : ResolvedPkg), run.nodeAt key = some node →
      ∃ scope past, run.scopes[key.scope]? = some scope ∧ scope.named[key.name]? = some node ∧
        (run.search scope).Inv R ⟨scope.reqs, past⟩ ∧ ∀ b ∈ past, run.Delivered key.scope b := by
    intro key node hnode
    obtain ⟨scope, hscope, held⟩ := nodeAt_eq_some.1 hnode
    obtain ⟨past, hinv, hpast⟩ := (hrun.scopes _ _ hscope).ledger
    exact ⟨scope, past, hscope, held, hinv, hpast⟩
  -- what was delivered was answered
  have delivered : ∀ {src : ℕ} {b : Boundary}, run.Delivered src b →
      ∃ dst pkg, run.findScope b.root b.owner = some dst ∧
        run.nodeAt ⟨dst, b.req.qualified⟩ = some pkg ∧ Meets run.met pkg b.req ∧
        ⟨src, dst, b.edge = .isPrivate⟩ ∈ run.edges := by
    rintro src b ⟨dst, scope, hfind, hscope, hreq, hedge⟩
    have hreq' : b.req.asPlain ∈ scope.reqs.take scope.cursor := by
      rw [hdone dst scope hscope, List.take_length]
      exact hreq
    obtain ⟨pkg, hpkg, hmeets⟩ :=
      (hrun.scopes dst scope hscope).answered _ hreq' b.req.plain_asPlain
    exact ⟨dst, pkg, hfind, nodeAt_eq_some.2 ⟨scope, hscope, hpkg⟩, hmeets, hedge⟩
  refine ⟨?_, ?_, ?_⟩
  · intro key node hnode
    obtain ⟨scope, past, -, held, hinv, -⟩ := search key node hnode
    exact hinv.name _ _ held
  · intro key node hnode
    obtain ⟨scope, past, -, held, hinv, -⟩ := search key node hnode
    exact hinv.made _ _ held
  · intro key node hnode dep hdep hclass
    obtain ⟨scope, past, hscope, held, hinv, hpast⟩ := search key node hnode
    have hvis : key.name ∉ (run.search scope).visited := by
      rw [show (run.search scope).visited = ∅ from hrun.visited]
      exact Finset.notMem_empty _
    have hfin := hinv.finished _ _ held hvis
    cases hfin with
    | @intro _ node' held' answered _ =>
      have held'' : scope.named[key.name]? = some node' := held'
      rw [held] at held''
      cases held''
      have hans := answered dep hdep
      change Answered ⟨scope.reqs, past⟩ (run.search scope) node dep
        (R.classifyDep run.registry node dep) at hans
      cases hedge : R.classifyDep run.registry node dep with
      | pruned => exact absurd hedge hclass
      | scope =>
        rw [hedge] at hans
        obtain ⟨pkg, hpkg, hmeets⟩ := hans
        refine ⟨⟨key.scope, dep.qualified, pkg, dep.kind, .scope, dep.isPrivate⟩,
          edgeOf_eq_some.2 ⟨?_, nodeAt_eq_some.2 ⟨scope, hscope, hpkg⟩, rfl, rfl, hedge.symm, rfl⟩,
          hmeets, fun h => absurd rfl h⟩
        rw [hedge]
        rfl
      | process =>
        obtain ⟨dst, pkg, hfind, hpkg, hmeets, hrunedge⟩ :=
          delivered (hrun.delivered hnode hdep hedge (.inl rfl))
        refine ⟨⟨dst, dep.qualified, pkg, dep.kind, .process, dep.isPrivate⟩,
          edgeOf_eq_some.2 ⟨?_, hpkg, rfl, rfl, hedge.symm, rfl⟩, hmeets, fun _ => hrunedge⟩
        rw [hedge]
        exact hfind
      | isPrivate =>
        obtain ⟨dst, pkg, hfind, hpkg, hmeets, hrunedge⟩ :=
          delivered (hrun.delivered hnode hdep hedge (.inr rfl))
        refine ⟨⟨dst, dep.qualified, pkg, dep.kind, .isPrivate, dep.isPrivate⟩,
          edgeOf_eq_some.2 ⟨?_, hpkg, rfl, rfl, hedge.symm, rfl⟩, hmeets, fun _ => hrunedge⟩
        rw [hedge]
        exact hfind

end Run

end Spn.Resolve
