import Spn.Options.Apply

/-! # What a turn does to the edges

The third loop of `spn_session_apply_options`, for one dependency, for one node and
for all nodes: an edge goes only for a dependency that is gated off, a loop that
prunes nothing leaves every edge, and one that prunes leaves fewer.
-/
namespace Spn.Options

open Spn.Resolve Spn.Lib

/-- The gate of a dependency holds; one without clauses always does. -/
def Dep.On (dep : Dep) (env : Env) : Prop := whenEval dep.gate env = true

instance (dep : Dep) (env : Env) : Decidable (dep.On env) := by
  unfold Dep.On; infer_instance

theorem Dep.on_of_ungated {dep : Dep} (h : dep.gate = []) (env : Env) : dep.On env := by
  simp [Dep.On, whenEval, h]

theorem findEdge_eq_some {edges : List ResolvedDep} {qualified : Str} {kind : DepKind}
    {e : ResolvedDep} (h : findEdge edges qualified kind = some e) :
    e ∈ edges ∧ e.id.qualified = qualified ∧ e.kind = kind := by
  refine ⟨List.mem_of_find?_eq_some h, ?_⟩
  simpa [isEdge] using List.find?_some h

/-! ## One dependency -/

/-- What the loop body does for a dependency. -/
inductive Gated (env : Env) (acc : List ResolvedDep × Pass) (dep : Dep) :
    List ResolvedDep × Pass → Prop
  | ungated : dep.gate = [] → Gated env acc dep acc
  | fine : dep.gate ≠ [] → (dep.On env ↔ findEdge acc.1 dep.qualified dep.kind ≠ none) →
      Gated env acc dep acc
  | missing (pkg missingDep : Str) : dep.gate ≠ [] → dep.On env →
      findEdge acc.1 dep.qualified dep.kind = none →
      Gated env acc dep (acc.1, ⟨acc.2.pruned, true, pkg, missingDep⟩)
  | pruned {e : ResolvedDep} : dep.gate ≠ [] → ¬dep.On env →
      findEdge acc.1 dep.qualified dep.kind = some e →
      Gated env acc dep
        (acc.1.eraseP (isEdge dep.qualified dep.kind), { acc.2 with pruned := true })

theorem gateDep_gated (node : Node) (env : Env) (acc : List ResolvedDep × Pass) (dep : Dep) :
    Gated env acc dep (gateDep node env acc dep) := by
  obtain ⟨edges, pass⟩ := acc
  by_cases hg : dep.gate = []
  · simpa [gateDep, hg] using Gated.ungated hg
  · cases he : findEdge edges dep.qualified dep.kind with
    | none =>
      by_cases ho : whenEval dep.gate env = true
      · by_cases hn : pass.missingPkg = []
        · simpa [gateDep, hg, he, ho, hn] using Gated.missing _ _ hg ho he
        · simpa [gateDep, hg, he, ho, hn] using Gated.missing _ _ hg ho he
      · simpa [gateDep, hg, he, ho] using
          Gated.fine hg (by simp [Dep.On, ho, he])
    | some e =>
      by_cases ho : whenEval dep.gate env = true
      · simpa [gateDep, hg, he, ho] using
          Gated.fine hg (by simp [Dep.On, ho, he])
      · simpa [gateDep, hg, he, ho] using Gated.pruned hg ho he

/-! ## The dependencies of one node -/

/-- What the dependencies `deps` do to the edges of a node. -/
structure Gates (env : Env) (deps : List Dep) (acc acc' : List ResolvedDep × Pass) : Prop where
  sublist : acc'.1.Sublist acc.1
  removed : ∀ e ∈ acc.1, e ∉ acc'.1 →
    ∃ dep ∈ deps, ¬dep.On env ∧ isEdge dep.qualified dep.kind e = true
  pruned : acc.2.pruned = true → acc'.2.pruned = true
  missing : acc.2.missing = true → acc'.2.missing = true
  /-- Nothing is pruned: every edge stays and nothing that has an edge is gated off. -/
  kept : acc'.2.pruned = false → acc'.1 = acc.1 ∧
    ∀ dep ∈ deps, dep.gate ≠ [] → ¬dep.On env → findEdge acc.1 dep.qualified dep.kind = none
  /-- Nothing is missing either: what is gated on has an edge. -/
  present : acc'.2.pruned = false → acc'.2.missing = false →
    ∀ dep ∈ deps, dep.gate ≠ [] → dep.On env → findEdge acc.1 dep.qualified dep.kind ≠ none
  fewer : acc.2.pruned = false → acc'.2.pruned = true → acc'.1.length < acc.1.length

theorem Gates.nil (env : Env) (acc : List ResolvedDep × Pass) : Gates env [] acc acc where
  sublist := .refl _
  removed e he hn := absurd he hn
  pruned h := h
  missing h := h
  kept _ := ⟨rfl, by simp⟩
  present _ _ := by simp
  fewer h h' := by rw [h] at h'; cases h'

theorem eraseP_length_lt {edges : List ResolvedDep} {qualified : Str} {kind : DepKind}
    {e : ResolvedDep} (h : findEdge edges qualified kind = some e) :
    (edges.eraseP (isEdge qualified kind)).length < edges.length := by
  obtain ⟨hm, hq, hk⟩ := findEdge_eq_some h
  rw [List.length_eraseP_of_mem hm (by simp [isEdge, hq, hk])]
  have := List.length_pos_of_mem hm
  omega

theorem Gates.cons {env : Env} {dep : Dep} {deps : List Dep}
    {acc mid acc' : List ResolvedDep × Pass} (hd : Gated env acc dep mid)
    (h : Gates env deps mid acc') : Gates env (dep :: deps) acc acc' := by
  cases hd with
  | ungated hg =>
    refine ⟨h.sublist, ?_, h.pruned, h.missing, ?_, ?_, h.fewer⟩
    · intro e he hn
      obtain ⟨d, hd, hoff⟩ := h.removed e he hn
      exact ⟨d, List.mem_cons_of_mem _ hd, hoff⟩
    · intro hp
      refine ⟨(h.kept hp).1, ?_⟩
      rintro d (_ | ⟨_, hd⟩)
      · intro hne
        exact absurd hg hne
      · exact (h.kept hp).2 d hd
    · intro hp hm
      rintro d (_ | ⟨_, hd⟩)
      · intro hne
        exact absurd hg hne
      · exact h.present hp hm d hd
  | fine hg hiff =>
    refine ⟨h.sublist, ?_, h.pruned, h.missing, ?_, ?_, h.fewer⟩
    · intro e he hn
      obtain ⟨d, hd, hoff⟩ := h.removed e he hn
      exact ⟨d, List.mem_cons_of_mem _ hd, hoff⟩
    · intro hp
      refine ⟨(h.kept hp).1, ?_⟩
      rintro d (_ | ⟨_, hd⟩)
      · intro _ hoff
        by_contra hne
        exact hoff (hiff.2 hne)
      · exact (h.kept hp).2 d hd
    · intro hp hm
      rintro d (_ | ⟨_, hd⟩)
      · intro _ hon
        exact hiff.1 hon
      · exact h.present hp hm d hd
  | missing pkg missingDep hg hon hnone =>
    refine ⟨h.sublist, ?_, h.pruned, fun _ => h.missing rfl, ?_, ?_, h.fewer⟩
    · intro e he hn
      obtain ⟨d, hd, hoff⟩ := h.removed e he hn
      exact ⟨d, List.mem_cons_of_mem _ hd, hoff⟩
    · intro hp
      refine ⟨(h.kept hp).1, ?_⟩
      rintro d (_ | ⟨_, hd⟩)
      · intro _ hoff
        exact absurd hon hoff
      · exact (h.kept hp).2 d hd
    · intro _ hm
      have := h.missing rfl
      rw [hm] at this
      cases this
  | @pruned e hg hoff hsome =>
    have hlt := eraseP_length_lt hsome
    have hle := h.sublist.length_le
    have hpr : acc'.2.pruned = true := h.pruned rfl
    refine ⟨h.sublist.trans List.eraseP_sublist, ?_, fun _ => hpr, h.missing, ?_, ?_,
      fun _ _ => by dsimp only at hle hlt; omega⟩
    · intro e' he' hn
      by_cases hmid : e' ∈ acc.1.eraseP (isEdge dep.qualified dep.kind)
      · obtain ⟨d, hd, hoff⟩ := h.removed e' hmid hn
        exact ⟨d, List.mem_cons_of_mem _ hd, hoff⟩
      · refine ⟨dep, by simp, hoff, ?_⟩
        by_contra hne
        exact hmid ((List.mem_eraseP_of_neg hne).2 he')
    · intro hp
      rw [hpr] at hp
      cases hp
    · intro hp
      rw [hpr] at hp
      cases hp

theorem foldl_gates (node : Node) (env : Env) (deps : List Dep)
    (acc : List ResolvedDep × Pass) : Gates env deps acc (deps.foldl (gateDep node env) acc) := by
  induction deps generalizing acc with
  | nil => exact .nil env acc
  | cons dep deps ih => exact .cons (gateDep_gated node env acc dep) (ih _)

/-! ## All nodes -/

/-- The node with fewer edges, each of which went for a dependency that is off. -/
structure Shrunk (s : Session) (node node' : Node) : Prop where
  same : node' = { node with edges := node'.edges }
  sublist : node'.edges.Sublist node.edges
  removed : ∀ e ∈ node.edges, e ∉ node'.edges →
    ∃ dep ∈ s.deps node.id, ¬dep.On (s.env node) ∧ isEdge dep.qualified dep.kind e = true

/-- The edges of a list of nodes. -/
def countEdges (nodes : List Node) : ℕ := (nodes.map fun node => node.edges.length).sum

/-- What the third loop does. -/
structure GatesAll (s : Session) (nodes : List Node) (pass : Pass) (out : List Node × Pass) :
    Prop where
  each : List.Forall₂ (Shrunk s) nodes out.1
  pruned : pass.pruned = true → out.2.pruned = true
  missing : pass.missing = true → out.2.missing = true
  kept : out.2.pruned = false → out.1 = nodes ∧ ∀ node ∈ nodes, ∀ dep ∈ s.deps node.id,
    dep.gate ≠ [] → ¬dep.On (s.env node) → findEdge node.edges dep.qualified dep.kind = none
  present : out.2.pruned = false → out.2.missing = false →
    ∀ node ∈ nodes, ∀ dep ∈ s.deps node.id, dep.gate ≠ [] → dep.On (s.env node) →
      findEdge node.edges dep.qualified dep.kind ≠ none
  fewer : pass.pruned = false → out.2.pruned = true → countEdges out.1 < countEdges nodes

theorem GatesAll.countEdges_le {s : Session} {nodes nodes' : List Node}
    (h : List.Forall₂ (Shrunk s) nodes nodes') : countEdges nodes' ≤ countEdges nodes := by
  induction h with
  | nil => exact le_rfl
  | cons hd _ ih =>
    have := hd.sublist.length_le
    simp only [countEdges, List.map_cons, List.sum_cons] at ih ⊢
    omega

theorem gateNodes_gatesAll (s : Session) (nodes : List Node) (pass : Pass) :
    GatesAll s nodes pass (s.gateNodes nodes pass) := by
  induction nodes generalizing pass with
  | nil =>
    refine ⟨.nil, id, id, fun _ => ⟨rfl, by simp⟩, by simp, fun h h' => ?_⟩
    rw [show (s.gateNodes [] pass).2 = pass from rfl, h] at h'
    cases h'
  | cons node rest ih =>
    have hn := foldl_gates node (s.env node) (s.deps node.id) (node.edges, pass)
    rw [Session.gateNodes]
    generalize (s.deps node.id).foldl (gateDep node (s.env node)) (node.edges, pass) = mid at hn
    obtain ⟨edges, mid⟩ := mid
    dsimp only
    have hr := ih mid
    generalize s.gateNodes rest mid = out at hr
    obtain ⟨nodes, out⟩ := out
    refine ⟨.cons ⟨rfl, hn.sublist, hn.removed⟩ hr.each, fun h => hr.pruned (hn.pruned h),
      fun h => hr.missing (hn.missing h), ?_, ?_, ?_⟩
    · intro hp
      have hmid : mid.pruned = false := by
        by_contra hne
        have := hr.pruned (by simpa using hne)
        rw [hp] at this
        cases this
      obtain ⟨hedges, hoff⟩ := hn.kept hmid
      obtain ⟨hnodes, hrest⟩ := hr.kept hp
      dsimp only at hedges hnodes ⊢
      refine ⟨by rw [hedges, hnodes], ?_⟩
      rintro a (_ | ⟨_, ha⟩)
      · exact hoff
      · exact hrest a ha
    · intro hp hm
      have hmid : mid.pruned = false := by
        by_contra hne
        have := hr.pruned (by simpa using hne)
        rw [hp] at this
        cases this
      have hmid' : mid.missing = false := by
        by_contra hne
        have := hr.missing (by simpa using hne)
        rw [hm] at this
        cases this
      rintro a (_ | ⟨_, ha⟩)
      · exact hn.present hmid hmid'
      · exact hr.present hp hm a ha
    · intro hp hp'
      have hle := GatesAll.countEdges_le hr.each
      have hle' := hn.sublist.length_le
      simp only [countEdges, List.map_cons, List.sum_cons] at hle ⊢
      cases hmid : mid.pruned with
      | true =>
        have := hn.fewer hp hmid
        dsimp only at this hle'
        omega
      | false =>
        have := hr.fewer hmid hp'
        simp only [countEdges] at this
        dsimp only at hle'
        omega

end Spn.Options
