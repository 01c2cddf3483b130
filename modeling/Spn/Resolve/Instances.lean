import Spn.Resolve.Group

/-! # Instances

The end of `solve_once`, after a success: the graph of the nodes has no cycle,
every node was hashed from the hashes of its targets, and the table of instances
holds the instance of every node and of nothing else.
-/
namespace Spn.Resolve

open Spn.Lib

/-- The scope without its processes. -/
def Scope.bare (scope : Scope) : Scope := { scope with processes := [] }

theorem Scope.bare_addProcess (scope : Scope) (process : ℕ) :
    (scope.addProcess process).bare = scope.bare := by
  unfold addProcess
  split <;> rfl

theorem map_bare_modify (scopes : List Scope) (i : ℕ) {f : Scope → Scope}
    (hf : ∀ scope, (f scope).bare = scope.bare) :
    (scopes.modify i f).map Scope.bare = scopes.map Scope.bare := by
  refine List.ext_getElem? fun j => ?_
  rw [List.getElem?_map, List.getElem?_map, List.getElem?_modify]
  cases scopes[j]? with
  | none => rfl
  | some scope => by_cases h : i = j <;> simp [h, hf]

theorem map_bare_seed (edges : List ScopeEdge) (scopes : List Scope) :
    (seedProcesses edges scopes).map Scope.bare = scopes.map Scope.bare := by
  unfold seedProcesses
  rw [← map_bare_modify scopes 0 fun scope => scope.bare_addProcess 0]
  generalize scopes.modify 0 (·.addProcess 0) = scopes
  induction edges generalizing scopes with
  | nil => rfl
  | cons edge rest ih =>
    rw [List.foldl_cons, ih]
    split
    · rfl
    · exact map_bare_modify scopes edge.dst fun scope => scope.bare_addProcess edge.dst

theorem bare_foldl_addProcess (processes : List ℕ) (scope : Scope) :
    (processes.foldl Scope.addProcess scope).bare = scope.bare := by
  induction processes generalizing scope with
  | nil => rfl
  | cons p rest ih => rw [List.foldl_cons, ih, Scope.bare_addProcess]

theorem map_bare_spreadEdge (state : List Scope × Bool) (edge : ScopeEdge) :
    (spreadEdge state edge).1.map Scope.bare = state.1.map Scope.bare := by
  obtain ⟨scopes, changed⟩ := state
  unfold spreadEdge
  simp only
  split
  case h_1 src dst hprivate hsrc hdst =>
    split
    · rfl
    · refine List.ext_getElem? fun j => ?_
      rw [List.getElem?_map, List.getElem?_map, List.getElem?_set]
      split
      case isTrue h =>
        subst h
        obtain ⟨hlt, hget⟩ := List.getElem?_eq_some_iff.1 hdst
        rw [if_pos hlt, hdst]
        simp [bare_foldl_addProcess]
      case isFalse => rfl
  case h_2 => rfl

theorem map_bare_spread (edges : List ScopeEdge) (state : List Scope × Bool) :
    (edges.foldl spreadEdge state).1.map Scope.bare = state.1.map Scope.bare := by
  induction edges generalizing state with
  | nil => rfl
  | cons edge rest ih => rw [List.foldl_cons, ih, map_bare_spreadEdge]

theorem map_bare_spreadProcesses (edges : List ScopeEdge) (fuel : ℕ) {scopes scopes' : List Scope}
    (h : spreadProcesses edges fuel scopes = some scopes') :
    scopes'.map Scope.bare = scopes.map Scope.bare := by
  induction fuel generalizing scopes with
  | zero => cases h
  | succ fuel ih =>
    unfold spreadProcesses at h
    have hround := map_bare_spread edges (scopes, false)
    rcases hres : edges.foldl spreadEdge (scopes, false) with ⟨scopes₁, changed⟩
    rw [hres] at h hround
    cases changed with
    | false =>
      cases h
      exact hround
    | true => exact (ih h).trans hround

/-- Spreading the processes changes nothing else. -/
theorem map_bare_computeProcesses {edges : List ScopeEdge} {scopes scopes' : List Scope}
    (h : computeProcesses edges scopes = some scopes') :
    scopes'.map Scope.bare = scopes.map Scope.bare :=
  (map_bare_spreadProcesses edges _ h).trans (map_bare_seed edges scopes)

namespace Run

variable {R : Resolver} {run : Run}

theorem getElem?_of_bare {scopes scopes' : List Scope}
    (h : scopes'.map Scope.bare = scopes.map Scope.bare) (i : ℕ) :
    scopes'[i]?.map Scope.bare = scopes[i]?.map Scope.bare := by
  rw [← List.getElem?_map, ← List.getElem?_map, h]

theorem nodeAt_of_bare {scopes : List Scope}
    (h : scopes.map Scope.bare = run.scopes.map Scope.bare) (key : GroupNode) :
    ({ run with scopes := scopes } : Run).nodeAt key = run.nodeAt key := by
  have hkey := getElem?_of_bare h key.scope
  unfold nodeAt
  show (scopes[key.scope]?.bind fun scope => scope.named[key.name]?) = _
  cases ha : scopes[key.scope]? with
  | none =>
    rw [ha] at hkey
    cases hb : run.scopes[key.scope]? with
    | none => rfl
    | some b => rw [hb] at hkey; cases hkey
  | some a =>
    rw [ha] at hkey
    cases hb : run.scopes[key.scope]? with
    | none => rw [hb] at hkey; cases hkey
    | some b =>
      rw [hb] at hkey
      have hbare : a.bare = b.bare := Option.some.inj hkey
      have hnamed : a.bare.named = b.bare.named := by rw [hbare]
      have hnamed : a.named = b.named := hnamed
      simp only [Option.bind_some, hnamed]

theorem findScope_of_bare {scopes : List Scope}
    (h : scopes.map Scope.bare = run.scopes.map Scope.bare) (root : Str) (owner : PkgId) :
    ({ run with scopes := scopes } : Run).findScope root owner = run.findScope root owner := by
  have keyed : ∀ l : List Scope, l.findIdx? (isScope root owner) =
      (l.map Scope.bare).findIdx? (isScope root owner) := by
    intro l
    rw [List.findIdx?_map]
    rfl
  show scopes.findIdx? (isScope root owner) = run.scopes.findIdx? (isScope root owner)
  rw [keyed, h, ← keyed]

theorem edgeOf_of_bare {scopes : List Scope}
    (h : scopes.map Scope.bare = run.scopes.map Scope.bare) (it : ℕ) (node : ResolvedPkg)
    (dep : Req) :
    ({ run with scopes := scopes } : Run).edgeOf R it node dep = run.edgeOf R it node dep := by
  have htarget : ∀ edge, ({ run with scopes := scopes } : Run).targetScope it node dep edge =
      run.targetScope it node dep edge := by
    intro edge
    cases edge with
    | pruned => rfl
    | scope => rfl
    | process => exact findScope_of_bare h _ _
    | isPrivate => exact findScope_of_bare h _ _
  unfold edgeOf
  simp only [htarget]
  cases run.targetScope it node dep (R.classifyDep run.registry node dep) with
  | none => rfl
  | some scope => simp only [nodeAt_of_bare h]

theorem Closed.of_bare (hrun : run.Closed R) {scopes : List Scope}
    (h : scopes.map Scope.bare = run.scopes.map Scope.bare) :
    ({ run with scopes := scopes } : Run).Closed R where
  name key node hnode := hrun.name key node (nodeAt_of_bare h key ▸ hnode)
  made key node hnode := hrun.made key node (nodeAt_of_bare h key ▸ hnode)
  linked key node hnode dep hdep hclass := by
    obtain ⟨e, he, hmeets, hedge⟩ :=
      hrun.linked key node (nodeAt_of_bare h key ▸ hnode) dep hdep hclass
    exact ⟨e, (edgeOf_of_bare h key.scope node dep).trans he, hmeets, hedge⟩

end Run

end Spn.Resolve
