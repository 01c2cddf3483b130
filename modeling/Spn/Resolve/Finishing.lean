import Spn.Lib.Saturate
import Spn.Resolve.Outcome

/-! # The end of a run

What `solve_once` does once the scopes are solved ends, too: the rounds of
`compute_processes`, and the walks over the nodes of all scopes.
-/
namespace Spn.Resolve

open Spn.Lib

/-! ## Processes -/

/-- The scopes are that many, and their processes are scopes. -/
structure Peopled (n : ℕ) (scopes : List Scope) : Prop where
  length : scopes.length = n
  nodup : ∀ (i : ℕ) (scope : Scope), scopes[i]? = some scope → scope.processes.Nodup
  inside : ∀ (i : ℕ) (scope : Scope), scopes[i]? = some scope → ∀ p ∈ scope.processes, p < n

/-- How many processes the scopes have together. -/
def crowd (scopes : List Scope) : ℕ := (scopes.map fun scope => scope.processes.length).sum

theorem Scope.addProcess_processes (scope : Scope) (p : ℕ) :
    (scope.addProcess p).processes =
      if p ∈ scope.processes then scope.processes else scope.processes ++ [p] := by
  unfold Scope.addProcess
  split <;> rfl

theorem Scope.mem_addProcess {scope : Scope} {p q : ℕ} :
    q ∈ (scope.addProcess p).processes ↔ q ∈ scope.processes ∨ q = p := by
  rw [scope.addProcess_processes]
  split
  · rename_i hmem
    exact ⟨.inl, fun h => h.elim id fun heq => heq ▸ hmem⟩
  · simp

theorem Scope.addProcess_nodup {scope : Scope} (h : scope.processes.Nodup) (p : ℕ) :
    (scope.addProcess p).processes.Nodup := by
  rw [scope.addProcess_processes]
  split
  · exact h
  · rename_i hnew
    exact List.nodup_append.2 ⟨h, List.nodup_singleton p,
      fun a ha b hb heq => hnew (by rwa [← List.mem_singleton.1 hb, ← heq])⟩

/-- Adding some processes to a scope. -/
theorem Scope.foldl_addProcess_spec (ps : List ℕ) {scope : Scope} (h : scope.processes.Nodup) :
    (ps.foldl Scope.addProcess scope).processes.Nodup ∧
      ∀ q, q ∈ (ps.foldl Scope.addProcess scope).processes ↔ q ∈ scope.processes ∨ q ∈ ps := by
  induction ps generalizing scope with
  | nil => exact ⟨h, by simp⟩
  | cons p rest ih =>
    obtain ⟨hnodup, hmem⟩ := ih (scope.addProcess_nodup h p)
    refine ⟨hnodup, fun q => ?_⟩
    rw [List.foldl_cons, hmem, Scope.mem_addProcess, List.mem_cons, or_assoc]

namespace Peopled

variable {n : ℕ} {scopes : List Scope}

/-- One scope of them gets processes. -/
theorem set (h : Peopled n scopes) (i : ℕ) {scope : Scope} (hnodup : scope.processes.Nodup)
    (hinside : ∀ p ∈ scope.processes, p < n) : Peopled n (scopes.set i scope) where
  length := by rw [List.length_set]; exact h.length
  nodup j scope' hj := by
    rw [List.getElem?_set] at hj
    split at hj
    · split at hj
      · cases hj
        exact hnodup
      · cases hj
    · exact h.nodup j scope' hj
  inside j scope' hj := by
    rw [List.getElem?_set] at hj
    split at hj
    · split at hj
      · cases hj
        exact hinside
      · cases hj
    · exact h.inside j scope' hj

theorem addProcess (h : Peopled n scopes) {i : ℕ} (hi : i < n) :
    Peopled n (scopes.modify i (·.addProcess i)) := by
  have hlt : i < scopes.length := h.length ▸ hi
  have hget := List.getElem?_eq_getElem hlt
  have hmodify : scopes.modify i (·.addProcess i) = scopes.set i (scopes[i].addProcess i) := by
    rw [List.modify_eq_set_getElem?, hget]
    rfl
  rw [hmodify]
  refine h.set i (Scope.addProcess_nodup (h.nodup i _ hget) i) fun p hp => ?_
  rcases Scope.mem_addProcess.1 hp with hp | rfl
  · exact h.inside i _ hget p hp
  · exact hi

theorem addProcess_any (h : Peopled n scopes) (i : ℕ) :
    Peopled n (scopes.modify i (·.addProcess i)) := by
  rcases lt_or_ge i n with hi | hi
  · exact h.addProcess hi
  · rwa [List.modify_eq_self (h.length ▸ hi)]

theorem seed (h : Peopled n scopes) (edges : List ScopeEdge) :
    Peopled n (seedProcesses edges scopes) := by
  unfold seedProcesses
  have hstep : ∀ (edges : List ScopeEdge) (scopes : List Scope), Peopled n scopes →
      Peopled n (edges.foldl (fun scopes edge =>
        if edge.isPrivate then scopes else scopes.modify edge.dst (·.addProcess edge.dst))
        scopes) := by
    intro edges
    induction edges with
    | nil => exact fun scopes h => h
    | cons edge rest ih =>
      intro scopes h
      refine ih _ ?_
      beta_reduce
      split
      · exact h
      · exact h.addProcess_any edge.dst
  exact hstep edges _ (h.addProcess_any 0)

/-- There is room for every scope in every scope. -/
theorem crowd_le (h : Peopled n scopes) : crowd scopes ≤ n * n := by
  have hle : ∀ scope ∈ scopes, scope.processes.length ≤ n := by
    intro scope hscope
    obtain ⟨i, hi⟩ := List.getElem?_of_mem hscope
    have hsubset : scope.processes ⊆ List.range n :=
      fun p hp => List.mem_range.2 (h.inside i scope hi p hp)
    have := ((h.nodup i scope hi).subperm hsubset).length_le
    rwa [List.length_range] at this
  have := sum_map_le_mul (f := fun scope : Scope => scope.processes.length) hle
  rwa [h.length] at this

end Peopled

/-- An edge adds processes if it says so, and takes none away. -/
theorem spreadEdge_spec {n : ℕ} {scopes : List Scope} (h : Peopled n scopes) (changed : Bool)
    (edge : ScopeEdge) :
    Peopled n (spreadEdge (scopes, changed) edge).1 ∧
      crowd scopes ≤ crowd (spreadEdge (scopes, changed) edge).1 ∧
      ((spreadEdge (scopes, changed) edge).2 = true →
        changed = true ∨ crowd scopes < crowd (spreadEdge (scopes, changed) edge).1) := by
  unfold spreadEdge
  simp only
  split
  case h_2 => exact ⟨h, le_refl _, .inl⟩
  case h_1 src dst _ hsrc hdst =>
    split
    · exact ⟨h, le_refl _, .inl⟩
    · rename_i hsome
      obtain ⟨hnodup, hmem⟩ := Scope.foldl_addProcess_spec src.processes (h.nodup _ _ hdst)
      have hlt := (List.getElem?_eq_some_iff.1 hdst).1
      have hgrow : dst.processes.length < (src.processes.foldl Scope.addProcess dst).processes.length := by
        simp only [List.all_eq_true, decide_eq_true_eq, not_forall] at hsome
        obtain ⟨p, hp, hnew⟩ := hsome
        have hsub : p :: dst.processes ⊆ (src.processes.foldl Scope.addProcess dst).processes := by
          intro q hq
          rcases List.mem_cons.1 hq with rfl | hq
          · exact (hmem q).2 (.inr hp)
          · exact (hmem q).2 (.inl hq)
        exact ((List.nodup_cons.2 ⟨hnew, h.nodup _ _ hdst⟩).subperm hsub).length_le
      have hset : crowd scopes <
          crowd (scopes.set edge.dst (src.processes.foldl Scope.addProcess dst)) := by
        refine sum_map_lt ?_ hdst (List.getElem?_set_self hlt) hgrow
        intro i scope hi
        by_cases hit : edge.dst = i
        · subst hit
          rw [hdst] at hi
          cases hi
          exact ⟨_, List.getElem?_set_self hlt, hgrow.le⟩
        · exact ⟨scope, by rwa [List.getElem?_set_ne hit], le_refl _⟩
      refine ⟨h.set _ hnodup fun p hp => ?_, hset.le, fun _ => .inr hset⟩
      rcases (hmem p).1 hp with hp | hp
      · exact h.inside _ _ hdst p hp
      · exact h.inside _ _ hsrc p hp

theorem spreadEdges_spec {n : ℕ} (edges : List ScopeEdge) {scopes : List Scope}
    (h : Peopled n scopes) (changed : Bool) :
    Peopled n (edges.foldl spreadEdge (scopes, changed)).1 ∧
      crowd scopes ≤ crowd (edges.foldl spreadEdge (scopes, changed)).1 ∧
      ((edges.foldl spreadEdge (scopes, changed)).2 = true →
        changed = true ∨ crowd scopes < crowd (edges.foldl spreadEdge (scopes, changed)).1) := by
  induction edges generalizing scopes changed with
  | nil => exact ⟨h, le_refl _, .inl⟩
  | cons edge rest ih =>
    obtain ⟨hpeopled, hle, hchanged⟩ := spreadEdge_spec h changed edge
    obtain ⟨hpeopled', hle', hchanged'⟩ := ih hpeopled (spreadEdge (scopes, changed) edge).2
    refine ⟨hpeopled', hle.trans hle', fun hend => ?_⟩
    rcases hchanged' hend with hmid | hlt
    · exact (hchanged hmid).imp_right fun hlt => hlt.trans_le hle'
    · exact .inr (hle.trans_lt hlt)

theorem spreadProcesses_eq_saturate (edges : List ScopeEdge) (fuel : ℕ) (scopes : List Scope) :
    spreadProcesses edges fuel scopes =
      saturate (fun scopes => edges.foldl spreadEdge (scopes, false)) fuel scopes := by
  induction fuel generalizing scopes with
  | zero => rfl
  | succ fuel ih =>
    rw [spreadProcesses, saturate]
    rcases edges.foldl spreadEdge (scopes, false) with ⟨scopes', changed⟩
    cases changed with
    | false => rfl
    | true => exact ih scopes'

/-- The rounds suffice. -/
theorem computeProcesses_ne_none (edges : List ScopeEdge) {scopes : List Scope}
    (h : ∀ scope ∈ scopes, scope.processes = []) : computeProcesses edges scopes ≠ none := by
  have hstart : Peopled scopes.length scopes := by
    refine ⟨rfl, fun i scope hi => ?_, fun i scope hi p hp => ?_⟩
    · rw [h scope (List.mem_of_getElem? hi)]
      exact List.nodup_nil
    · rw [h scope (List.mem_of_getElem? hi)] at hp
      cases hp
  unfold computeProcesses
  rw [spreadProcesses_eq_saturate]
  refine saturate_ne_none crowd (fun s hs => (spreadEdges_spec edges hs false).1) ?_
    (fun s hs => hs.crowd_le) (hstart.seed edges) (by omega)
  intro s hs hchanged
  exact ((spreadEdges_spec edges hs false).2.2 hchanged).resolve_left Bool.false_ne_true

/-! ## The nodes of all scopes -/

namespace Run

variable {R : Resolver} {run : Run}

/-- The nodes of all scopes, as a set. -/
def nodeSet (run : Run) : Finset GroupNode := (run.groupNodes fun _ entries => entries).toFinset

theorem mem_nodeSet {key : GroupNode} : key ∈ run.nodeSet ↔ ∃ node, run.nodeAt key = some node := by
  rw [nodeSet, List.mem_toFinset]
  exact mem_groupNodes fun _ _ => .refl _

/-- The depth is over the number of nodes. -/
theorem nodeSet_card_lt (run : Run) : run.nodeSet.card < run.groupDepth := by
  have hlength : (run.groupNodes fun _ entries => entries).length =
      (run.scopes.map fun scope => scope.named.size).sum := by
    rw [groupNodes, List.length_flatten, List.map_map]
    have hpart : (List.length ∘ fun entry : Scope × ℕ =>
        entry.1.named.toList.map fun kv => GroupNode.mk entry.2 kv.1) =
          fun entry => entry.1.named.size := by
      funext entry
      rw [Function.comp_apply, List.length_map, Std.ExtTreeMap.length_toList]
    rw [hpart]
    have hfst : (fun entry : Scope × ℕ => entry.1.named.size) =
        (fun scope : Scope => scope.named.size) ∘ Prod.fst := rfl
    rw [hfst, ← List.map_map, List.zipIdx_map_fst]
  have hcard := List.toFinset_card_le (run.groupNodes fun _ entries => entries)
  rw [hlength] at hcard
  exact Nat.lt_succ_of_le hcard

theorem mem_nodeSet_of_next {a b : GroupNode} (h : b ∈ run.next R a) : b ∈ run.nodeSet :=
  mem_nodeSet.2 (nodeAt_of_mem_next h)

theorem unknown_nodeSet (W : Type) :
    DepthFirst.unknown run.nodeSet (∅ : Table GroupNode W) < run.groupDepth :=
  (Finset.card_filter_le _ _).trans_lt run.nodeSet_card_lt

theorem checkGroupCycles_ne_stuck (R : Resolver) (run : Run) (L : Listing) : run.checkGroupCycles R L ≠ .stuck := by
  have hdeep : DepthFirst.visitEach (DepthFirst.visit (run.groupSucc R) run.groupDepth)
      (run.groupNodes fun it => L.named (.cycles it)) ∅ ≠ .deep := by
    refine DepthFirst.visitEach_ne_deep (U := run.nodeSet) ?_ (fun a ha => by simp at ha) ?_
      (unknown_nodeSet _)
    · exact DepthFirst.visit_ne_deep (fun a b h => mem_nodeSet_of_next (edge_iff_mem_next.1 h)) _
    · exact fun k hk => mem_nodeSet.2 ((mem_groupNodes fun _ _ => L.named_perm _ _).1 hk)
  unfold checkGroupCycles
  split
  · exact Verdict.noConfusion
  · split
    · exact Verdict.noConfusion
    · exact Verdict.noConfusion
  · contradiction

theorem hashGroupNodes_ne_none (H : Hashing) (L : Listing) : run.hashGroupNodes R H L ≠ none := by
  have hdepth : DepthFirst.unknown run.nodeSet (∅ : Table GroupNode (Option ℕ)) < run.groupDepth :=
    unknown_nodeSet _
  have hgo : ∀ {memo : Table GroupNode (Option ℕ)} {k : GroupNode}, k ∈ run.nodeSet →
      DepthFirst.unknown run.nodeSet memo < run.groupDepth →
      ∃ v memo', run.hashGroupNode R H memo k = some (v, memo') ∧
        ∀ (a : GroupNode) (w : Option ℕ), memo[a]? = some w → memo'[a]? ≠ none :=
    fun hk hd => DepthFirst.eval_ne_none (fun a b h => mem_nodeSet_of_next h) _ hk hd
  obtain ⟨vs, memo, heach, -⟩ := DepthFirst.evalEach_ne_none hgo
    (run.groupNodes fun it => L.named (.hashes it)) ∅
    (fun k hk => mem_nodeSet.2 ((mem_groupNodes fun _ _ => L.named_perm _ _).1 hk)) hdepth
  rw [hashGroupNodes, heach]
  exact Option.some_ne_none memo

end Run

/-- What comes after the scopes ends. -/
theorem finishRun_ne_stuck {R : Resolver} {L : Listing} {H : Hashing} {run : Run}
    (h : ∀ scope ∈ run.scopes, scope.processes = []) : (finishRun R L H run).1 ≠ .stuck := by
  unfold finishRun
  split
  case h_1 hnone => exact absurd hnone (computeProcesses_ne_none run.edges h)
  case h_2 scopes _ =>
    simp only
    have hcycles := Run.checkGroupCycles_ne_stuck R { run with scopes := scopes } L
    split
    case h_1 =>
      split
      case h_1 hnone => exact absurd hnone (Run.hashGroupNodes_ne_none H L)
      case h_2 => split <;> exact Verdict.noConfusion
    case h_2 => exact hcycles

end Spn.Resolve
