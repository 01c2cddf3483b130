import Spn.Resolve.Instances

/-! # What a solve that succeeds leaves

After a success every scope is solved, the graph of the nodes has no cycle, every
node was hashed from the hashes of its targets, and the table of instances holds the
instance of every node and of nothing else.
-/
namespace Spn.Resolve

open Spn.Lib

/-- A run that `solve_once` ended well, with the hashes of its nodes. -/
structure Solved.Complete (R : Resolver) (L : Listing) (H : Hashing) (solved : Solved) : Prop where
  closed : solved.run.Closed R
  checked : solved.run.checkGroupCycles R L = .ok
  hashed : solved.run.hashGroupNodes R H L = some solved.memo
  result : solved.run.result = solved.run.commitInstances R L solved.memo
  single : solved.run.checkDynamicDuplicates R L solved.memo = none

section

variable {R : Resolver} {L : Listing} {H : Hashing}

theorem startRun_inv (R : Resolver) (registry : Registry) (forced : Option Pin) (reqs : List Req) :
    (startRun R registry forced reqs).Inv R := by
  refine ⟨fun i scope hi => ?_, rfl, rfl⟩
  have huntouched : scope.Untouched := by
    rw [startRun, List.getElem?_singleton] at hi
    split at hi
    · cases hi
      exact ⟨rfl, rfl, rfl, rfl⟩
    · cases hi
  exact huntouched.inv rfl

/-- The end of `solve_once`. -/
theorem finishRun_complete {run : Run} {solved : Solved} (hrun : run.Closed R)
    (h : finishRun R L H run = (.ok, solved)) : solved.Complete R L H := by
  unfold finishRun at h
  cases hp : computeProcesses run.edges run.scopes with
  | none => simp [hp] at h
  | some scopes =>
    simp only [hp] at h
    have hclosed : ({ run with scopes := scopes } : Run).Closed R :=
      hrun.of_bare (map_bare_computeProcesses hp)
    cases hc : ({ run with scopes := scopes } : Run).checkGroupCycles R L with
    | err e => simp [hc] at h
    | stuck => simp [hc] at h
    | ok =>
      simp only [hc] at h
      cases hm : ({ run with scopes := scopes } : Run).hashGroupNodes R H L with
      | none => simp [hm] at h
      | some memo =>
        simp only [hm] at h
        split at h
        case h_2 => cases h
        case h_1 hd =>
          cases h
          exact ⟨⟨hclosed.name, hclosed.made, hclosed.linked⟩, hc, hm, rfl, hd⟩

theorem solveOnce_complete {fuel : ℕ} {registry : Registry} {forced : Option Pin} {reqs : List Req}
    {solved : Solved} (h : solveOnce R L H fuel registry forced reqs = (.ok, solved)) :
    solved.Complete R L H := by
  unfold solveOnce at h
  have hsound : (solveScopes R L fuel fuel 0 false (startRun R registry forced reqs)).1 = .ok → _ :=
    solveScopes_sound L fuel (startRun_inv R registry forced reqs)
      fun _ i hi => absurd hi (Nat.not_lt_zero i)
  rcases hs : solveScopes R L fuel fuel 0 false (startRun R registry forced reqs) with
    ⟨verdict, run⟩
  rw [hs] at h hsound
  cases verdict with
  | err e => cases h
  | stuck => cases h
  | ok =>
    obtain ⟨hinv, hdone⟩ := hsound rfl
    exact finishRun_complete (Run.closed_of_inv hinv hdone) h

theorem retryForced_ok {fuel : ℕ} {reqs : List Req} {first : Err} {pins : List Pin}
    {before solved : Solved} (h : retryForced R L H fuel reqs first pins before = (.ok, solved)) :
    ∃ registry forced, solveOnce R L H fuel registry forced reqs = (.ok, solved) := by
  induction pins generalizing before with
  | nil => cases h
  | cons pin rest ih =>
    unfold retryForced at h
    rcases hs : solveOnce R L H fuel before.run.registry (some pin) reqs with ⟨verdict, after⟩
    rw [hs] at h
    cases verdict with
    | ok =>
      cases h
      exact ⟨_, _, hs⟩
    | stuck => cases h
    | err e => exact ih h

/-- A success is that of one `solve_once`. -/
theorem resolveFromSolver_ok {fuel : ℕ} {registry : Registry} {reqs : List Req} {solved : Solved}
    (h : resolveFromSolver R L H fuel registry reqs = (.ok, solved)) :
    ∃ registry forced, solveOnce R L H fuel registry forced reqs = (.ok, solved) := by
  unfold resolveFromSolver at h
  rcases hs : solveOnce R L H fuel registry none reqs with ⟨verdict, after⟩
  rw [hs] at h
  cases verdict with
  | ok =>
    cases h
    exact ⟨_, _, hs⟩
  | stuck => cases h
  | err e => exact retryForced_ok h

theorem resolveFromSolver_complete {fuel : ℕ} {registry : Registry} {reqs : List Req}
    {solved : Solved} (h : resolveFromSolver R L H fuel registry reqs = (.ok, solved)) :
    solved.Complete R L H := by
  obtain ⟨registry, forced, h⟩ := resolveFromSolver_ok h
  exact solveOnce_complete h

end

namespace Run

variable {R : Resolver} {run : Run}

/-- The walks start at every node. -/
theorem mem_groupNodes {list : ℕ → List (Str × ResolvedPkg) → List (Str × ResolvedPkg)}
    (hlist : ∀ it entries, (list it entries).Perm entries) {key : GroupNode} :
    key ∈ run.groupNodes list ↔ ∃ node, run.nodeAt key = some node := by
  simp only [groupNodes, List.mem_flatten, List.mem_map]
  constructor
  · rintro ⟨_, ⟨⟨scope, it⟩, hscope, rfl⟩, hkey⟩
    obtain ⟨⟨name, node⟩, hentry, rfl⟩ := List.mem_map.1 hkey
    have hentry := (Table.mem_toList_iff _).1 ((hlist _ _).mem_iff.1 hentry)
    have hget := (List.mem_zipIdx_iff_getElem?.1 hscope)
    exact ⟨node, nodeAt_eq_some.2 ⟨scope, hget, hentry⟩⟩
  · rintro ⟨node, hnode⟩
    obtain ⟨scope, hscope, hnamed⟩ := nodeAt_eq_some.1 hnode
    refine ⟨_, ⟨(scope, key.scope), List.mem_zipIdx_iff_getElem?.2 hscope, rfl⟩, ?_⟩
    refine List.mem_map.2 ⟨(key.name, node), ?_, rfl⟩
    exact (hlist _ _).mem_iff.2 ((Table.mem_toList_iff _).2 hnamed)

/-- The targets of the edges of a node. -/
def next (R : Resolver) (run : Run) (key : GroupNode) : List GroupNode :=
  (run.groupSucc R key).getD []

theorem edge_iff_mem_next {a b : GroupNode} :
    DepthFirst.Edge (run.groupSucc R) a b ↔ b ∈ run.next R a := by
  unfold DepthFirst.Edge next
  cases run.groupSucc R a <;> simp

theorem next_of_nodeAt {key : GroupNode} {node : ResolvedPkg} (h : run.nodeAt key = some node) :
    run.next R key = (run.collectNodeEdges R key.scope node).map NodeEdge.key := by
  simp [next, groupSucc, h]

theorem next_of_none {key : GroupNode} (h : run.nodeAt key = none) : run.next R key = [] := by
  simp [next, groupSucc, h]

/-- An edge leads to a node. -/
theorem nodeAt_of_mem_next {a b : GroupNode} (h : b ∈ run.next R a) :
    ∃ node, run.nodeAt b = some node := by
  cases ha : run.nodeAt a with
  | none => simp [next_of_none ha] at h
  | some node =>
    rw [next_of_nodeAt ha] at h
    obtain ⟨e, he, rfl⟩ := List.mem_map.1 h
    obtain ⟨dep, -, hdep⟩ := mem_collectNodeEdges.1 he
    exact ⟨e.node, (edgeOf_eq_some.1 hdep).2.1⟩

/-- After `check_group_cycles` every way down ends. -/
theorem acc_of_checkGroupCycles {L : Listing} (h : run.checkGroupCycles R L = .ok)
    (key : GroupNode) : Acc (fun b a => b ∈ run.next R a) key := by
  have hwalk : ∃ marks, DepthFirst.visitEach (DepthFirst.visit (run.groupSucc R) run.groupDepth)
      (run.groupNodes fun it => L.named (.cycles it)) ∅ = .ok marks := by
    unfold checkGroupCycles at h
    split at h
    case h_1 marks hv => exact ⟨marks, hv⟩
    case h_2 at_ hv =>
      -- the node a cycle is reported at is there
      have hsucc : run.groupSucc R at_ ≠ none :=
        DepthFirst.visitEach_cycle (DepthFirst.succ_ne_none_of_cycle _ _) hv
      cases hn : run.nodeAt at_ with
      | none => exact absurd (by simp [groupSucc, hn]) hsucc
      | some node => simp [hn] at h
    case h_3 => cases h
  obtain ⟨marks, hwalk⟩ := hwalk
  have hempty : ∀ a : GroupNode, (∅ : Table GroupNode DepthFirst.Mark)[a]? = some .done →
      Acc (fun b a => DepthFirst.Edge (run.groupSucc R) a b) a := by
    intro a ha
    simp at ha
  have hall := (DepthFirst.visitEach_closes (DepthFirst.visit_closes _ _) hempty hwalk).2
  have hedges : (fun b a => b ∈ run.next R a) =
      fun b a => DepthFirst.Edge (run.groupSucc R) a b := by
    funext b a
    exact propext edge_iff_mem_next.symm
  rw [hedges]
  cases hn : run.nodeAt key with
  | none =>
    refine DepthFirst.acc_of_none ?_
    simp [groupSucc, hn]
  | some node =>
    exact hall key ((mem_groupNodes fun it entries => L.named_perm _ _).2 ⟨node, hn⟩)

/-- What `hashGroupNodes` leaves: every node has the hash of its targets' hashes. -/
theorem hashGroupNodes_spec {H : Hashing} {L : Listing} {memo : Table GroupNode (Option ℕ)}
    (hc : run.checkGroupCycles R L = .ok) (h : run.hashGroupNodes R H L = some memo) :
    DepthFirst.Consistent (run.next R) (run.nodeHash R H) memo ∧
      ∀ (key : GroupNode) (node : ResolvedPkg), run.nodeAt key = some node →
        ∃ hash, memo[key]? = some (some hash) := by
  unfold hashGroupNodes at h
  obtain ⟨⟨hashes, memo'⟩, heach, rfl⟩ := Option.map_eq_some_iff.1 h
  have hcycle := fun a => DepthFirst.not_transGen_of_acc (acc_of_checkGroupCycles hc a)
  have hempty : DepthFirst.Consistent (run.next R) (run.nodeHash R H) ∅ := by
    intro a v ha
    simp at ha
  obtain ⟨-, hcons, hall⟩ := DepthFirst.evalEach_spec
    (fun k _ => DepthFirst.eval_spec hcycle run.groupDepth k) hempty (by simp) heach
  refine ⟨hcons, fun key node hnode => ?_⟩
  have hmem : key ∈ run.groupNodes fun it => L.named (.hashes it) :=
    (mem_groupNodes fun it entries => L.named_perm _ _).2 ⟨node, hnode⟩
  obtain ⟨i, hi, rfl⟩ := List.mem_iff_getElem.1 hmem
  exact ⟨_, (List.forall₂_iff_get.1 hall).2 i hi (hall.length_eq ▸ hi)⟩

/-- The record of an edge. -/
def recordOf (memo : Table GroupNode (Option ℕ)) (e : NodeEdge) : EdgeRecord :=
  ⟨hashAt memo e.key, e.kind, e.isPrivate⟩

/-- The records of the edges of a node. -/
def records (R : Resolver) (run : Run) (memo : Table GroupNode (Option ℕ)) (key : GroupNode)
    (node : ResolvedPkg) : List EdgeRecord :=
  (run.collectNodeEdges R key.scope node).map (recordOf memo)

/-- The hash of a node. -/
theorem hashAt_eq {H : Hashing} {L : Listing} {memo : Table GroupNode (Option ℕ)}
    (hc : run.checkGroupCycles R L = .ok) (h : run.hashGroupNodes R H L = some memo)
    {key : GroupNode} {node : ResolvedPkg} (hnode : run.nodeAt key = some node) :
    hashAt memo key =
      if run.records R memo key node = [] then leafHash H node
      else H.records ((run.records R memo key node).insertionSort EdgeRecord.le)
        (leafHash H node) := by
  obtain ⟨hcons, hall⟩ := hashGroupNodes_spec hc h
  obtain ⟨hash, hhash⟩ := hall key node hnode
  obtain ⟨hashes, htargets, rfl⟩ := hcons key hash hhash
  have hlist : hashes = (run.next R key).map (hashAt memo) := by
    generalize run.next R key = keys at htargets
    clear hhash
    induction htargets with
    | nil => rfl
    | cons hb _ ih => rw [List.map_cons, ← ih, hashAt, hb]; rfl
  have hrecords : run.edgeRecords R key.scope node hashes = run.records R memo key node := by
    rw [hlist, next_of_nodeAt hnode, edgeRecords, records, List.map_map]
    generalize run.collectNodeEdges R key.scope node = edges
    induction edges with
    | nil => rfl
    | cons e rest ih => simpa [recordOf] using ih
  have hat : hashAt memo key = run.nodeHash R H key hashes := by rw [hashAt, hhash]; rfl
  rw [hat, nodeHash, hnode]
  simp only [hrecords]
  have hnil : ((run.records R memo key node).insertionSort EdgeRecord.le).isEmpty = true ↔
      run.records R memo key node = [] := by
    rw [List.isEmpty_iff, ← List.length_eq_zero_iff, List.length_insertionSort,
      List.length_eq_zero_iff]
  simp only [hnil]

theorem commitInstance_spec (memo : Table GroupNode (Option ℕ)) (keys : List GroupNode)
    (result : Table PkgId ResolvedPkg) :
    (∀ (id : PkgId) (inst : ResolvedPkg), (keys.foldl (run.commitInstance R memo) result)[id]? = some inst →
      result[id]? = some inst ∨ ∃ key node, run.nodeAt key = some node ∧
        id = instanceId memo key node ∧ inst = run.instanceOf R memo key node) ∧
    (∀ (id : PkgId) (inst : ResolvedPkg), result[id]? = some inst →
      (keys.foldl (run.commitInstance R memo) result)[id]? = some inst) ∧
    ∀ key ∈ keys, ∀ node : ResolvedPkg, run.nodeAt key = some node → ∃ inst : ResolvedPkg,
      (keys.foldl (run.commitInstance R memo) result)[instanceId memo key node]? =
        some inst := by
  induction keys generalizing result with
  | nil => exact ⟨fun _ _ h => .inl h, fun _ _ h => h, fun _ h => absurd h List.not_mem_nil⟩
  | cons key rest ih =>
    rw [List.foldl_cons]
    obtain ⟨hfrom, hkeep, hall⟩ := ih (run.commitInstance R memo result key)
    cases hn : run.nodeAt key with
    | none =>
      have hsame : run.commitInstance R memo result key = result := by simp [commitInstance, hn]
      rw [hsame] at hfrom hkeep hall ⊢
      refine ⟨hfrom, hkeep, fun k hk node hnode => ?_⟩
      rcases List.mem_cons.1 hk with rfl | hk
      · rw [hn] at hnode
        cases hnode
      · exact hall k hk node hnode
    | some node =>
      have hstep : run.commitInstance R memo result key =
          result.insertIfNew (instanceId memo key node) (run.instanceOf R memo key node) := by
        simp [commitInstance, hn]
      rw [hstep] at hfrom hkeep hall ⊢
      have hnew : ∀ (id : PkgId) (inst : ResolvedPkg), result[id]? = some inst →
          (result.insertIfNew (instanceId memo key node)
            (run.instanceOf R memo key node))[id]? = some inst := by
        intro id inst h
        have hid : id ∈ result := by
          rw [Std.ExtTreeMap.mem_iff_isSome_getElem?, h]
          rfl
        rw [Std.ExtTreeMap.getElem?_insertIfNew, if_neg ?_]
        · exact h
        · rintro ⟨hcmp, hnot⟩
          rw [Std.LawfulEqOrd.eq_of_compare hcmp] at hnot
          exact hnot hid
      refine ⟨?_, fun id inst h => hkeep id inst (hnew id inst h), ?_⟩
      · intro id inst h
        rcases hfrom id inst h with h | h
        · rw [Std.ExtTreeMap.getElem?_insertIfNew] at h
          split at h
          · rename_i hcond
            cases h
            exact .inr ⟨key, node, hn, (Std.LawfulEqOrd.eq_of_compare hcond.1).symm, rfl⟩
          · exact .inl h
        · exact .inr h
      · intro k hk node' hnode
        rcases List.mem_cons.1 hk with rfl | hk
        · rw [hn] at hnode
          cases hnode
          cases hold : result[instanceId memo k node]? with
          | some inst => exact ⟨inst, hkeep _ _ (hnew _ _ hold)⟩
          | none =>
            refine ⟨run.instanceOf R memo k node, hkeep _ _ ?_⟩
            have hnot : instanceId memo k node ∉ result := by
              rw [Std.ExtTreeMap.mem_iff_isSome_getElem?, hold]
              exact Bool.false_ne_true
            rw [Std.ExtTreeMap.getElem?_insertIfNew, if_pos ⟨Std.ReflCmp.compare_self, hnot⟩]
        · exact hall k hk node' hnode

end Run

section

variable {R : Resolver} {L : Listing} {H : Hashing} {solved : Solved}

/-- The table has the instance of every node, and nothing else. -/
theorem Solved.Complete.exists_node (h : solved.Complete R L H) {id : PkgId}
    {inst : ResolvedPkg} (hi : solved.run.result[id]? = some inst) :
    ∃ key node, solved.run.nodeAt key = some node ∧ id = instanceId solved.memo key node ∧
      inst = solved.run.instanceOf R solved.memo key node := by
  rw [h.result, Run.commitInstances] at hi
  rcases (Run.commitInstance_spec _ _ _).1 id inst hi with hempty | hnode
  · simp at hempty
  · exact hnode

theorem Solved.Complete.exists_instance (h : solved.Complete R L H) {key : GroupNode}
    {node : ResolvedPkg} (hn : solved.run.nodeAt key = some node) :
    ∃ inst, solved.run.result[instanceId solved.memo key node]? = some inst := by
  rw [h.result, Run.commitInstances]
  exact (Run.commitInstance_spec _ _ _).2.2 key
    ((Run.mem_groupNodes fun it entries => L.named_perm _ _).2 ⟨node, hn⟩) node hn

end

end Spn.Resolve
