import Spn.Resolve.Outcome

/-! # The identity of instances

Two nodes become one instance exactly when they have one name, one version and the
same edges. Where the package comes from is not part of it. The graph was checked for
cycles before, so no node is met again while it is being hashed.
-/
namespace Spn.Resolve

open Spn.Lib

/-- No two texts that are hashed have one hash. A version and a list of records have
different sizes. -/
structure Hashing.CollisionFree (H : Hashing) : Prop where
  str : Function.Injective H.str
  version : ∀ v s v' s', H.version v s = H.version v' s' → v = v' ∧ s = s'
  records : ∀ r s r' s', H.records r s = H.records r' s' → r = r' ∧ s = s'
  apart : ∀ v s r s', H.version v s ≠ H.records r s'

namespace EdgeRecord

instance : Std.Total le where
  total a b := by
    have swap : cmp b a = (cmp a b).swap := Std.OrientedCmp.eq_swap
    unfold le
    rw [swap]
    cases cmp a b <;> simp

instance : IsTrans EdgeRecord le where
  trans _ _ _ := Std.TransCmp.isLE_trans

theorem eq_of_cmp {a b : EdgeRecord} (h : cmp a b = .eq) : a = b := by
  simp only [cmp, compareLex, Ordering.then_eq_eq, compareOn] at h
  obtain ⟨hh, hk, hp⟩ := h
  exact EdgeRecord.ext (Std.LawfulEqOrd.eq_of_compare hh)
    (DepKind.toNat_injective (Std.LawfulEqOrd.eq_of_compare hk))
    (Std.LawfulEqOrd.eq_of_compare hp)

theorem le_antisymm {a b : EdgeRecord} (hab : le a b) (hba : le b a) : a = b := by
  refine eq_of_cmp ?_
  have swap : cmp b a = (cmp a b).swap := Std.OrientedCmp.eq_swap
  unfold le at hab hba
  rw [swap] at hba
  cases h : cmp a b with
  | eq => rfl
  | lt => simp [h] at hba
  | gt => simp [h] at hab

/-- Sorted records are equal when the records are, in some order. -/
theorem insertionSort_eq_iff {records records' : List EdgeRecord} :
    records.insertionSort le = records'.insertionSort le ↔ records.Perm records' := by
  constructor
  · intro h
    exact (List.perm_insertionSort le _).symm.trans (h ▸ List.perm_insertionSort le _)
  · intro h
    refine List.Perm.eq_of_pairwise (fun a b _ _ => le_antisymm)
      (List.pairwise_insertionSort le records) (List.pairwise_insertionSort le records') ?_
    exact (List.perm_insertionSort le _).trans (h.trans (List.perm_insertionSort le _).symm)

end EdgeRecord

/-- What one function of the entries tells of their order, another one that is
determined by it tells as well. -/
theorem perm_map_of_perm_map {α β γ : Type} {f : α → β} {g : α → γ} {l l' : List α}
    (hfg : ∀ a ∈ l ++ l', ∀ b ∈ l ++ l', f a = f b → g a = g b)
    (h : (l.map f).Perm (l'.map f)) : (l.map g).Perm (l'.map g) := by
  classical
  let φ : β → Option γ := fun b =>
    if hb : ∃ a ∈ l ++ l', f a = b then some (g hb.choose) else none
  have hφ : ∀ a ∈ l ++ l', φ (f a) = some (g a) := by
    intro a ha
    have hex : ∃ b ∈ l ++ l', f b = f a := ⟨a, ha, rfl⟩
    have hdef : φ (f a) = some (g hex.choose) := dif_pos hex
    rw [hdef, hfg _ hex.choose_spec.1 _ ha hex.choose_spec.2]
  have hl : (l.map f).map φ = l.map fun a => some (g a) := by
    rw [List.map_map]
    exact List.map_congr_left fun a ha => hφ a (List.mem_append_left _ ha)
  have hl' : (l'.map f).map φ = l'.map fun a => some (g a) := by
    rw [List.map_map]
    exact List.map_congr_left fun a ha => hφ a (List.mem_append_right _ ha)
  have hsome := h.map φ
  rw [hl, hl'] at hsome
  have hmaps : ∀ m : List α, (m.map fun a => some (g a)) = (m.map g).map some := by simp
  rw [hmaps, hmaps] at hsome
  exact (List.map_perm_map_iff (Option.some_injective γ)).1 hsome

namespace Run

variable {R : Resolver} {run : Run} {L : Listing} {H : Hashing}
  {memo : Table GroupNode (Option ℕ)}

theorem leafHash_inj (hH : H.CollisionFree) {node node' : ResolvedPkg} :
    leafHash H node = leafHash H node' ↔
      node.id.qualified = node'.id.qualified ∧ node.id.version = node'.id.version := by
  constructor
  · intro h
    obtain ⟨hversion, hstr⟩ := hH.version _ _ _ _ h
    exact ⟨hH.str hstr, hversion⟩
  · rintro ⟨hname, hversion⟩
    rw [leafHash, leafHash, hname, hversion]

/-- One hash is one name, one version and the same records. -/
theorem hashAt_eq_iff (hH : H.CollisionFree) (hc : run.checkGroupCycles R L = .ok)
    (hm : run.hashGroupNodes R H L = some memo) {key key' : GroupNode} {node node' : ResolvedPkg}
    (hn : run.nodeAt key = some node) (hn' : run.nodeAt key' = some node') :
    hashAt memo key = hashAt memo key' ↔
      node.id.qualified = node'.id.qualified ∧ node.id.version = node'.id.version ∧
        (run.records R memo key node).Perm (run.records R memo key' node') := by
  rw [hashAt_eq hc hm hn, hashAt_eq hc hm hn']
  by_cases hr : run.records R memo key node = [] <;>
    by_cases hr' : run.records R memo key' node' = []
  · rw [if_pos hr, if_pos hr', leafHash_inj hH, hr, hr']
    simp
  · rw [if_pos hr, if_neg hr', hr]
    constructor
    · exact fun h => absurd h (hH.apart _ _ _ _)
    · exact fun h => absurd (List.nil_perm.1 h.2.2) hr'
  · rw [if_neg hr, if_pos hr', hr']
    constructor
    · exact fun h => absurd h.symm (hH.apart _ _ _ _)
    · exact fun h => absurd (List.perm_nil.1 h.2.2) hr
  · rw [if_neg hr, if_neg hr']
    constructor
    · intro h
      obtain ⟨hrecords, hleaf⟩ := hH.records _ _ _ _ h
      obtain ⟨hname, hversion⟩ := (leafHash_inj hH).1 hleaf
      exact ⟨hname, hversion, EdgeRecord.insertionSort_eq_iff.1 hrecords⟩
    · rintro ⟨hname, hversion, hperm⟩
      rw [EdgeRecord.insertionSort_eq_iff.2 hperm, (leafHash_inj hH).2 ⟨hname, hversion⟩]

/-- The edges of a node: the id of the target, the kind and the private flag. -/
def outgoing (R : Resolver) (run : Run) (memo : Table GroupNode (Option ℕ)) (key : GroupNode)
    (node : ResolvedPkg) : List (PkgId × DepKind × Bool) :=
  (run.collectNodeEdges R key.scope node).map fun e =>
    (instanceId memo e.key e.node, e.kind, e.isPrivate)

/-- The hash of a target determines its id. -/
theorem records_perm_iff (hH : H.CollisionFree) (hc : run.checkGroupCycles R L = .ok)
    (hm : run.hashGroupNodes R H L = some memo) {key key' : GroupNode}
    {node node' : ResolvedPkg} :
    (run.records R memo key node).Perm (run.records R memo key' node') ↔
      (run.outgoing R memo key node).Perm (run.outgoing R memo key' node') := by
  have htarget : ∀ e ∈ run.collectNodeEdges R key.scope node ++
      run.collectNodeEdges R key'.scope node', run.nodeAt e.key = some e.node := by
    intro e he
    rcases List.mem_append.1 he with he | he
    · obtain ⟨dep, -, hdep⟩ := mem_collectNodeEdges.1 he
      exact (edgeOf_eq_some.1 hdep).2.1
    · obtain ⟨dep, -, hdep⟩ := mem_collectNodeEdges.1 he
      exact (edgeOf_eq_some.1 hdep).2.1
  constructor
  · intro h
    refine perm_map_of_perm_map ?_ h
    intro e he e' he' heq
    obtain ⟨hhash, hkind, hprivate⟩ := EdgeRecord.mk.inj heq
    obtain ⟨hname, hversion, -⟩ :=
      (hashAt_eq_iff hH hc hm (htarget e he) (htarget e' he')).1 hhash
    rw [hkind, hprivate, instanceId, instanceId, hhash]
    simp only [hname, hversion]
  · intro h
    refine perm_map_of_perm_map ?_ h
    intro e he e' he' heq
    simp only [Prod.mk.injEq] at heq
    obtain ⟨hid, hkind, hprivate⟩ := heq
    have hhash : hashAt memo e.key = hashAt memo e'.key := congrArg PkgId.hash hid
    rw [recordOf, recordOf, hhash, hkind, hprivate]

/-- The loop that hashes all nodes, giving up at a node that is being hashed. -/
def hashGroupNodesClosed (R : Resolver) (run : Run) (H : Hashing) (L : Listing) :
    Option (Table GroupNode (Option ℕ)) :=
  (DepthFirst.evalEach (DepthFirst.evalClosed (run.next R) (run.nodeHash R H) run.groupDepth)
    (run.groupNodes fun it => L.named (.hashes it)) ∅).map Prod.snd

/-- After `check_group_cycles` no node is met while it is being hashed. -/
theorem hashGroupNodes_eq_closed (hc : run.checkGroupCycles R L = .ok) :
    run.hashGroupNodes R H L = run.hashGroupNodesClosed R H L := by
  have hcycle := fun a => DepthFirst.not_transGen_of_acc (acc_of_checkGroupCycles hc a)
  have hempty : DepthFirst.Consistent (run.next R) (run.nodeHash R H) ∅ := by
    intro a v ha
    simp at ha
  unfold hashGroupNodes hashGroupNodesClosed
  congr 1
  refine DepthFirst.evalEach_congr
    (I := fun m => DepthFirst.Consistent (run.next R) (run.nodeHash R H) m ∧
      ∀ a : GroupNode, m[a]? ≠ some none) ?_ ?_ ⟨hempty, by simp⟩
  · intro m hm k _
    exact DepthFirst.eval_eq_evalClosed hcycle _ m k hm.1 fun a ha => absurd ha (hm.2 a)
  · intro m hm k _ v m' hstep
    obtain ⟨hfill, hcons, -⟩ := DepthFirst.eval_spec hcycle _ k m v m' hm.1
      (fun a ha => absurd ha (hm.2 a)) hstep
    exact ⟨hcons, fun a ha => hm.2 a (hfill.opened a ha)⟩

end Run

/-- Two nodes of a solved run are one instance exactly when they have one name, one
version and the same edges, with the ids of their targets; the instance has these
edges. The hashes were computed without meeting a node that was being hashed. -/
theorem instance_identity {R : Resolver} {L : Listing} {H : Hashing} (hH : H.CollisionFree)
    {fuel : ℕ} {registry : Registry} {reqs : List Req} {solved : Solved}
    (h : resolveFromSolver R L H fuel registry reqs = (.ok, solved)) :
    (∀ key key' node node', solved.run.nodeAt key = some node →
      solved.run.nodeAt key' = some node' →
      (instanceId solved.memo key node = instanceId solved.memo key' node' ↔
        node.id.qualified = node'.id.qualified ∧ node.id.version = node'.id.version ∧
        (solved.run.outgoing R solved.memo key node).Perm
          (solved.run.outgoing R solved.memo key' node'))) ∧
    (∀ key node, solved.run.nodeAt key = some node → ∃ inst : ResolvedPkg,
      solved.run.result[instanceId solved.memo key node]? = some inst ∧
      inst.id = instanceId solved.memo key node ∧
      (inst.edges.map fun e => (e.id, e.kind, e.isPrivate)).Perm
        (solved.run.outgoing R solved.memo key node)) ∧
    ∀ run : Run, run.checkGroupCycles R L = .ok →
      run.hashGroupNodes R H L = run.hashGroupNodesClosed R H L := by
  have hsolved := resolveFromSolver_complete h
  have hidentity : ∀ key key' node node', solved.run.nodeAt key = some node →
      solved.run.nodeAt key' = some node' →
      (instanceId solved.memo key node = instanceId solved.memo key' node' ↔
        node.id.qualified = node'.id.qualified ∧ node.id.version = node'.id.version ∧
        (solved.run.outgoing R solved.memo key node).Perm
          (solved.run.outgoing R solved.memo key' node')) := by
    intro key key' node node' hn hn'
    have hiff := Run.hashAt_eq_iff hH hsolved.checked hsolved.hashed hn hn'
    rw [Run.records_perm_iff hH hsolved.checked hsolved.hashed] at hiff
    rw [← hiff]
    constructor
    · exact fun hid => congrArg PkgId.hash hid
    · intro hhash
      obtain ⟨hname, hversion, -⟩ := hiff.1 hhash
      exact PkgId.ext hname hversion hhash
  refine ⟨hidentity, fun key node hn => ?_, fun run hc => Run.hashGroupNodes_eq_closed hc⟩
  obtain ⟨inst, hinst⟩ := hsolved.exists_instance hn
  obtain ⟨key', node', hn', hid, rfl⟩ := hsolved.exists_node hinst
  refine ⟨_, hinst, hid.symm, ?_⟩
  have hedges : (solved.run.instanceOf R solved.memo key' node').edges.map
      (fun e => (e.id, e.kind, e.isPrivate)) = solved.run.outgoing R solved.memo key' node' := by
    simp [Run.instanceOf, Run.outgoing, Run.resolvedDep, Function.comp_def]
  rw [hedges]
  exact ((hidentity key key' node node' hn hn').1 hid).2.2.symm

/-! ## Small universes -/

deriving instance Encodable for DepKind, EdgeRecord

/-- A hash without collisions. -/
def Hashing.numbering : Hashing where
  str := Encodable.encode
  version v seed := 2 * Encodable.encode (v, seed)
  records records seed := 2 * Encodable.encode (records, seed) + 1

theorem Hashing.numbering_collisionFree : Hashing.numbering.CollisionFree where
  str := Encodable.encode_injective
  version v s v' s' h := by
    have heq : (v, s) = (v', s') := Encodable.encode_injective (Nat.eq_of_mul_eq_mul_left Nat.two_pos h)
    exact Prod.mk.inj heq
  records r s r' s' h := by
    have hnum : 2 * Encodable.encode (r, s) = 2 * Encodable.encode (r', s') := Nat.succ.inj h
    have heq : (r, s) = (r', s') := Encodable.encode_injective (Nat.eq_of_mul_eq_mul_left Nat.two_pos hnum)
    exact Prod.mk.inj heq
  apart v s r s' h := by
    have hnum : 2 * Encodable.encode (v, s) = 2 * Encodable.encode (r, s') + 1 := h
    omega

def Index.empty : Index := ⟨∅, fun _ _ h => by simp at h⟩

/-- The index with a package more. -/
def Index.add (index : Index) (name : Str) (pkg : IndexPkg)
    (h : ∀ release ∈ pkg.releases, release.qualified = name) : Index where
  packages := index.packages.insert name (.ok pkg)
  own n p hp := by
    rcases (Table.getElem?_insert_eq_some _).1 hp with ⟨hname, hpkg⟩ | ⟨-, hold⟩
    · have hpkg : pkg = p := by simpa using hpkg
      rw [hname, ← hpkg]
      exact h
    · exact index.own n p hold

def Registry.empty : Registry := ⟨∅, fun _ _ h => by simp at h⟩

/-- Every version. -/
def anyVersion : Range := ⟨⟨⟨0, 0, 0⟩, .geq⟩, ⟨⟨9, 0, 0⟩, .lt⟩, .wildcard⟩

def inProject (sub : String) : Path := ⟨.project, str sub⟩

/-- A manifest whose dependencies have no gates. -/
def manifest (name : String) (deps : List Req) (libs : List LinkageSet) : PkgInfo where
  qualified := str name
  name := str name
  version := ⟨1, 0, 0⟩
  deps := deps.map fun req => ⟨req, []⟩
  libs := libs

def Req.ofIndex (name : String) (range : Range) (kind : DepKind) : Req :=
  ⟨str name, kind, false, .index range⟩

def Req.ofFile (name : String) (kind : DepKind) : Req :=
  ⟨str name, kind, false, .file (inProject name)⟩

/-- The request for the root manifest. -/
def Req.ofRoot : Req := ⟨str "r", .package, false, .root⟩

def rootPkg (deps : List Req) : RegistryPkg := ⟨.root, manifest "r" deps [], inProject "r"⟩

def release (name : String) (version : Version) (deps : List IndexDep)
    (targets : List (List Linkage)) : Release where
  qualified := str name
  name := str name
  version := version
  yanked := false
  deps := deps
  targets := targets

/-- What is resolved over an index and some manifests, without a config. -/
def plainResolver (index : Index) (manifests : List PkgInfo) : Resolver where
  index := index
  manifests := manifests.foldl (fun t info => t.insert ⟨.project, info.name⟩ (some info)) ∅
  linkage := .none
  config := []
  optionsEnv _ _ := none
  budget := 1000

/-- The package x 1.0.0 is in the index and in the project. -/
def bothPlaces : Resolver :=
  plainResolver (Index.empty.add (str "x") ⟨[release "x" ⟨1, 0, 0⟩ [] []], by simp⟩ (by simp [release]))
    [manifest "x" [] [], manifest "b" [.ofFile "x" .package] []]

/-- A root that takes x from the index and builds with b, which takes it from the
project. -/
def bothPlacesRoot : Registry :=
  Registry.empty.insert (rootPkg [.ofIndex "x" anyVersion .package, .ofFile "b" .build])

theorem instance_identity_bothPlaces : ∃ solved,
    resolveFromSolver bothPlaces .byKey .numbering 20 bothPlacesRoot [.ofRoot] = (.ok, solved) ∧
    ∀ key key' node node', solved.run.nodeAt key = some node →
      solved.run.nodeAt key' = some node' →
      (instanceId solved.memo key node = instanceId solved.memo key' node' ↔
        node.id.qualified = node'.id.qualified ∧ node.id.version = node'.id.version ∧
        (solved.run.outgoing bothPlaces solved.memo key node).Perm
          (solved.run.outgoing bothPlaces solved.memo key' node')) := by
  have hok : (resolveFromSolver bothPlaces .byKey .numbering 20 bothPlacesRoot [.ofRoot]).1 =
    .ok := rfl
  obtain ⟨solved, hsolved⟩ : ∃ solved, resolveFromSolver bothPlaces .byKey .numbering 20
      bothPlacesRoot [.ofRoot] = (.ok, solved) := ⟨_, Prod.ext hok rfl⟩
  exact ⟨solved, hsolved, (instance_identity Hashing.numbering_collisionFree hsolved).1⟩

/-- The two packages x become one instance, though they come from different places. -/
theorem bothPlaces_merged : Hashing.numbering.CollisionFree ∧ ∃ solved node node',
    resolveFromSolver bothPlaces .byKey .numbering 20 bothPlacesRoot [.ofRoot] = (.ok, solved) ∧
    solved.run.nodeAt ⟨0, str "x"⟩ = some node ∧ solved.run.nodeAt ⟨1, str "x"⟩ = some node' ∧
    node.source = .index ∧ node'.source = .file ∧
    instanceId solved.memo ⟨0, str "x"⟩ node = instanceId solved.memo ⟨1, str "x"⟩ node' :=
  ⟨Hashing.numbering_collisionFree, _, _, _, rfl, rfl, rfl, rfl, rfl, rfl⟩

end Spn.Resolve
