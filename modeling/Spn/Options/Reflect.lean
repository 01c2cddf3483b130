import Spn.Lib.Merkle
import Spn.Lib.WaitCycle
import Spn.Options.Said

/-! # Which options a fingerprint tells apart

With a digest that has no collisions two fingerprints are equal exactly when the
units are alike: the same content, and alike units below. Of the options the content
has those that are not marked as defaults, which is what the settings say of them. From
these the values of all options can be worked out when the sessions agree on whether the
defaults are declined, and not otherwise.
-/
namespace Spn.Options

open Spn.Resolve Spn.Lib

/-! ## Options by hash -/

/-- What the gates, the defines and the build script see of the options. -/
def values (options : List ResolvedOption) : List (Str × OptionValue) :=
  options.map fun option => (option.name, option.value)

variable (D : Digest FingerprintInput)

/-- A step of `hash_options`. -/
def hashOption (hash : ℕ) (entry : Str × OptionValue) : ℕ :=
  D.combine [hash, D.str entry.1, kindOf entry.2, payload D entry.2]

/-- `hash_options` hashes the options that are not marked as defaults. -/
theorem hashOptions_eq (options : List ResolvedOption) :
    hashOptions D (some options) = (explicit options).foldl (hashOption D) 0 := by
  have hfold : ∀ hash, options.foldl (fun hash option => if option.isDefault then hash
      else D.combine [hash, D.str option.name, kindOf option.value, payload D option.value]) hash =
      (explicit options).foldl (hashOption D) hash := by
    induction options with
    | nil => intro hash; rfl
    | cons option rest ih =>
      intro hash
      cases h : option.isDefault with
      | true => simpa [explicit, h] using ih hash
      | false => simpa [explicit, h, hashOption] using ih _
  exact hfold 0

variable {D}

theorem boolToNat_injective : Function.Injective Bool.toNat := by
  intro a b h
  cases a <;> cases b <;> first | rfl | (simp at h)

theorem hashOption_inj (hD : D.CollisionFree) {hash hash' : ℕ} {entry entry' : Str × OptionValue}
    (h : hashOption D hash entry = hashOption D hash' entry') : hash = hash' ∧ entry = entry' := by
  have hparts := hD.combine h
  simp only [List.cons.injEq, and_true] at hparts
  obtain ⟨hhash, hname, hkind, hpayload⟩ := hparts
  refine ⟨hhash, Prod.ext (hD.str hname) ?_⟩
  cases hv : entry.2 <;> cases hv' : entry'.2 <;>
    simp only [hv, hv', kindOf, payload] at hkind hpayload
  · rfl
  · simp at hkind
  · simp at hkind
  · simp at hkind
  · rw [boolToNat_injective hpayload]
  · simp at hkind
  · simp at hkind
  · simp at hkind
  · rw [hD.str hpayload]

theorem foldl_hashOption_inj (hD : D.CollisionFree) (entries entries' : List (Str × OptionValue))
    (h : entries.foldl (hashOption D) 0 = entries'.foldl (hashOption D) 0) : entries = entries' := by
  induction entries using List.reverseRecOn generalizing entries' with
  | nil =>
    cases entries' using List.reverseRecOn with
    | nil => rfl
    | append_singleton entries' entry' =>
      rw [List.foldl_append] at h
      exact absurd h.symm (hD.combine_ne _)
  | append_singleton entries entry ih =>
    cases entries' using List.reverseRecOn with
    | nil =>
      rw [List.foldl_append] at h
      exact absurd h (hD.combine_ne _)
    | append_singleton entries' entry' =>
      rw [List.foldl_append, List.foldl_append] at h
      obtain ⟨hinit, hlast⟩ := hashOption_inj hD h
      rw [ih entries' hinit, hlast]

/-! ## Units by content -/

/-- What a fingerprint has of a package itself, apart from the build and the options. -/
structure Facts where
  qualified : Str
  version : Version
  commit : Str
  platform : ℕ
  patches : ℕ
  linkage : Linkage

def Session.facts (s : Session) (build : Build) (id : PkgId) : Facts where
  qualified := (s.packages id).qualified
  version := (s.packages id).version
  commit := (s.packages id).commit
  platform := (s.packages id).platform
  patches := ((s.node? id).bind Node.patches).getD 0
  linkage := (s.configKind (s.packages id).name).getD build.linking.linkage

/-- What a fingerprint has of a unit itself, apart from the build. -/
structure Content extends Facts where
  options : List (Str × OptionValue)

/-- The content of the unit of a package. -/
def Session.content (s : Session) (build : Build) (id : PkgId) : Content where
  toFacts := s.facts build id
  options := explicit (s.optionsOf id)

/-- The edges of a package with their kinds and private flags. -/
def Session.labelled (s : Session) (id : PkgId) : List ((DepKind × Bool) × PkgId) :=
  (s.edgesOf id).map fun edge => ((edge.kind, edge.isPrivate), edge.id)

/-- The units of a session. -/
def Session.units (s : Session) (build : Build) : Merkle.Graph PkgId Content (DepKind × Bool) where
  own := s.content build
  edges := s.labelled

variable (D)

/-- `fingerprint_edge_t` of a record. -/
def edgeKey (record : (DepKind × Bool) × ℕ) : EdgeKey :=
  (record.2, record.1.1.toNat, record.1.2.toNat)

/-- The digest of the records of the edges. -/
def hashRecords (records : List ((DepKind × Bool) × ℕ)) : ℕ :=
  if records = [] then 0 else D.edges ((records.map edgeKey).insertionSort EdgeKey.le)

/-- The record that is hashed for a content. -/
def Content.input (build : Build) (c : Content) (records : List ((DepKind × Bool) × ℕ)) :
    FingerprintInput where
  qualified := D.str c.qualified
  options := c.options.foldl (hashOption D) 0
  version := c.version
  commit := D.str c.commit
  patches := c.patches
  deps := hashRecords D records
  mode := build.mode
  opt := build.opt
  sanitizers := build.sanitizers
  linking := { build.linking with linkage := c.linkage }
  standard := build.standard
  arch := build.arch
  os := build.os
  abi := build.abi
  sdk := build.sdk
  platform := c.platform
  toolchain :=
    { name := D.str build.toolchain
      cc := hashArg D build.compiler
      ar := hashArg D build.archiver
      cxx := hashArg D build.cxx
      ld := build.linker
      linkArgs := hashStrs D build.linkArgs
      identity := build.identity
      url := (build.artifact.map D.str).getD 0 }

/-- The digest of a unit. -/
def digestUnit (build : Build) (c : Content) (records : List ((DepKind × Bool) × ℕ)) : ℕ :=
  D.input (c.input D build records)

/-- What is hashed of a package is its content and the records of its edges. -/
theorem fingerprintInput_eq (s : Session) (build : Build) (id : PkgId) (hashes : List ℕ)
    (hlen : hashes.length = (s.edgesOf id).length) :
    s.fingerprintInput D build id hashes = (s.content build id).input D build
      (List.zipWith (fun e h => (e.1, h)) ((s.units build).edges id) hashes) := by
  have hoptions : hashOptions D (s.options? id) =
      (explicit (s.optionsOf id)).foldl (hashOption D) 0 := by
    unfold Session.optionsOf Session.options?
    cases s.options.find? fun entry => entry.1 = id with
    | none => rfl
    | some entry => exact hashOptions_eq D entry.2
  have hdeps : s.hashDeps D id hashes = hashRecords D
      (List.zipWith (fun e h => (e.1, h)) ((s.units build).edges id) hashes) := by
    have hmap : ((s.edgesOf id).zip hashes).map (fun record =>
        ((record.2, record.1.kind.toNat, record.1.isPrivate.toNat) : EdgeKey)) =
        (List.zipWith (fun e h => (e.1, h)) ((s.units build).edges id) hashes).map edgeKey := by
      simp only [Session.units, Session.labelled, List.zip, List.map_zipWith,
        List.zipWith_map_left]
      rfl
    have hnil : s.edgesOf id = [] ↔
        List.zipWith (fun e h => (e.1, h)) ((s.units build).edges id) hashes = [] := by
      rw [← List.length_eq_zero_iff, ← List.length_eq_zero_iff, List.length_zipWith]
      simp [Session.units, Session.labelled, hlen]
    unfold Session.hashDeps hashRecords
    simp only [hmap, hnil]
  unfold Session.fingerprintInput Content.input
  rw [hoptions, hdeps]
  simp only [Session.content, Session.facts]
  cases s.configKind (s.packages id).name <;> rfl

variable {D}

theorem edgeKey_injective : Function.Injective edgeKey := by
  rintro ⟨⟨kind, isPrivate⟩, hash⟩ ⟨⟨kind', isPrivate'⟩, hash'⟩ h
  obtain ⟨hhash, hkind, hprivate⟩ := by simpa only [edgeKey, Prod.mk.injEq] using h
  rw [hhash, DepKind.toNat_injective hkind, boolToNat_injective hprivate]

instance : Std.Total EdgeKey.le := ⟨by intro a b; unfold EdgeKey.le; omega⟩

instance : IsTrans EdgeKey EdgeKey.le := ⟨by intro a b c; unfold EdgeKey.le; omega⟩

instance : Std.Antisymm EdgeKey.le := ⟨by
  rintro ⟨a, b, c⟩ ⟨a', b', c'⟩ h h'
  simp only [EdgeKey.le] at h h'
  ext <;> simp only <;> omega⟩

/-- The edges are hashed in an order of their own. -/
theorem hashRecords_perm (D : Digest FingerprintInput)
    {records records' : List ((DepKind × Bool) × ℕ)} (h : records.Perm records') :
    hashRecords D records = hashRecords D records' := by
  have hnil : records = [] ↔ records' = [] := by
    rw [← List.length_eq_zero_iff, h.length_eq, List.length_eq_zero_iff]
  have hsort : (records.map edgeKey).insertionSort EdgeKey.le =
      (records'.map edgeKey).insertionSort EdgeKey.le :=
    (((List.perm_insertionSort _ _).trans (h.map _)).trans
      (List.perm_insertionSort _ _).symm).eq_of_pairwise'
      (List.pairwise_insertionSort _ _) (List.pairwise_insertionSort _ _)
  unfold hashRecords
  simp only [hnil, hsort]

theorem hashRecords_inj (hD : D.CollisionFree) {records records' : List ((DepKind × Bool) × ℕ)}
    (h : hashRecords D records = hashRecords D records') : records.Perm records' := by
  unfold hashRecords at h
  split at h <;> split at h
  · rename_i hr hr'
    rw [hr, hr']
  · exact absurd h.symm (hD.edges_ne _)
  · exact absurd h (hD.edges_ne _)
  · have hsort := hD.edges h
    have hperm : (records.map edgeKey).Perm (records'.map edgeKey) :=
      (List.perm_insertionSort EdgeKey.le _).symm.trans
        (hsort ▸ List.perm_insertionSort EdgeKey.le _)
    exact (List.map_perm_map_iff edgeKey_injective).1 hperm

theorem digestUnit_perm (D : Digest FingerprintInput) (build : Build) (c : Content)
    (records records' : List ((DepKind × Bool) × ℕ)) (h : records.Perm records') :
    digestUnit D build c records = digestUnit D build c records' := by
  unfold digestUnit Content.input
  rw [hashRecords_perm D h]

theorem digestUnit_inj (hD : D.CollisionFree) {build : Build} {c c' : Content}
    {records records' : List ((DepKind × Bool) × ℕ)}
    (h : digestUnit D build c records = digestUnit D build c' records') :
    c = c' ∧ records.Perm records' := by
  have hinput := hD.input h
  simp only [Content.input, FingerprintInput.mk.injEq, Linking.mk.injEq, and_true, true_and]
    at hinput
  obtain ⟨hqualified, hcommit, hoptions, hdeps, hpatches, hversion, hlinkage, hplatform⟩ := hinput
  refine ⟨?_, hashRecords_inj hD hdeps⟩
  obtain ⟨⟨_, _, _, _, _, _⟩, _⟩ := c
  obtain ⟨⟨_, _, _, _, _, _⟩, _⟩ := c'
  simp only [Content.mk.injEq, Facts.mk.injEq]
  exact ⟨⟨hD.str hqualified, hversion, hD.str hcommit, hplatform, hpatches, hlinkage⟩,
    foldl_hashOption_inj hD _ _ hoptions⟩

/-! ## The table of fingerprints -/

/-- `session->fingerprints` as calls leave it, for a build. -/
inductive Session.Memo (D : Digest FingerprintInput) (s : Session) (build : Build) :
    Table PkgId ℕ → Prop
  | empty : Session.Memo D s build ∅
  | call {memo memo' : Table PkgId ℕ} {depth hash : ℕ} {id : PkgId} :
      Session.Memo D s build memo → s.fingerprint D build depth memo id = some (hash, memo') →
      Session.Memo D s build memo'

/-- Every entry of the table is the hash of its unit. -/
def Session.Sound (D : Digest FingerprintInput) (s : Session) (build : Build)
    (memo : Table PkgId ℕ) : Prop :=
  ∀ id hash, memo[id]? = some hash → (s.units build).Hashes (digestUnit D build) id hash

theorem fingerprintEach_sound {s : Session} {build : Build}
    {go : Table PkgId ℕ → PkgId → Option (ℕ × Table PkgId ℕ)}
    (hgo : ∀ memo id hash memo', s.Sound D build memo → go memo id = some (hash, memo') →
      (s.units build).Hashes (digestUnit D build) id hash ∧ s.Sound D build memo')
    (edges : List ResolvedDep) {memo memo' : Table PkgId ℕ} {hashes : List ℕ}
    (hm : s.Sound D build memo)
    (h : Session.fingerprintEach go edges memo = some (hashes, memo')) :
    List.Forall₂ (fun edge hash => (s.units build).Hashes (digestUnit D build) edge.id hash)
      edges hashes ∧ s.Sound D build memo' := by
  induction edges generalizing memo memo' hashes with
  | nil =>
    simp only [Session.fingerprintEach, Option.some.injEq, Prod.mk.injEq] at h
    obtain ⟨rfl, rfl⟩ := h
    exact ⟨.nil, hm⟩
  | cons edge rest ih =>
    unfold Session.fingerprintEach at h
    cases hfirst : go memo edge.id with
    | none => simp [hfirst] at h
    | some first =>
      obtain ⟨hash, memo₁⟩ := first
      obtain ⟨hhash, hm₁⟩ := hgo _ _ _ _ hm hfirst
      simp only [hfirst] at h
      cases hrest : Session.fingerprintEach go rest memo₁ with
      | none => simp [hrest] at h
      | some others =>
        obtain ⟨hashes₂, memo₂⟩ := others
        obtain ⟨hothers, hm₂⟩ := ih hm₁ hrest
        simp only [hrest, Option.some.injEq, Prod.mk.injEq] at h
        obtain ⟨rfl, rfl⟩ := h
        exact ⟨.cons hhash hothers, hm₂⟩

/-- A fingerprint is the hash of the unit. -/
theorem fingerprint_sound {s : Session} {build : Build} (depth : ℕ) (memo : Table PkgId ℕ)
    (id : PkgId) (hash : ℕ) (memo' : Table PkgId ℕ) (hm : s.Sound D build memo)
    (h : s.fingerprint D build depth memo id = some (hash, memo')) :
    (s.units build).Hashes (digestUnit D build) id hash ∧ s.Sound D build memo' := by
  induction depth generalizing memo id hash memo' with
  | zero => simp [Session.fingerprint] at h
  | succ depth ih =>
    unfold Session.fingerprint at h
    cases hmemo : memo[id]? with
    | some known =>
      simp only [hmemo, Option.some.injEq, Prod.mk.injEq] at h
      obtain ⟨rfl, rfl⟩ := h
      exact ⟨hm id known hmemo, hm⟩
    | none =>
      simp only [hmemo] at h
      cases heach : Session.fingerprintEach (s.fingerprint D build depth) (s.edgesOf id) memo with
      | none => simp [heach] at h
      | some each =>
        obtain ⟨hashes, memo₁⟩ := each
        obtain ⟨hall, hm₁⟩ := fingerprintEach_sound ih _ hm heach
        simp only [heach, Option.some.injEq, Prod.mk.injEq] at h
        obtain ⟨rfl, rfl⟩ := h
        have hhash : (s.units build).Hashes (digestUnit D build) id
            (D.input (s.fingerprintInput D build id hashes)) := by
          rw [fingerprintInput_eq D s build id hashes hall.length_eq.symm]
          refine Merkle.Graph.Hashes.of_list ?_
          show List.Forall₂ _ ((s.edgesOf id).map _) hashes
          rw [List.forall₂_map_left_iff]
          exact hall
        refine ⟨hhash, fun id' hash' h' => ?_⟩
        rcases (Table.getElem?_insert_eq_some _).1 h' with ⟨rfl, rfl⟩ | ⟨-, h'⟩
        · exact hhash
        · exact hm₁ id' hash' h'

theorem Session.Memo.sound {s : Session} {build : Build} {memo : Table PkgId ℕ}
    (h : s.Memo D build memo) : s.Sound D build memo := by
  induction h with
  | empty => intro id hash h; simp at h
  | call _ hcall ih => exact (fingerprint_sound _ _ _ _ _ ih hcall).2

/-! ## The call returns -/

/-- The package is on no cycle and above none. -/
def Session.Acyclic (s : Session) (id : PkgId) : Prop :=
  Acc (fun below above => below ∈ (s.edgesOf above).map ResolvedDep.id) id

theorem fingerprintEach_mono {go go' : Table PkgId ℕ → PkgId → Option (ℕ × Table PkgId ℕ)}
    (hgo : ∀ memo id result, go memo id = some result → go' memo id = some result)
    (edges : List ResolvedDep) (memo : Table PkgId ℕ) (result : List ℕ × Table PkgId ℕ)
    (h : Session.fingerprintEach go edges memo = some result) :
    Session.fingerprintEach go' edges memo = some result := by
  induction edges generalizing memo result with
  | nil => exact h
  | cons edge rest ih =>
    unfold Session.fingerprintEach at h ⊢
    cases hfirst : go memo edge.id with
    | none => simp [hfirst] at h
    | some first =>
      simp only [hfirst] at h
      simp only [hgo _ _ _ hfirst]
      cases hrest : Session.fingerprintEach go rest first.2 with
      | none => simp [hrest] at h
      | some others =>
        simp only [hrest] at h
        simp only [ih _ _ hrest]
        exact h

theorem fingerprint_mono {s : Session} {build : Build} (depth : ℕ) (memo : Table PkgId ℕ)
    (id : PkgId) (result : ℕ × Table PkgId ℕ)
    (h : s.fingerprint D build depth memo id = some result) :
    s.fingerprint D build (depth + 1) memo id = some result := by
  induction depth generalizing memo id result with
  | zero => simp [Session.fingerprint] at h
  | succ depth ih =>
    unfold Session.fingerprint at h ⊢
    cases hmemo : memo[id]? with
    | some known => simpa [hmemo] using h
    | none =>
      simp only [hmemo] at h ⊢
      cases hall : Session.fingerprintEach (s.fingerprint D build depth) (s.edgesOf id) memo with
      | none => simp [hall] at h
      | some each =>
        simp only [hall] at h
        simp only [fingerprintEach_mono ih _ _ _ hall]
        exact h

theorem fingerprint_mono_le {s : Session} {build : Build} {depth depth' : ℕ}
    (hle : depth ≤ depth') {memo : Table PkgId ℕ} {id : PkgId} {result : ℕ × Table PkgId ℕ}
    (h : s.fingerprint D build depth memo id = some result) :
    s.fingerprint D build depth' memo id = some result := by
  induction hle with
  | refl => exact h
  | step _ ih => exact fingerprint_mono _ _ _ _ ih

/-- Of a package on no cycle the call returns, whatever it remembers. -/
theorem exists_fingerprint {s : Session} {build : Build} {id : PkgId} (h : s.Acyclic id)
    (memo : Table PkgId ℕ) : ∃ depth result, s.fingerprint D build depth memo id = some result := by
  induction h generalizing memo with
  | intro id _ ih =>
    have heach : ∀ edges : List ResolvedDep, (∀ edge ∈ edges, edge ∈ s.edgesOf id) → ∀ memo,
        ∃ depth result, Session.fingerprintEach (s.fingerprint D build depth) edges memo =
          some result := by
      intro edges
      induction edges with
      | nil => exact fun _ memo => ⟨0, _, rfl⟩
      | cons edge rest ihe =>
        intro hsub memo
        obtain ⟨depth₁, ⟨hash, memo₁⟩, h₁⟩ := ih edge.id
          (List.mem_map_of_mem (hsub edge List.mem_cons_self)) memo
        obtain ⟨depth₂, ⟨hashes, memo₂⟩, h₂⟩ :=
          ihe (fun e he => hsub e (List.mem_cons_of_mem _ he)) memo₁
        have h₁ := fingerprint_mono_le (le_max_left depth₁ depth₂) h₁
        have h₂ := fingerprintEach_mono (fun _ _ _ h =>
          fingerprint_mono_le (le_max_right depth₁ depth₂) h) _ _ _ h₂
        exact ⟨max depth₁ depth₂, (hash :: hashes, memo₂),
          by simp only [Session.fingerprintEach, h₁, h₂]⟩
    obtain ⟨depth, ⟨hashes, memo'⟩, hall⟩ := heach _ (fun _ he => he) memo
    cases hmemo : memo[id]? with
    | some known => exact ⟨1, (known, memo), by simp [Session.fingerprint, hmemo]⟩
    | none => exact ⟨depth + 1, _, by simp only [Session.fingerprint, hmemo, hall]; rfl⟩

theorem fingerprintEach_returns {go : Table PkgId ℕ → PkgId → Option (ℕ × Table PkgId ℕ)}
    {edges : List ResolvedDep} (hgo : ∀ edge ∈ edges, ∀ memo, ∃ result, go memo edge.id = some result)
    (memo : Table PkgId ℕ) : ∃ result, Session.fingerprintEach go edges memo = some result := by
  induction edges generalizing memo with
  | nil => exact ⟨_, rfl⟩
  | cons edge rest ih =>
    obtain ⟨⟨hash, memo₁⟩, hfirst⟩ := hgo edge List.mem_cons_self memo
    obtain ⟨⟨hashes, memo₂⟩, hrest⟩ := ih (fun e he => hgo e (List.mem_cons_of_mem _ he)) memo₁
    exact ⟨(hash :: hashes, memo₂), by simp only [Session.fingerprintEach, hfirst, hrest]⟩

/-- One package depends on another. -/
def Session.Below (s : Session) (above below : PkgId) : Prop :=
  ∃ edge ∈ s.edgesOf above, edge.id = below

theorem Session.mem_nodes_of_edge {s : Session} {id : PkgId} {edge : ResolvedDep}
    (h : edge ∈ s.edgesOf id) : id ∈ s.resolve.nodes.map Node.id := by
  unfold Session.edgesOf Session.node? at h
  cases hfind : s.resolve.nodes.find? fun node => node.id = id with
  | none =>
    rw [hfind] at h
    exact absurd h List.not_mem_nil
  | some node =>
    have hid : node.id = id := by simpa using List.find?_some hfind
    exact hid ▸ List.mem_map_of_mem (List.mem_of_find?_eq_some hfind)

/-- Where there is no cycle the calls that are open are of different nodes, so a depth above the
number of nodes is enough. -/
theorem fingerprint_returns {s : Session} {build : Build}
    (hacyclic : Acyclic s.Below) {depth : ℕ} {opened : List PkgId}
    (hnodup : opened.Nodup) (hnodes : opened ⊆ s.resolve.nodes.map Node.id) {id : PkgId}
    (habove : ∀ above ∈ opened, Relation.TransGen s.Below above id)
    (hdepth : s.resolve.nodes.length < depth + opened.length) (memo : Table PkgId ℕ) :
    ∃ result, s.fingerprint D build depth memo id = some result := by
  induction depth generalizing opened id memo with
  | zero =>
    have hle := (List.subperm_of_subset hnodup hnodes).length_le
    rw [List.length_map] at hle
    omega
  | succ depth ih =>
    unfold Session.fingerprint
    cases hmemo : memo[id]? with
    | some known => exact ⟨_, rfl⟩
    | none =>
      have hfresh : id ∉ opened := fun hin => hacyclic id (habove id hin)
      obtain ⟨⟨hashes, memo'⟩, heach⟩ := fingerprintEach_returns
        (fun edge hedge memo => by
          refine @ih (id :: opened) (List.nodup_cons.2 ⟨hfresh, hnodup⟩) ?_ edge.id ?_ ?_ memo
          · exact List.cons_subset.2 ⟨Session.mem_nodes_of_edge hedge, hnodes⟩
          · intro above hin
            have hstep : s.Below id edge.id := ⟨edge, hedge, rfl⟩
            rcases List.mem_cons.1 hin with rfl | hin
            · exact .single hstep
            · exact (habove above hin).tail hstep
          · rw [List.length_cons]
            omega)
        memo
      simp only [heach]
      exact ⟨_, rfl⟩

/-! ## Values from what is explicit -/

theorem mergeEach_cons (node : Node) (defaultsDeclined : Bool) (claims : List Claim)
    (option : OptionInfo) (rest : List OptionInfo) (env : Env) (violations : List Violation) :
    ∃ value setter violations',
      (mergeEach node defaultsDeclined claims (option :: rest) env violations).1 =
      ⟨option.name, value, setter, value = option.fallback defaultsDeclined env⟩ ::
        (mergeEach node defaultsDeclined claims rest
          (if value = .none then env else env.set option.name value) violations').1 :=
  ⟨_, _, _, rfl⟩

theorem explicit_cons (name : Str) (value fallback : OptionValue) (setter : Setter)
    (rest : List ResolvedOption) : explicit (⟨name, value, setter, value = fallback⟩ :: rest) =
      if value = fallback then explicit rest else (name, value) :: explicit rest := by
  by_cases h : value = fallback <;> simp [explicit, h]

theorem name_of_mem_explicit {node : Node} {defaultsDeclined : Bool} {claims : List Claim}
    {options : List OptionInfo} {env : Env} {violations : List Violation} {entry : Str × OptionValue}
    (h : entry ∈ explicit (mergeEach node defaultsDeclined claims options env violations).1) :
    entry.1 ∈ options.map OptionInfo.name := by
  induction options generalizing env violations with
  | nil => simp [mergeEach, explicit] at h
  | cons option rest ih =>
    obtain ⟨value, setter, violations', heq⟩ :=
      mergeEach_cons node defaultsDeclined claims option rest env violations
    rw [heq, explicit_cons] at h
    split at h
    · exact List.mem_cons_of_mem _ (ih h)
    · rcases List.mem_cons.1 h with rfl | h
      · exact List.mem_cons_self
      · exact List.mem_cons_of_mem _ (ih h)

/-- When two merges agree on whether the defaults are declined, what is not a default
determines the rest. -/
theorem values_eq_of_explicit_eq {node node' : Node} {defaultsDeclined : Bool}
    {claims claims' : List Claim} {options : List OptionInfo} {env : Env}
    {violations violations' : List Violation} (hn : (options.map OptionInfo.name).Nodup)
    (h : explicit (mergeEach node defaultsDeclined claims options env violations).1 =
      explicit (mergeEach node' defaultsDeclined claims' options env violations').1) :
    values (mergeEach node defaultsDeclined claims options env violations).1 =
      values (mergeEach node' defaultsDeclined claims' options env violations').1 := by
  induction options generalizing env violations violations' with
  | nil => rfl
  | cons option rest ih =>
    obtain ⟨hfresh, hn⟩ := List.nodup_cons.1 hn
    obtain ⟨value, setter, violations₁, heq⟩ :=
      mergeEach_cons node defaultsDeclined claims option rest env violations
    obtain ⟨value', setter', violations₁', heq'⟩ :=
      mergeEach_cons node' defaultsDeclined claims' option rest env violations'
    rw [heq, heq', explicit_cons, explicit_cons] at h
    have htail (hv : value = value') (h : explicit (mergeEach node defaultsDeclined claims rest
        (if value = .none then env else env.set option.name value) violations₁).1 =
        explicit (mergeEach node' defaultsDeclined claims' rest
        (if value' = .none then env else env.set option.name value') violations₁').1) :
        values (mergeEach node defaultsDeclined claims (option :: rest) env violations).1 =
        values (mergeEach node' defaultsDeclined claims' (option :: rest) env violations').1 := by
      subst hv
      rw [heq, heq', values, values, List.map_cons, List.map_cons]
      exact congrArg _ (ih hn h)
    by_cases hv : value = option.fallback defaultsDeclined env <;>
      by_cases hv' : value' = option.fallback defaultsDeclined env
    · rw [if_pos hv, if_pos hv'] at h
      exact htail (hv.trans hv'.symm) h
    · -- the names that are left are not that of this option
      rw [if_pos hv, if_neg hv'] at h
      exact absurd (name_of_mem_explicit (h ▸ List.mem_cons_self)) hfresh
    · rw [if_neg hv, if_pos hv'] at h
      exact absurd (name_of_mem_explicit (h ▸ List.mem_cons_self)) hfresh
    · rw [if_neg hv, if_neg hv'] at h
      obtain ⟨hhead, htails⟩ := List.cons.inj h
      exact htail (Prod.mk.inj hhead).2 htails

theorem mergeOptions_eq (node : Node) (profile : Profile) (config : List ConfigEntry)
    (requests : List Request) : ∃ claims violations,
      (mergeOptions node profile config requests).options =
        (mergeEach node (declined config node.name) claims node.options.list profile.facts
          violations).1 := by
  have hset : (findSet node profile config).defaultsDeclined = declined config node.name := by
    unfold findSet
    split <;> rfl
  rw [← hset]
  exact ⟨_, _, rfl⟩

/-! ## Two sessions -/

/-- The fingerprint the call returns for a package, whatever it has been called for
before. -/
def Session.Fingerprint (D : Digest FingerprintInput) (s : Session) (build : Build) (id : PkgId)
    (hash : ℕ) : Prop :=
  ∃ memo depth memo', s.Memo D build memo ∧
    s.fingerprint D build depth memo id = some (hash, memo')

theorem Session.Fingerprint.hashes {s : Session} {build : Build} {id : PkgId} {hash : ℕ}
    (h : s.Fingerprint D build id hash) :
    (s.units build).Hashes (digestUnit D build) id hash := by
  obtain ⟨memo, depth, memo', hmemo, h⟩ := h
  exact (fingerprint_sound _ _ _ _ _ hmemo.sound h).1

/-- Equal fingerprints are those of alike units. -/
theorem fingerprint_eq_iff (hD : D.CollisionFree) {s s' : Session} {build : Build} {id id' : PkgId}
    {hash hash' : ℕ} (h : s.Fingerprint D build id hash) (h' : s'.Fingerprint D build id' hash') :
    hash = hash' ↔ Merkle.Alike (s.units build) (s'.units build) id id' := by
  constructor
  · intro heq
    exact Merkle.alike_of_hashes (fun _ _ _ _ _ _ => digestUnit_inj hD) h.hashes
      (heq ▸ h'.hashes)
  · intro ha
    exact Merkle.hash_eq_of_alike (digestUnit_perm D build) ha h.hashes h'.hashes

/-- What relates packages of which the sessions say the same, in what is hashed: related
packages agree in their facts, in the options that are set to something else than their
fallback, and in their edges, whose targets are related. -/
structure Overlooks (t t' : Session) (build : Build) (R : PkgId → PkgId → Prop) : Prop where
  facts : ∀ id id', R id id' → t.facts build id = t'.facts build id'
  said : ∀ id id', R id id' → ∃ entries, t.Says id entries ∧ t'.Says id' entries
  edges : ∀ id id', R id id' → Merkle.Matched R (t.labelled id) (t'.labelled id')

/-- In sessions that options were applied to, units are alike just when the settings say the
same of them. -/
theorem alike_iff_overlooks {L L' : Order} {s s' t t' : Session} {build : Build}
    (h : applyOptions L s = some (t, .ok false)) (h' : applyOptions L' s' = some (t', .ok false))
    (id id' : PkgId) : Merkle.Alike (t.units build) (t'.units build) id id' ↔
      ∃ R, Overlooks t t' build R ∧ R id id' := by
  have hcontent : ∀ a b, t.content build a = t'.content build b ↔
      t.facts build a = t'.facts build b ∧ ∃ entries, t.Says a entries ∧ t'.Says b entries := by
    intro a b
    simp only [Session.content, Content.mk.injEq, Session.says_applied h, Session.says_applied h']
    refine and_congr_right fun _ => ⟨fun heq => ⟨_, rfl, heq⟩, fun ⟨entries, ha, hb⟩ => ?_⟩
    exact ha.symm.trans hb
  constructor
  · intro ⟨R, hR, hid⟩
    exact ⟨R, ⟨fun a b hab => ((hcontent a b).1 (hR.own a b hab)).1,
      fun a b hab => ((hcontent a b).1 (hR.own a b hab)).2, hR.edges⟩, hid⟩
  · intro ⟨R, hR, hid⟩
    exact ⟨R, ⟨fun a b hab => (hcontent a b).2 ⟨hR.facts a b hab, hR.said a b hab⟩, hR.edges⟩,
      hid⟩

/-- Two sessions whose options differ for a package. The fingerprints of its unit differ
exactly when the settings say something else of it or of a package below; and they do where
the sessions agree on whether the defaults of the package are declined. -/
theorem fingerprint_reflects (hD : D.CollisionFree) (build : Build) {L L' : Order}
    {s s' t t' : Session} (h : applyOptions L s = some (t, .ok false))
    (h' : applyOptions L' s' = some (t', .ok false))
    (hfacts : t.profile.facts = t'.profile.facts) {node node' : Node}
    (hn : node ∈ t.resolve.nodes) (hn' : node' ∈ t'.resolve.nodes)
    (hoptions : node.options = node'.options)
    (hacyclic : t.Acyclic node.id) (hacyclic' : t'.Acyclic node'.id)
    (hdiffer : values (t.optionsOf node.id) ≠ values (t'.optionsOf node'.id)) :
    (∃ hash, t.Fingerprint D build node.id hash) ∧
    (∃ hash, t'.Fingerprint D build node'.id hash) ∧
    ∀ hash hash', t.Fingerprint D build node.id hash → t'.Fingerprint D build node'.id hash' →
      (hash ≠ hash' ↔ ¬∃ R, Overlooks t t' build R ∧ R node.id node'.id) ∧
      (declined t.config node.name = declined t'.config node'.name → hash ≠ hash') := by
  have hreturns : ∀ {u : Session} {id : PkgId}, u.Acyclic id →
      ∃ hash, u.Fingerprint D build id hash := by
    intro u id hu
    obtain ⟨depth, ⟨hash, memo⟩, hret⟩ := exists_fingerprint hu ∅
    exact ⟨hash, ∅, depth, memo, .empty, hret⟩
  refine ⟨hreturns hacyclic, hreturns hacyclic', fun hash hash' hf hf' => ?_⟩
  have hiff := fingerprint_eq_iff hD hf hf'
  refine ⟨by rw [ne_eq, hiff, alike_iff_overlooks h h'], fun hdeclined heq => ?_⟩
  obtain ⟨R, hR, hnodes⟩ := hiff.1 heq
  have hexplicit : explicit (t.optionsOf node.id) = explicit (t'.optionsOf node'.id) :=
    congrArg Content.options (hR.own _ _ hnodes)
  rw [Session.optionsOf_applied h hn, Session.optionsOf_applied h' hn'] at hexplicit hdiffer
  obtain ⟨claims, violations, hv⟩ := mergeOptions_eq node t.profile t.config (t.asked node.id)
  obtain ⟨claims', violations', hv'⟩ :=
    mergeOptions_eq node' t'.profile t'.config (t'.asked node'.id)
  rw [← hdeclined, ← hfacts, ← hoptions] at hv'
  unfold Session.merged at hexplicit hdiffer
  rw [hv, hv'] at hexplicit hdiffer
  exact hdiffer (values_eq_of_explicit_eq node.options.distinct hexplicit)

deriving instance Encodable for Linkage, Linking, ToolchainInput, FingerprintInput

/-- A digest without collisions. -/
def numbering : Digest FingerprintInput where
  str := Encodable.encode
  combine parts := Encodable.encode parts + 1
  edges records := Encodable.encode records + 1
  input := Encodable.encode

theorem numbering_collisionFree : numbering.CollisionFree where
  str := Encodable.encode_injective
  combine := (add_left_injective 1).comp Encodable.encode_injective
  combine_ne _ := Nat.succ_ne_zero _
  edges := (add_left_injective 1).comp Encodable.encode_injective
  edges_ne _ := Nat.succ_ne_zero _
  input := Encodable.encode_injective

def optionalId : PkgId := ⟨str "core/a", ⟨1, 0, 0⟩, 0⟩

/-- A root that depends on a package with an option that is on by default. -/
def optional (config : List ConfigEntry) : Session where
  resolve :=
    { nodes := [
        { id := ⟨str "core/r", ⟨1, 0, 0⟩, 0⟩, name := str "r", source := .root
          options := .empty, edges := [⟨optionalId, .package, .scope, false⟩]
          patches := none },
        { id := optionalId, name := str "a", source := .index
          options := ⟨[⟨str "o", .bool, false, [], [⟨[], .bool true⟩]⟩], by simp⟩
          edges := [], patches := none }]
      distinct := by decide }
  packages id :=
    { qualified := id.qualified, name := pkgName id.qualified, version := id.version
      commit := [], platform := 0
      deps := if id = optionalId then [] else [⟨str "core/a", .package, false, [], []⟩] }
  config := config
  profile := ⟨fun _ => none, []⟩
  options := []
  seeds := []
  resolves := 0

def plainBuild : Build where
  mode := 0
  opt := 0
  sanitizers := 0
  linking := ⟨.static, 0, 0⟩
  standard := 0
  arch := 0
  os := 0
  abi := 0
  linker := 0
  sdk := 0
  toolchain := []
  compiler := ⟨[], ⟨.none, []⟩⟩
  archiver := ⟨[], ⟨.none, []⟩⟩
  cxx := ⟨[], ⟨.none, []⟩⟩
  linkArgs := []
  identity := 0
  artifact := none

theorem optional_acyclic {t : Session} (hn : t.edgesOf optionalId = []) : t.Acyclic optionalId :=
  .intro _ fun id hid => absurd hid (by rw [hn]; exact List.not_mem_nil)

/-- A config that sets the option changes the fingerprint. -/
theorem fingerprint_reflects_set : ∃ t t' hash hash',
    applyOptions noOrder (optional []) = some (t, .ok false) ∧
    applyOptions noOrder (optional [⟨str "a", ⟨none, [⟨str "o", .bool false, false⟩], false⟩⟩]) =
      some (t', .ok false) ∧
    t.Fingerprint numbering plainBuild optionalId hash ∧
    t'.Fingerprint numbering plainBuild optionalId hash' ∧ hash ≠ hash' := by
  have hrun : ∀ config, config = [] ∨
      config = [⟨str "a", ⟨none, [⟨str "o", .bool false, false⟩], false⟩⟩] →
      ∃ t, applyOptions noOrder (optional config) = some (t, .ok false) ∧
        t.profile.facts = (optional []).profile.facts ∧ t.config = config ∧
        t.resolve.nodes = (optional []).resolve.nodes ∧
        values (t.optionsOf optionalId) = [(str "o", .bool (decide (config = [])))] := by
    rintro config (rfl | rfl)
    · exact ⟨_, rfl, rfl, rfl, rfl, rfl⟩
    · exact ⟨_, rfl, rfl, rfl, rfl, rfl⟩
  obtain ⟨t, h, hfacts, hconfig, hnodes, hvalues⟩ := hrun _ (.inl rfl)
  obtain ⟨t', h', hfacts', hconfig', hnodes', hvalues'⟩ := hrun _ (.inr rfl)
  have hedges : ∀ u : Session, u.resolve.nodes = (optional []).resolve.nodes →
      u.edgesOf optionalId = [] := by
    intro u hu
    unfold Session.edgesOf Session.node?
    rw [hu]
    rfl
  have hmem : ∀ u : Session, u.resolve.nodes = (optional []).resolve.nodes →
      ∃ node ∈ u.resolve.nodes, node.id = optionalId ∧
        node.options = ⟨[⟨str "o", .bool, false, [], [⟨[], .bool true⟩]⟩], by simp⟩ := by
    intro u hu
    rw [hu]
    exact ⟨_, .tail _ (.head _), rfl, rfl⟩
  obtain ⟨node, hn, hid, ho⟩ := hmem t hnodes
  obtain ⟨node', hn', hid', ho'⟩ := hmem t' hnodes'
  have hreflects := fingerprint_reflects numbering_collisionFree plainBuild h h'
    (hfacts.trans hfacts'.symm) hn hn' (ho.trans ho'.symm)
    (hid ▸ optional_acyclic (hedges t hnodes)) (hid' ▸ optional_acyclic (hedges t' hnodes'))
    (by rw [hid, hid', hvalues, hvalues']; decide)
  rw [hid, hid'] at hreflects
  obtain ⟨⟨hash, hf⟩, ⟨hash', hf'⟩, hiff⟩ := hreflects
  refine ⟨t, t', hash, hash', h, h', hf, hf', (hiff hash hash' hf hf').2 ?_⟩
  rw [hconfig, hconfig']
  unfold declined configFind
  by_cases ha : node'.name = str "a"
  · simp [ha]
  · simp [Ne.symm ha]

/-- A config that declines the defaults leaves the fingerprint as it was. -/
theorem declined_fingerprint : numbering.CollisionFree ∧
    ∃ t t' hash, applyOptions noOrder (optional []) = some (t, .ok false) ∧
      applyOptions noOrder (optional [⟨str "a", ⟨none, [], true⟩⟩]) = some (t', .ok false) ∧
      values (t.optionsOf optionalId) = [(str "o", .bool true)] ∧
      values (t'.optionsOf optionalId) = [(str "o", .bool false)] ∧
      t.Fingerprint numbering plainBuild optionalId hash ∧
      t'.Fingerprint numbering plainBuild optionalId hash :=
  ⟨numbering_collisionFree, _, _, _, rfl, rfl, rfl, rfl, ⟨∅, 1, _, .empty, rfl⟩,
    ⟨∅, 1, _, .empty, rfl⟩⟩

end Spn.Options
