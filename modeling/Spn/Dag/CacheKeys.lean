import Spn.Dag.Wellformed
import Spn.Glob.Rows

/-! # Cache keys tell calls apart

The functions that hash what a call is given, taken together: the bytes that one of them
feeds to the hash say which function it was and what the key is of.
-/
namespace Spn.Dag

open Spn.Lib
open Spn.Glob (Sp FileTree Small listing framed_member small_members)

/-! ## What a key is of -/

/-- What one of the key functions feeds to the hash, before it is written as bytes. -/
inductive Keyed
  | action (mask : ℕ) (identity : Digest) (consumed : List (ArtifactKind × Digest))
      (produced : List (ArtifactKind × Str))
  | strong (weak pinnedRows : Digest) (rows : List (Obs × Digest))
  | pinned (rows : List Obs)
  | path (p : Path)
  | members (members : List (Str × UInt8))

namespace Keyed

/-- The name of the function and its format. -/
def tag : Keyed → Str
  | action .. => str "spn.dag.action.v4"
  | strong .. => str "spn.dag.strong.v8"
  | pinned .. => str "spn.dag.pinned.v1"
  | path .. => str "spn.dag.path.v1"
  | members .. => str "spn.dag.enum.v1"

/-- What comes after the name. -/
def body : Keyed → List UInt8
  | action mask identity consumed produced =>
    hashU64 mask ++ (identity.bytes
      ++ ((hashU64 consumed.length ++ consumed.flatMap fun x => x.1.toUInt8 :: x.2.bytes)
      ++ (hashU64 produced.length ++ produced.flatMap fun x => x.1.toUInt8 :: hashStr x.2)))
  | strong weak pinnedRows rows =>
    weak.bytes ++ (pinnedRows.bytes
      ++ (hashU64 rows.length ++ rows.flatMap fun x => hashObsRow x.1 ++ x.2.bytes))
  | pinned rows => hashU64 rows.length ++ rows.flatMap hashObsRow
  | path p => hashPath p
  | members ms =>
    hashU64 ms.length ++ ms.flatMap fun member => hashStr member.1 ++ [member.2]

/-- The bytes that are hashed. -/
def feed (x : Keyed) : List UInt8 := hashStr x.tag ++ x.body

/-- Masks, counts and lengths fit their 64 bits. -/
def Sized : Keyed → Prop
  | action mask _ consumed produced => mask < 2 ^ 64 ∧ consumed.length < 2 ^ 64 ∧
      produced.length < 2 ^ 64 ∧ ∀ x ∈ produced, x.2.length < 2 ^ 64
  | strong _ _ rows => rows.length < 2 ^ 64 ∧ ∀ x ∈ rows, x.1.Sized
  | pinned rows => rows.length < 2 ^ 64 ∧ ∀ o ∈ rows, o.Sized
  | path p => p.sub.length < 2 ^ 64
  | members ms => Small ms

theorem length_tag_lt (x : Keyed) : x.tag.length < 2 ^ 64 := by
  cases x <;> simp only [tag] <;> decide

theorem framed_consumed : Framed (fun _ : ArtifactKind × Digest => True)
    fun x => x.1.toUInt8 :: x.2.bytes := by
  have hkind : Framed (fun _ : ArtifactKind => True) fun kind => [kind.toUInt8] :=
    Framed.single fun a b _ _ h => ArtifactKind.toUInt8_injective h
  exact (hkind.pair framed_digest).mono fun x _ => ⟨trivial, trivial⟩

theorem framed_produced : Framed (fun x : ArtifactKind × Str => x.2.length < 2 ^ 64)
    fun x => x.1.toUInt8 :: hashStr x.2 := by
  have hkind : Framed (fun _ : ArtifactKind => True) fun kind => [kind.toUInt8] :=
    Framed.single fun a b _ _ h => ArtifactKind.toUInt8_injective h
  exact (hkind.pair framed_hashStr).mono fun x h => ⟨trivial, h⟩

theorem framed_row : Framed (fun x : Obs × Digest => x.1.Sized)
    fun x => hashObsRow x.1 ++ x.2.bytes :=
  (framed_hashObsRow.pair framed_digest).mono fun _ h => ⟨h, trivial⟩

theorem action_inj {m n : ℕ} {i j : Digest} {cs ds : List (ArtifactKind × Digest)}
    {ps qs : List (ArtifactKind × Str)} (hx : (action m i cs ps).Sized)
    (hy : (action n j ds qs).Sized) (h : (action m i cs ps).body = (action n j ds qs).body) :
    action m i cs ps = action n j ds qs := by
  obtain ⟨hm, hcs, hps, hnames⟩ := hx
  obtain ⟨hn, hds, hqs, hnames'⟩ := hy
  obtain ⟨rfl, hidentity⟩ := framed_hashU64 m n _ _ hm hn h
  obtain ⟨rfl, hconsumed⟩ := framed_digest i j _ _ trivial trivial hidentity
  obtain ⟨rfl, hproduced⟩ := (framed_hashU64.counted framed_consumed) cs ds _ _
    ⟨hcs, fun _ _ => trivial⟩ ⟨hds, fun _ _ => trivial⟩ hconsumed
  obtain rfl := (framed_hashU64.counted framed_produced).inj ⟨hps, hnames⟩ ⟨hqs, hnames'⟩ hproduced
  rfl

theorem strong_inj {w w' p p' : Digest} {rs ss : List (Obs × Digest)}
    (hx : (strong w p rs).Sized) (hy : (strong w' p' ss).Sized)
    (h : (strong w p rs).body = (strong w' p' ss).body) : strong w p rs = strong w' p' ss := by
  obtain ⟨rfl, hpinned⟩ := framed_digest w w' _ _ trivial trivial h
  obtain ⟨rfl, hrows⟩ := framed_digest p p' _ _ trivial trivial hpinned
  obtain rfl := (framed_hashU64.counted framed_row).inj hx hy hrows
  rfl

/-- What is fed says which function it was and what the key is of. -/
theorem feed_inj {x y : Keyed} (hx : x.Sized) (hy : y.Sized) (h : x.feed = y.feed) : x = y := by
  obtain ⟨htag, hbody⟩ := framed_hashStr _ _ _ _ x.length_tag_lt y.length_tag_lt h
  cases x <;> cases y <;> first | (exact absurd htag (by simp only [tag]; decide)) | skip
  case action.action => exact action_inj hx hy hbody
  case strong.strong => exact strong_inj hx hy hbody
  case pinned.pinned rows rows' =>
    obtain rfl := (framed_hashU64.counted framed_hashObsRow).inj hx hy hbody
    rfl
  case path.path p q =>
    obtain rfl := framed_hashPath.inj hx hy hbody
    rfl
  case members.members ms ns =>
    obtain rfl := (framed_hashU64.counted framed_member).inj hx hy hbody
    rfl

end Keyed

/-! ## The calls -/

/-- A call of a key function, with what it is given. -/
inductive Call
  | weakKey (g : Graph) (digest : ℕ → Digest) (k : ℕ)
  | strongKey (weak pinnedRows : Digest) (rows : List (Obs × Digest))
  | pinnedDigest (roots : Roots) (rows : List Obs)
  | pathDigest (p : Path)
  | membershipDigest (t : FileTree) (dir : List Str) (filter : Str)

/-- The kinds and digests of what an action consumes. -/
def consumed (g : Graph) (digest : ℕ → Digest) (k : ℕ) : List (ArtifactKind × Digest) :=
  (g.consumes k).filterMap fun a => (g.artifacts[a]?).map fun x => (x.kind, digest a)

/-- The kinds and names of what an action produces. -/
def produced (g : Graph) (k : ℕ) : List (ArtifactKind × Str) :=
  (g.produces k).filterMap fun a => (g.artifacts[a]?).map fun x => (x.kind, x.name)

/-- The program's hash in place of the one of the library. -/
def hashing (S : Sp) (hash : List UInt8 → Digest) : Sp :=
  { S with Digest := Digest, zero := .zero, blake3 := hash }

theorem members_hashing (S : Sp) (hash : List UInt8 → Digest) (t : FileTree) (dir : List Str)
    (filter : Option S.Compiled) :
    (hashing S hash).members t dir filter = S.members t dir filter := by
  have hkind : (hashing S hash).kind = S.kind := by
    funext kind
    cases kind <;> rfl
  have hpasses : (hashing S hash).passes filter = S.passes filter := by
    funext ⟨n, kind⟩
    cases kind <;> cases filter <;> rfl
  unfold Sp.members
  rw [hkind, hpasses]

namespace Call

variable (S : Sp)

/-- What the call returns; nothing for a filter that is no glob. -/
def key (hash : List UInt8 → Digest) : Call → Option Digest
  | weakKey g digest k => some (Dag.weakKey hash g digest k)
  | strongKey weak pinnedRows rows => some (Dag.strongKey hash weak pinnedRows rows)
  | pinnedDigest roots rows => some (Dag.pinnedDigest hash roots rows)
  | pathDigest p => some (Dag.pathDigest hash p)
  | membershipDigest t dir filter => (hashing S hash).membershipDigest t dir filter

/-- What the key of a call is of. -/
def keyed : Call → Option Keyed
  | weakKey g digest k => some (.action g.roots.pinned
      (((g.actions[k]?).map (·.identity)).getD .zero) (consumed g digest k) (produced g k))
  | strongKey weak pinnedRows rows => some (.strong weak pinnedRows rows)
  | pinnedDigest roots rows => some (.pinned (rows.filter fun o => roots.pins o.path.root))
  | pathDigest p => some (.path p)
  | membershipDigest t dir filter =>
    if filter = [] then some (.members (S.members t dir none))
    else (S.globNew filter).map fun glob => .members (S.members t dir (some glob))

/-- The bytes that the call feeds to the hash. -/
def fed (c : Call) : Option (List UInt8) := (c.keyed S).map Keyed.feed

/-- The graph of the call is one that was built. -/
def Made : Call → Prop
  | weakKey g _ _ => ∃ hash, Graph.Built hash g.roots g
  | _ => True

/-- Masks, counts and lengths fit their 64 bits. -/
def Sized : Call → Prop
  | weakKey g _ k => g.roots.pinned < 2 ^ 64 ∧ (g.consumes k).length < 2 ^ 64 ∧
      (g.produces k).length < 2 ^ 64 ∧ ∀ x ∈ g.artifacts, x.name.length < 2 ^ 64
  | strongKey _ _ rows => rows.length < 2 ^ 64 ∧ ∀ x ∈ rows, x.1.Sized
  | pinnedDigest _ rows => rows.length < 2 ^ 64 ∧ ∀ o ∈ rows, o.Sized
  | pathDigest p => p.sub.length < 2 ^ 64
  | membershipDigest .. => True

theorem flatMap_filterMap_map {α β γ : Type*} (f : α → Option β) (enc : β → List γ) (as : List α) :
    (as.filterMap f).flatMap enc = as.flatMap fun a => ((f a).map enc).getD [] := by
  induction as with
  | nil => rfl
  | cons a as ih => cases h : f a <;> simp [h, ih]

theorem length_filterMap_of_isSome {α β : Type*} {f : α → Option β} {as : List α}
    (h : ∀ a ∈ as, (f a).isSome) : (as.filterMap f).length = as.length := by
  induction as with
  | nil => rfl
  | cons a as ih =>
    obtain ⟨b, hb⟩ := Option.isSome_iff_exists.1 (h a List.mem_cons_self)
    simp [hb, ih fun c hc => h c (List.mem_cons_of_mem _ hc)]

variable {S} {digest : ℕ → Digest} {k : ℕ}

theorem length_consumed {g : Graph} {hash : List UInt8 → Digest} (hg : g.Wf hash)
    (digest : ℕ → Digest) (k : ℕ) : (consumed g digest k).length = (g.consumes k).length := by
  refine length_filterMap_of_isSome fun a ha => ?_
  simp [List.getElem?_eq_getElem (hg.inputs_lt k a ha)]

theorem length_produced {g : Graph} {hash : List UInt8 → Digest} (hg : g.Wf hash) (k : ℕ) :
    (produced g k).length = (g.produces k).length := by
  refine length_filterMap_of_isSome fun a ha => ?_
  obtain ⟨x, hx, -⟩ := Option.bind_eq_some_iff.1 ((hg.mem_produces k a).1 ha)
  simp [hx]

theorem weakKey_eq {g : Graph} (hg : (weakKey g digest k).Made) (hash : List UInt8 → Digest) :
    Dag.weakKey hash g digest k = hash (Keyed.feed (.action g.roots.pinned
      (((g.actions[k]?).map (·.identity)).getD .zero) (consumed g digest k) (produced g k))) := by
  obtain ⟨hash', hbuilt⟩ := hg
  have hin : (g.consumes k).flatMap (hashInput g digest) =
      (consumed g digest k).flatMap fun x => x.1.toUInt8 :: x.2.bytes := by
    rw [consumed, flatMap_filterMap_map]
    refine List.flatMap_congr fun a _ => ?_
    cases h : g.artifacts[a]? <;> simp [hashInput, h]
  have hout : (g.produces k).flatMap (hashOutput g) =
      (produced g k).flatMap fun x => x.1.toUInt8 :: hashStr x.2 := by
    rw [produced, flatMap_filterMap_map]
    refine List.flatMap_congr fun a _ => ?_
    cases h : g.artifacts[a]? <;> simp [hashOutput, h]
  rw [Dag.weakKey, hin, hout, ← length_consumed hbuilt.wf digest k, ← length_produced hbuilt.wf k]
  simp only [Keyed.feed, Keyed.tag, Keyed.body, List.append_assoc]

/-- Every key is the hash of what its call feeds. -/
theorem key_eq {c : Call} (hc : c.Made) (hash : List UInt8 → Digest) :
    c.key S hash = (c.fed S).map hash := by
  cases c with
  | weakKey g digest k => exact congrArg some (weakKey_eq hc hash)
  | strongKey weak pinnedRows rows =>
    simp [key, fed, keyed, Dag.strongKey, Keyed.feed, Keyed.tag, Keyed.body]
  | pinnedDigest roots rows =>
    simp [key, fed, keyed, Dag.pinnedDigest, Keyed.feed, Keyed.tag, Keyed.body]
  | pathDigest p => rfl
  | membershipDigest t dir filter =>
    have hmembers := members_hashing S hash t dir
    by_cases hfilter : filter = []
    · simp only [key, fed, keyed, Sp.membershipDigest, if_pos hfilter]
      exact congrArg (fun ms => some (hash (listing ms))) (hmembers none)
    · simp only [key, fed, keyed, Sp.membershipDigest, if_neg hfilter]
      have hglob : (hashing S hash).globNew filter = S.globNew filter := rfl
      rw [hglob]
      cases S.globNew filter with
      | none => rfl
      | some glob => exact congrArg (fun ms => some (hash (listing ms))) (hmembers (some glob))

theorem Sized.keyed {c : Call} (hc : c.Sized) {x : Keyed} (hx : x ∈ c.keyed S) : x.Sized := by
  cases c with
  | weakKey g digest k =>
    obtain ⟨hmask, hcs, hps, hnames⟩ := hc
    obtain rfl := Option.some.inj hx
    refine ⟨hmask, (List.length_filterMap_le _ _).trans_lt hcs,
      (List.length_filterMap_le _ _).trans_lt hps, fun x hx => ?_⟩
    obtain ⟨a, -, ha⟩ := List.mem_filterMap.1 hx
    obtain ⟨artifact, hartifact, rfl⟩ := Option.map_eq_some_iff.1 ha
    exact hnames _ (List.mem_of_getElem? hartifact)
  | strongKey weak pinnedRows rows =>
    obtain rfl := Option.some.inj hx
    exact hc
  | pinnedDigest roots rows =>
    obtain rfl := Option.some.inj hx
    exact ⟨(List.length_filter_le _ _).trans_lt hc.1, fun o ho => hc.2 o (List.mem_filter.1 ho).1⟩
  | pathDigest p =>
    obtain rfl := Option.some.inj hx
    exact hc
  | membershipDigest t dir filter =>
    simp only [Call.keyed] at hx
    split_ifs at hx
    · obtain rfl := Option.some.inj hx
      exact small_members dir none
    · obtain ⟨glob, -, rfl⟩ := Option.map_eq_some_iff.1 hx
      exact small_members dir (some glob)

/-- The bytes that two calls feed are equal only if the calls are to one function and what
they key is the same, and so are their keys where the hash does not collide. -/
theorem keys_tell_apart {c c' : Call} (hc : c.Made) (hc' : c'.Made) (hs : c.Sized)
    (hs' : c'.Sized) :
    (∀ hash, c.key S hash = (c.fed S).map hash ∧ c'.key S hash = (c'.fed S).map hash) ∧
    (∀ x, c.fed S = some x → c'.fed S = some x → ∃ a, c.keyed S = some a ∧ c'.keyed S = some a) ∧
    ∀ hash d, (∀ x ∈ c.fed S, ∀ y ∈ c'.fed S, hash x = hash y → x = y) →
      c.key S hash = some d → c'.key S hash = some d →
        ∃ a, c.keyed S = some a ∧ c'.keyed S = some a := by
  have hfed : ∀ x, c.fed S = some x → c'.fed S = some x →
      ∃ a, c.keyed S = some a ∧ c'.keyed S = some a := by
    intro x hx hx'
    obtain ⟨a, ha, rfl⟩ := Option.map_eq_some_iff.1 hx
    obtain ⟨b, hb, heq⟩ := Option.map_eq_some_iff.1 hx'
    obtain rfl := Keyed.feed_inj (hs'.keyed hb) (hs.keyed ha) heq
    exact ⟨b, ha, hb⟩
  refine ⟨fun hash => ⟨key_eq hc hash, key_eq hc' hash⟩, hfed, ?_⟩
  intro hash d hcoll hkey hkey'
  rw [key_eq hc] at hkey
  rw [key_eq hc'] at hkey'
  obtain ⟨x, hx, hd⟩ := Option.map_eq_some_iff.1 hkey
  obtain ⟨y, hy, hd'⟩ := Option.map_eq_some_iff.1 hkey'
  obtain rfl := hcoll x hx y hy (hd.trans hd'.symm)
  exact hfed x hx hy

/-- A library without globs. -/
def noGlobs : Sp := ⟨Empty, fun _ => none, fun _ _ => false, Unit, (), fun _ => (), 1, 2⟩

/-- An action without inputs. -/
def loneGraph : Graph := (Graph.addAction (.new ⟨fun _ => [], 0⟩) .discovered .zero).1

theorem keys_tell_apart_lone :
    (weakKey loneGraph (fun _ => .zero) 0).fed noGlobs ≠
      (pathDigest ⟨.project, str "a"⟩).fed noGlobs := by
  intro heq
  have happart := @keys_tell_apart noGlobs (weakKey loneGraph (fun _ => .zero) 0)
    (pathDigest ⟨.project, str "a"⟩) ⟨fun _ => .zero, .addAction .discovered .zero .new⟩
    trivial ⟨by decide, by decide, by decide, nofun⟩ (by decide : _ < _)
  obtain ⟨a, hkey, hpath⟩ := happart.2.1 _ rfl heq.symm
  cases hpath
  cases hkey

/-- The rows of other roots are left out of the digest of the pinned ones. -/
theorem unpinned_row_not_fed :
    (pinnedDigest ⟨fun _ => [], 0⟩ []).fed noGlobs =
      (pinnedDigest ⟨fun _ => [], 0⟩ [⟨.file, ⟨.project, str "a"⟩, []⟩]).fed noGlobs ∧
    ([] : List Obs) ≠ [⟨.file, ⟨.project, str "a"⟩, []⟩] := by
  decide +kernel

end Call
end Spn.Dag
