import Spn.Dag.Types
import Spn.Lib.Framed

/-! # Cache keys

The byte strings `dag.c` feeds to the hash, in its order: every string and
every array is preceded by its length.
-/
namespace Spn.Dag

open Spn.Lib

/-- `spn_dag_hash_u64`, on the little-endian targets the program builds for. -/
def hashU64 (n : ℕ) : List UInt8 := (List.range 8).map fun i => (n / 256 ^ i % 256).toUInt8

/-- `spn_dag_hash_str`. -/
def hashStr (s : Str) : List UInt8 := hashU64 s.length ++ s

/-- `spn_dag_hash_path`. -/
def hashPath (p : Path) : List UInt8 := p.root.toNat.toUInt8 :: hashStr p.sub

def ArtifactKind.toUInt8 : ArtifactKind → UInt8
  | .value => 0 | .file => 1 | .tree => 2

def ObsKind.toNat : ObsKind → ℕ
  | .file => 0 | .absent => 1 | .enumeration => 2

/-- `hash_obs_row`. -/
def hashObsRow (o : Obs) : List UInt8 :=
  o.kind.toNat.toUInt8 :: o.path.root.toNat.toUInt8 :: (hashStr o.path.sub ++ hashStr o.filter)

/-- One input as the weak key sees it. -/
def hashInput (g : Graph) (digest : ℕ → Digest) (a : ℕ) : List UInt8 :=
  match g.artifacts[a]? with
  | some x => x.kind.toUInt8 :: (digest a).bytes
  | none => []

/-- One output as the weak key sees it. -/
def hashOutput (g : Graph) (a : ℕ) : List UInt8 :=
  match g.artifacts[a]? with
  | some x => x.kind.toUInt8 :: hashStr x.name
  | none => []

variable (hash : List UInt8 → Digest)

/-- `spn_dag_weak_key`: the identity of the action, the digests of its inputs
and the names of its outputs. -/
def weakKey (g : Graph) (digest : ℕ → Digest) (k : ℕ) : Digest :=
  let identity := ((g.actions[k]?).map (·.identity)).getD .zero
  hash (hashStr (str "spn.dag.action.v4") ++ hashU64 g.roots.pinned ++ identity.bytes
    ++ hashU64 (g.consumes k).length ++ (g.consumes k).flatMap (hashInput g digest)
    ++ hashU64 (g.produces k).length ++ (g.produces k).flatMap (hashOutput g))

/-- `spn_dag_strong_key`: the weak key, the pinned rows, and each row with the
digest it resolved to. -/
def strongKey (weak pinned : Digest) (rows : List (Obs × Digest)) : Digest :=
  hash (hashStr (str "spn.dag.strong.v8") ++ weak.bytes ++ pinned.bytes
    ++ hashU64 rows.length ++ rows.flatMap fun (o, d) => hashObsRow o ++ d.bytes)

/-- `spn_dag_pinned_digest`: the rows under a pinned root, without a value. -/
def pinnedDigest (roots : Roots) (rows : List Obs) : Digest :=
  let pinned := rows.filter fun o => roots.pins o.path.root
  hash (hashStr (str "spn.dag.pinned.v1") ++ hashU64 pinned.length ++ pinned.flatMap hashObsRow)

/-- `spn_dag_path_digest`. -/
def pathDigest (p : Path) : Digest := hash (hashStr (str "spn.dag.path.v1") ++ hashPath p)

/-- The weak key reads the digests of the action's inputs and nothing else of
what a run changes. -/
theorem weakKey_congr {g : Graph} {d e : ℕ → Digest} {k : ℕ}
    (h : ∀ a ∈ g.consumes k, d a = e a) : weakKey hash g d k = weakKey hash g e k := by
  have hin : ∀ a ∈ g.consumes k, hashInput g d a = hashInput g e a := by
    intro a ha
    simp only [hashInput, h a ha]
  rw [weakKey, weakKey, List.flatMap_congr hin]

/-! ## What is fed can be read back -/

theorem length_hashU64 (n : ℕ) : (hashU64 n).length = 8 := by simp [hashU64]

theorem hashU64_injective {m n : ℕ} (hm : m < 2 ^ 64) (hn : n < 2 ^ 64)
    (h : hashU64 m = hashU64 n) : m = n := by
  have hdigit : ∀ i < 8, m / 256 ^ i % 256 = n / 256 ^ i % 256 := by
    intro i hi
    have hat := List.map_inj_left.1 h i (List.mem_range.2 hi)
    have hnat := congrArg UInt8.toNat hat
    simpa using hnat
  have h0 := hdigit 0 (by decide)
  have h1 := hdigit 1 (by decide)
  have h2 := hdigit 2 (by decide)
  have h3 := hdigit 3 (by decide)
  have h4 := hdigit 4 (by decide)
  have h5 := hdigit 5 (by decide)
  have h6 := hdigit 6 (by decide)
  have h7 := hdigit 7 (by decide)
  omega

theorem framed_hashU64 : Framed (· < 2 ^ 64) hashU64 :=
  Framed.of_length (fun n _ => length_hashU64 n) fun _ _ => hashU64_injective

theorem framed_hashStr : Framed (fun s : Str => s.length < 2 ^ 64) hashStr :=
  framed_hashU64.counted_raw

theorem framed_digest : Framed (fun _ : Digest => True) Digest.bytes := by
  refine Framed.of_length (fun d _ => d.size) ?_
  rintro ⟨a, ha⟩ ⟨b, hb⟩ - - rfl
  rfl

theorem ArtifactKind.toUInt8_injective : Function.Injective ArtifactKind.toUInt8 := by
  intro a b h
  cases a <;> cases b <;> first | rfl | (simp [ArtifactKind.toUInt8] at h)

theorem framed_root : Framed (fun _ : PathRoot => True) fun root => [root.toNat.toUInt8] := by
  refine Framed.single fun a b _ _ h => ?_
  cases a <;> cases b <;> first | rfl | (simp [PathRoot.toNat] at h)

theorem framed_obsKind : Framed (fun _ : ObsKind => True) fun kind => [kind.toNat.toUInt8] := by
  refine Framed.single fun a b _ _ h => ?_
  cases a <;> cases b <;> first | rfl | (simp [ObsKind.toNat] at h)

theorem framed_hashPath : Framed (fun p : Path => p.sub.length < 2 ^ 64) hashPath := by
  have hfields := (framed_root.pair framed_hashStr).comap
    (f := fun p : Path => (p.root, p.sub)) fun p q h => Path.ext (congrArg (·.1) h) (congrArg (·.2) h)
  exact hfields.mono fun p h => ⟨trivial, h⟩

/-- The strings of a row are counted in 64 bits. -/
def Obs.Sized (o : Obs) : Prop := o.path.sub.length < 2 ^ 64 ∧ o.filter.length < 2 ^ 64

theorem framed_hashObsRow : Framed Obs.Sized hashObsRow := by
  have hfields := (framed_obsKind.pair (framed_hashPath.pair framed_hashStr)).comap
    (f := fun o : Obs => (o.kind, o.path, o.filter)) (by
      rintro ⟨k, p, s⟩ ⟨k', p', s'⟩ h
      cases h
      rfl)
  intro o o' x y ho ho' h
  refine hfields o o' x y ⟨trivial, ho.1, ho.2⟩ ⟨trivial, ho'.1, ho'.2⟩ ?_
  simpa [hashObsRow, hashPath] using h

end Spn.Dag
