import Mathlib

/-! # Paths

`spn_path_t`: a root and a sub-path of bytes under it. The walk from a path to
its parents is the one `path_parent` in `dag/run.c` makes: it stops at the
directory that is its own parent and before the empty path.
-/
namespace Spn

/-- A string of the source: its bytes. -/
abbrev Str := List UInt8

instance encodableUInt8 : Encodable UInt8 :=
  Encodable.ofLeftInjection UInt8.toNat (fun n => some (UInt8.ofNat n)) (by simp)

instance lawfulBEqBytes : LawfulBEq (List UInt8) := List.instLawfulBEq

/-- The bytes of a literal. -/
def str (s : String) : Str := s.toList.map fun c => c.toNat.toUInt8

def slash : UInt8 := 0x2f

/-- `spn_path_root_t`. -/
inductive PathRoot
  | none | project | store | build | checkout | toolchain | index | runtime | cache | storage
  deriving DecidableEq, Repr

/-- The value of the enumerator. -/
def PathRoot.toNat : PathRoot → ℕ
  | .none => 0 | .project => 1 | .store => 2 | .build => 3 | .checkout => 4
  | .toolchain => 5 | .index => 6 | .runtime => 7 | .cache => 8 | .storage => 9

theorem PathRoot.toNat_injective : Function.Injective PathRoot.toNat := by
  intro a b h
  cases a <;> cases b <;> first | rfl | (simp [PathRoot.toNat] at h)

@[ext] structure Path where
  root : PathRoot
  sub : Str
  deriving DecidableEq, Repr

/-- `spn_path_roots_t`: the directory of each root, and the mask of the roots
whose content is pinned. -/
structure Roots where
  dirs : PathRoot → Str
  pinned : ℕ

namespace Roots

/-- `pinned & spn_path_root_mask(root)`. -/
def pins (r : Roots) (root : PathRoot) : Bool := r.pinned.testBit root.toNat

/-- `root_match`. -/
def rootMatch (dir path : Str) : Bool :=
  dir <+: path ∧ (path.length = dir.length ∨ path[dir.length]? = some slash)

/-- The roots other than the absolute one. -/
def opened : List PathRoot :=
  [.project, .store, .build, .checkout, .toolchain, .index, .runtime, .cache, .storage]

/-- `spn_path_roots_intersect`: the directory holds the directory of a root. -/
def intersect (r : Roots) (dir : Str) : Bool :=
  opened.any fun root => r.dirs root ≠ [] ∧ rootMatch dir (r.dirs root)

/-- `spn_path_str`. -/
def pathStr (r : Roots) (p : Path) : Str :=
  if p.root = .none then p.sub
  else if p.sub = [] then r.dirs p.root
  else r.dirs p.root ++ slash :: p.sub

end Roots

namespace Path

/-- `spn_path_empty`. -/
def empty (p : Path) : Bool := p.root = .none ∧ p.sub = []

/-- `spn_path_join`. -/
def join (d : Path) (rel : Str) : Path :=
  { d with sub := if d.sub = [] then rel else d.sub ++ slash :: rel }

theorem join_injective (d : Path) : Function.Injective d.join := by
  intro a b h
  have hsub := congrArg Path.sub h
  simp only [join] at hsub
  split at hsub
  · exact hsub
  · exact (List.cons.inj (List.append_cancel_left hsub)).2

/-- `sp_str_find_c8_reverse(sub, '/')`. -/
def lastSlash (s : Str) : Option ℕ :=
  (s.reverse.findIdx? (· = slash)).map fun i => s.length - 1 - i

/-- `spn_path_parent`. -/
def parent (p : Path) : Path :=
  match lastSlash p.sub with
  | .none => { p with sub := [] }
  | some 0 => { p with sub := p.sub.take 1 }
  | some sep => { p with sub := p.sub.take sep }

/-- `path_parent` in `dag/run.c`: the parent, unless the walk ends here. -/
def up (p : Path) : Option Path :=
  if p.parent = p ∨ p.parent.empty then .none else some p.parent

@[simp] theorem parent_root (p : Path) : p.parent.root = p.root := by
  unfold parent; split <;> rfl

theorem parent_sub_eq_take (p : Path) : ∃ k, p.parent.sub = p.sub.take k := by
  unfold parent
  split
  · exact ⟨0, by simp⟩
  · exact ⟨1, rfl⟩
  · exact ⟨_, rfl⟩

theorem up_eq_some {p q : Path} (h : p.up = some q) :
    p.parent = q ∧ q ≠ p ∧ q.empty = false := by
  unfold up at h
  split at h
  · cases h
  · rename_i hno
    push Not at hno
    cases h
    exact ⟨rfl, hno.1, by simpa using hno.2⟩

theorem up_length {p q : Path} (h : p.up = some q) : q.sub.length < p.sub.length := by
  obtain ⟨rfl, hne, -⟩ := up_eq_some h
  obtain ⟨k, hk⟩ := parent_sub_eq_take p
  by_contra hlen
  have hsub : p.parent.sub = p.sub := by
    rw [hk, List.length_take] at hlen
    rw [hk, List.take_of_length_le (by omega)]
  exact hne (Path.ext (parent_root p) hsub)

/-- The walk `for (dir = path; path_parent(&dir);)`, cut after `fuel` steps. -/
def ancestorsFuel : ℕ → Path → List Path
  | 0, _ => []
  | fuel + 1, p =>
    match p.up with
    | .none => []
    | some q => q :: ancestorsFuel fuel q

/-- The directories the walk visits, nearest first. Each is shorter than the
one before, so the length of the path is enough fuel. -/
def ancestors (p : Path) : List Path := ancestorsFuel p.sub.length p

theorem ancestorsFuel_succ :
    ∀ {fuel : ℕ} {p : Path}, p.sub.length ≤ fuel →
      ancestorsFuel (fuel + 1) p = ancestorsFuel fuel p
  | 0, p, h => by
    have hup : p.up = none := by
      cases hq : p.up with
      | none => rfl
      | some q => have := up_length hq; omega
    simp [ancestorsFuel, hup]
  | fuel + 1, p, h => by
    rw [ancestorsFuel, ancestorsFuel]
    cases hq : p.up with
    | none => rfl
    | some q =>
      have := up_length hq
      simp only [ancestorsFuel_succ (p := q) (show q.sub.length ≤ fuel by omega)]

theorem ancestorsFuel_of_le {p : Path} {fuel : ℕ} (h : p.sub.length ≤ fuel) :
    ancestorsFuel fuel p = p.ancestors := by
  induction fuel, h using Nat.le_induction with
  | base => rfl
  | succ fuel h ih => rw [ancestorsFuel_succ h, ih]

theorem ancestors_of_up_none {p : Path} (h : p.up = none) : p.ancestors = [] := by
  rw [← ancestorsFuel_of_le (Nat.le_succ _)]
  simp [ancestorsFuel, h]

theorem ancestors_of_up_some {p q : Path} (h : p.up = some q) :
    p.ancestors = q :: q.ancestors := by
  have := up_length h
  rw [← ancestorsFuel_of_le (Nat.le_succ _)]
  simp only [ancestorsFuel, h]
  rw [ancestorsFuel_of_le (by omega)]

/-- Every directory of the walk is strictly shorter than the path it starts
from, and under the same root. -/
theorem mem_ancestors {p d : Path} (h : d ∈ p.ancestors) :
    d.sub.length < p.sub.length ∧ d.root = p.root := by
  generalize hn : p.sub.length = n
  induction n using Nat.strong_induction_on generalizing p with
  | _ n ih =>
    cases hq : p.up with
    | none => rw [ancestors_of_up_none hq] at h; cases h
    | some q =>
      have hlt := up_length hq
      have hroot : q.root = p.root := by
        obtain ⟨rfl, -, -⟩ := up_eq_some hq
        exact parent_root p
      rw [ancestors_of_up_some hq] at h
      rcases List.mem_cons.mp h with rfl | h
      · exact ⟨by omega, hroot⟩
      · obtain ⟨hl, hr⟩ := ih q.sub.length (by omega) h rfl
        exact ⟨by omega, hr.trans hroot⟩

theorem self_not_mem_ancestors (p : Path) : p ∉ p.ancestors :=
  fun h => absurd (mem_ancestors h).1 (lt_irrefl _)

end Path
end Spn
