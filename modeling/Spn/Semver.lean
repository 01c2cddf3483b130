import Mathlib

/-! # Versions and ranges

`semver/compare.c`. A version is three numbers, a range is two bounds that both
have to hold, whatever their operators are.
-/
namespace Spn

/-- `spn_semver_t`. -/
structure Version where
  major : ℕ
  minor : ℕ
  patch : ℕ
  deriving DecidableEq, Repr, Encodable

namespace Version

/-- `spn_semver_geq`. -/
def geq (lhs rhs : Version) : Bool :=
  if lhs.major ≠ rhs.major then lhs.major > rhs.major
  else if lhs.minor ≠ rhs.minor then lhs.minor > rhs.minor
  else lhs.patch ≥ rhs.patch

/-- `spn_semver_ge`: strictly newer. -/
def ge (lhs rhs : Version) : Bool :=
  if lhs.major ≠ rhs.major then lhs.major > rhs.major
  else if lhs.minor ≠ rhs.minor then lhs.minor > rhs.minor
  else lhs.patch > rhs.patch

/-- `spn_semver_leq`. -/
def leq (lhs rhs : Version) : Bool :=
  if lhs.major ≠ rhs.major then lhs.major < rhs.major
  else if lhs.minor ≠ rhs.minor then lhs.minor < rhs.minor
  else lhs.patch ≤ rhs.patch

/-- `spn_semver_le`: strictly older. -/
def le (lhs rhs : Version) : Bool :=
  if lhs.major ≠ rhs.major then lhs.major < rhs.major
  else if lhs.minor ≠ rhs.minor then lhs.minor < rhs.minor
  else lhs.patch < rhs.patch

/-- `spn_semver_cmp`. -/
def cmp (lhs rhs : Version) : Ordering :=
  if lhs = rhs then .eq else if lhs.leq rhs then .lt else .gt

/-- The three numbers are compared from the left. -/
theorem cmp_eq_compareLex :
    cmp = compareLex (compareOn major) (compareLex (compareOn minor) (compareOn patch)) := by
  funext ⟨a, b, c⟩ ⟨a', b', c'⟩
  simp only [cmp, leq, compareLex, compareOn, mk.injEq]
  rcases lt_trichotomy a a' with h | rfl | h
  · simp [h, h.ne, Nat.compare_eq_lt.2 h]
  · rcases lt_trichotomy b b' with h | rfl | h
    · simp [h, h.ne, Nat.compare_eq_lt.2 h]
    · rcases lt_trichotomy c c' with h | rfl | h
      · simp [h.ne, h.le, Nat.compare_eq_lt.2 h]
      · simp
      · simp [h.ne', h, Nat.compare_eq_gt.2 h]
    · simp [h.ne', h.not_gt, Nat.compare_eq_gt.2 h]
  · simp [h.ne', h.not_gt, Nat.compare_eq_gt.2 h]

instance : Ord Version := ⟨cmp⟩

theorem compare_eq : (compare : Version → Version → Ordering) =
    compareLex (compareOn major) (compareLex (compareOn minor) (compareOn patch)) :=
  cmp_eq_compareLex

instance : Std.TransOrd Version := by
  rw [Std.TransOrd, compare_eq]
  infer_instance

instance : Std.LawfulEqOrd Version where
  eq_of_compare {a b} h := by
    by_contra hne
    simp only [compare, cmp, if_neg hne] at h
    split at h <;> cases h

end Version

/-- `spn_semver_op_t`. -/
inductive Op
  | lt | leq | gt | geq | eq
  deriving DecidableEq, Repr

/-- The value of the enumerator. -/
def Op.toNat : Op → ℕ
  | .lt => 0 | .leq => 1 | .gt => 2 | .geq => 3 | .eq => 4

/-- `spn_semver_mod_t`: how a range was written. -/
inductive Mod
  | none | caret | tilde | wildcard | cmp
  deriving DecidableEq, Repr

/-- The value of the enumerator. -/
def Mod.toNat : Mod → ℕ
  | .none => 0 | .caret => 1 | .tilde => 2 | .wildcard => 3 | .cmp => 4

/-- `spn_semver_bound_t`. -/
structure Bound where
  version : Version
  op : Op
  deriving DecidableEq, Repr

/-- `spn_semver_range_t`. -/
structure Range where
  low : Bound
  high : Bound
  mod : Mod
  deriving DecidableEq, Repr

/-- `spn_semver_satisfies`. -/
def Version.satisfies (v bound : Version) : Op → Bool
  | .eq => v = bound
  | .lt => v.le bound
  | .leq => v.leq bound
  | .gt => v.ge bound
  | .geq => v.geq bound

/-- `spn_semver_in_range`. -/
def Version.inRange (v : Version) (r : Range) : Bool :=
  v.satisfies r.low.version r.low.op && v.satisfies r.high.version r.high.op

end Spn
