import Mathlib

/-! # Words

Numbers as words of so many bytes, with the low byte first or the high byte first.
-/
namespace Spn.Lib

/-- The word of so many bytes, low byte first. -/
def le : ℕ → ℕ → List UInt8
  | 0, _ => []
  | w + 1, n => UInt8.ofNat n :: le w (n / 256)

/-- The number that bytes stand for, low byte first. -/
def unle : List UInt8 → ℕ
  | [] => 0
  | b :: s => b.toNat + 256 * unle s

/-- The word of so many bytes, high byte first. -/
def be (w n : ℕ) : List UInt8 := (le w n).reverse

/-- The number that bytes stand for, high byte first. -/
def unbe (s : List UInt8) : ℕ := unle s.reverse

@[simp] theorem length_le (w n : ℕ) : (le w n).length = w := by
  induction w generalizing n with
  | zero => rfl
  | succ w ih => rw [le, List.length_cons, ih]

@[simp] theorem length_be (w n : ℕ) : (be w n).length = w := by
  rw [be, List.length_reverse, length_le]

theorem le_add (v w n : ℕ) : le (v + w) n = le v n ++ le w (n / 256 ^ v) := by
  induction v generalizing n with
  | zero => rw [Nat.zero_add, Nat.pow_zero, Nat.div_one, le, List.nil_append]
  | succ v ih =>
    rw [Nat.succ_add, le, ih, le, List.cons_append, Nat.div_div_eq_div_mul, Nat.pow_succ']

theorem unle_le {w n : ℕ} (h : n < 256 ^ w) : unle (le w n) = n := by
  induction w generalizing n with
  | zero =>
    rw [Nat.pow_zero] at h
    exact (Nat.lt_one_iff.1 h).symm
  | succ w ih =>
    have hrest : n / 256 < 256 ^ w := by
      rw [Nat.pow_succ'] at h
      exact Nat.div_lt_of_lt_mul h
    rw [le, unle, ih hrest, UInt8.toNat_ofNat']
    exact Nat.mod_add_div n 256

theorem unbe_be {w n : ℕ} (h : n < 256 ^ w) : unbe (be w n) = n := by
  rw [unbe, be, List.reverse_reverse, unle_le h]

end Spn.Lib
