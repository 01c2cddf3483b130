import Mathlib

/-! # Counters that release their owner at zero

The bookkeeping of a dependency scheduler: every owner has a counter of what it
still waits for, an event lowers the counters of a list of owners, and an owner
whose counter reaches zero is pushed on a stack. The owner holds one token
either way: it waits or it is on the stack, and a countdown moves tokens from
the first place to the second without losing one.
-/
namespace Spn.Lib

variable {α : Type*} [DecidableEq α]

/-- Lower one counter; push its owner when that brings it to zero. -/
def countDownOne (c : (α → ℕ) × List α) (k : α) : (α → ℕ) × List α :=
  if 0 < c.1 k then
    let left := Function.update c.1 k (c.1 k - 1)
    if left k = 0 then (left, k :: c.2) else (left, c.2)
  else c

/-- Lower the counter of every entry of a list in turn. -/
def countDown (waiting : α → ℕ) (stack : List α) (ks : List α) : (α → ℕ) × List α :=
  ks.foldl countDownOne (waiting, stack)

@[simp] theorem countDown_nil (waiting : α → ℕ) (stack : List α) :
    countDown waiting stack [] = (waiting, stack) := rfl

theorem countDown_cons (waiting : α → ℕ) (stack : List α) (k : α) (ks : List α) :
    countDown waiting stack (k :: ks) =
      countDown (countDownOne (waiting, stack) k).1 (countDownOne (waiting, stack) k).2 ks := rfl

theorem countDownOne_waiting (c : (α → ℕ) × List α) (k j : α) :
    (countDownOne c k).1 j = c.1 j - if k = j then 1 else 0 := by
  unfold countDownOne
  by_cases hkj : k = j
  · subst hkj
    by_cases h : 0 < c.1 k
    · simp only [h, if_true, Function.update_self]
      split <;> simp
    · simp only [h, if_false, if_true]; omega
  · have hjk : j ≠ k := fun h => hkj h.symm
    simp only [hkj, if_false, Nat.sub_zero]
    split
    · split <;> simp [Function.update_of_ne hjk]
    · rfl

/-- A countdown takes from each counter the number of times it is listed. -/
theorem countDown_waiting (j : α) :
    ∀ (ks : List α) (waiting : α → ℕ) (stack : List α),
      (countDown waiting stack ks).1 j = waiting j - ks.count j
  | [], waiting, stack => by simp
  | k :: ks, waiting, stack => by
    rw [countDown_cons, countDown_waiting j ks, countDownOne_waiting, List.count_cons]
    by_cases hkj : k = j
    · subst hkj; simp; omega
    · simp [hkj]

/-- Tokens held in the two places together. -/
def tokens (waiting : α → ℕ) (stack : List α) (j : α) : ℕ :=
  stack.count j + min 1 (waiting j)

theorem countDownOne_tokens (c : (α → ℕ) × List α) (k j : α) :
    tokens (countDownOne c k).1 (countDownOne c k).2 j = tokens c.1 c.2 j := by
  unfold countDownOne
  by_cases h : 0 < c.1 k
  · by_cases hkj : k = j
    · subst hkj
      simp only [h, if_true, Function.update_self]
      by_cases hz : c.1 k - 1 = 0
      · simp only [tokens, hz, if_true, Function.update_self, List.count_cons_self]
        omega
      · simp only [tokens, hz, if_false, Function.update_self]
        omega
    · have hjk : j ≠ k := fun h => hkj h.symm
      simp only [h, if_true, Function.update_self]
      split <;> simp [tokens, Function.update_of_ne hjk, hkj]
  · simp [h]

/-- A countdown loses no token and makes none. -/
theorem countDown_tokens (j : α) :
    ∀ (ks : List α) (waiting : α → ℕ) (stack : List α),
      tokens (countDown waiting stack ks).1 (countDown waiting stack ks).2 j = tokens waiting stack j
  | [], waiting, stack => rfl
  | k :: ks, waiting, stack => by
    rw [countDown_cons, countDown_tokens j ks]
    exact countDownOne_tokens (waiting, stack) k j

end Spn.Lib
