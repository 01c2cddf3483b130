import Mathlib

/-! # Increasing lists

Under a lawful comparison a list that increases is told by its members, and a list that is
sorted is told by them up to repetitions.
-/
namespace Spn.Lib

open Std

variable {α β : Type*} {cmp : α → α → Ordering} {l l' : List α}

/-- Each element comes before all that stand behind it. -/
def Increasing (cmp : α → α → Ordering) (l : List α) : Prop := l.Pairwise fun a b => cmp a b = .lt

/-- No element comes after one that stands behind it. -/
def Rising (cmp : α → α → Ordering) (l : List α) : Prop := l.Pairwise fun a b => cmp a b ≠ .gt

theorem transCmp_on [TransCmp cmp] (f : β → α) : TransCmp fun a b => cmp (f a) (f b) where
  eq_swap := OrientedCmp.eq_swap
  isLE_trans := TransCmp.isLE_trans

theorem Increasing.nodup [ReflCmp cmp] (h : Increasing cmp l) : l.Nodup := by
  refine h.imp fun {a b} hlt heq => ?_
  rw [heq, @ReflCmp.compare_self α cmp _ b] at hlt
  cases hlt

theorem Increasing.ext [TransCmp cmp] (h : Increasing cmp l) (h' : Increasing cmp l')
    (hmem : ∀ a, a ∈ l ↔ a ∈ l') : l = l' := by
  have hperm : l.Perm l' := (List.perm_ext_iff_of_nodup h.nodup h'.nodup).2 hmem
  refine hperm.eq_of_pairwise (fun a b _ _ hab hba => ?_) h h'
  rw [@OrientedCmp.eq_swap α cmp _ a b, hba] at hab
  cases hab

theorem rising_insertionSort [TransCmp cmp] (l : List α) :
    Rising cmp (l.insertionSort fun a b => cmp a b ≠ .gt) := by
  have htotal : Std.Total fun a b => cmp a b ≠ .gt := by
    refine ⟨fun a b => ?_⟩
    rw [@OrientedCmp.eq_swap α cmp _ b a]
    cases cmp a b <;> simp
  have htrans : IsTrans α fun a b => cmp a b ≠ .gt := by
    refine ⟨fun a b c hab hbc => ?_⟩
    exact Ordering.isLE_iff_ne_gt.1 (TransCmp.isLE_trans (Ordering.isLE_iff_ne_gt.2 hab)
      (Ordering.isLE_iff_ne_gt.2 hbc))
  exact List.pairwise_insertionSort _ l

end Spn.Lib
