import Spn.Lib.Sorted
import Spn.Dag.Observed

/-! # The canonical form of the rows

`obs_order` orders the rows by root, path, kind and filter, and says equal of the rows that
`obs_equal` takes for equal and of no others. So a set of rows stands in one order only,
whatever array it came in.
-/
namespace Spn.Dag

open Spn.Lib

theorem strCompare_eq : ∀ s t : Str, strCompare s t = List.compareLex compare s t
  | [], [] => rfl
  | [], _ :: _ => rfl
  | _ :: _, [] => rfl
  | a :: s, b :: t => by rw [strCompare, List.compareLex_cons_cons, strCompare_eq s t]

instance transCmp_strCompare : Std.TransCmp strCompare := by
  rw [show strCompare = List.compareLex compare from funext₂ strCompare_eq]
  infer_instance

theorem strCompare_eq_eq {s t : Str} : strCompare s t = .eq ↔ s = t := by
  rw [strCompare_eq, Std.LawfulEqCmp.compare_eq_iff_eq]

theorem ObsKind.toNat_injective : Function.Injective ObsKind.toNat := by
  intro a b h
  cases a <;> cases b <;> first | rfl | (simp [ObsKind.toNat] at h)

/-- The fields that are compared, in their order. -/
theorem obsOrder_eq : obsOrder =
    compareLex (compareOn fun o => o.path.root.toNat)
      (compareLex (fun a b => strCompare a.path.sub b.path.sub)
        (compareLex (compareOn fun o => o.kind.toNat)
          fun a b => strCompare a.filter b.filter)) := rfl

instance transCmp_obsOrder : Std.TransCmp obsOrder := by
  have hsub : Std.TransCmp fun a b : Obs => strCompare a.path.sub b.path.sub := transCmp_on _
  have hfilter : Std.TransCmp fun a b : Obs => strCompare a.filter b.filter := transCmp_on _
  rw [obsOrder_eq]
  infer_instance

/-- `obs_order` and `obs_equal` agree. -/
theorem obsOrder_eq_eq {a b : Obs} : obsOrder a b = .eq ↔ a = b := by
  rw [obsOrder_eq]
  simp only [compareLex_eq_eq, compareOn, Std.compare_eq_iff_eq, strCompare_eq_eq]
  constructor
  · intro h
    obtain ⟨hroot, hsub, hkind, hfilter⟩ := h
    have hpath : a.path = b.path := Path.ext (PathRoot.toNat_injective hroot) hsub
    cases a
    cases b
    cases hpath
    cases ObsKind.toNat_injective hkind
    cases hfilter
    rfl
  · intro h
    rw [h]
    exact ⟨rfl, rfl, rfl, rfl⟩

theorem strCompare_eq_lt : ∀ {s t : Str}, strCompare s t = .lt ↔ s < t
  | [], [] => by simp [strCompare]
  | [], _ :: _ => by simp [strCompare]
  | _ :: _, [] => by simp [strCompare]
  | a :: s, b :: t => by
    rw [strCompare, Ordering.then_eq_lt, Std.compare_eq_lt, Std.compare_eq_iff_eq, strCompare_eq_lt,
      List.cons_lt_cons_iff]

/-- By root, path, kind and filter. -/
def Obs.Before (a b : Obs) : Prop :=
  a.path.root.toNat < b.path.root.toNat ∨ a.path.root = b.path.root ∧
    (a.path.sub < b.path.sub ∨ a.path.sub = b.path.sub ∧
      (a.kind.toNat < b.kind.toNat ∨ a.kind = b.kind ∧ a.filter < b.filter))

theorem obsOrder_eq_lt {a b : Obs} : obsOrder a b = .lt ↔ a.Before b := by
  unfold obsOrder Obs.Before
  simp only [Ordering.then_eq_lt, Std.compare_eq_lt, Std.compare_eq_iff_eq, strCompare_eq_lt,
    strCompare_eq_eq, PathRoot.toNat_injective.eq_iff, ObsKind.toNat_injective.eq_iff]

theorem increasing_dropRepeats :
    ∀ {rows : List Obs}, Rising obsOrder rows → Increasing obsOrder (dropRepeats rows)
  | [], _ => List.Pairwise.nil
  | [a], _ => List.pairwise_singleton _ a
  | a :: b :: rest, h => by
    obtain ⟨ha, hrest⟩ := List.pairwise_cons.1 h
    unfold dropRepeats
    split
    · exact increasing_dropRepeats hrest
    · rename_i hab
      refine List.pairwise_cons.2 ⟨fun o ho => ?_, increasing_dropRepeats hrest⟩
      have hlt : obsOrder a b = .lt := by
        cases heq : obsOrder a b with
        | lt => rfl
        | eq => exact absurd (obsOrder_eq_eq.1 heq) hab
        | gt => exact absurd heq (ha b List.mem_cons_self)
      obtain rfl | ho := List.mem_cons.1 (mem_dropRepeats.1 ho)
      · exact hlt
      · have hle := (List.pairwise_cons.1 hrest).1 o ho
        exact Std.TransCmp.lt_of_lt_of_isLE hlt (Ordering.isLE_iff_ne_gt.2 hle)

theorem increasing_canonicalize (rows : List Obs) : Increasing obsOrder (canonicalize rows) :=
  increasing_dropRepeats (rising_insertionSort rows)

/-- The rows come out increasing and are the rows that went in, whichever way they were sorted;
rows of the same set come out equal, and what came out stays as it is. -/
theorem canonicalize_canonical :
    (∀ rows, (canonicalize rows).Pairwise (fun a b => obsOrder a b = .lt) ∧
      ∀ o, o ∈ canonicalize rows ↔ o ∈ rows) ∧
    (∀ rows sorted : List Obs, sorted.Perm rows →
      sorted.Pairwise (fun a b => obsOrder a b ≠ .gt) → dropRepeats sorted = canonicalize rows) ∧
    (∀ rows rows' : List Obs, (∀ o, o ∈ rows ↔ o ∈ rows') →
      canonicalize rows = canonicalize rows') ∧
    (∀ rows, canonicalize (canonicalize rows) = canonicalize rows) ∧
    ∀ a b : Obs, obsOrder a b = .lt ↔ a.Before b := by
  have hsame : ∀ rows rows' : List Obs, (∀ o, o ∈ rows ↔ o ∈ rows') →
      canonicalize rows = canonicalize rows' := by
    intro rows rows' hmem
    refine (increasing_canonicalize rows).ext (increasing_canonicalize rows') fun o => ?_
    rw [mem_canonicalize, mem_canonicalize, hmem]
  refine ⟨fun rows => ⟨increasing_canonicalize rows, fun o => mem_canonicalize⟩, ?_, hsame,
    fun rows => hsame _ _ fun o => mem_canonicalize, fun a b => obsOrder_eq_lt⟩
  intro rows sorted hperm hsorted
  refine (increasing_dropRepeats hsorted).ext (increasing_canonicalize rows) fun o => ?_
  rw [mem_dropRepeats, mem_canonicalize, hperm.mem_iff]

end Spn.Dag
