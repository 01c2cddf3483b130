import Spn.Resolve.Types

/-! # The canonical order of requests

`sort_req_canonical`. The order of a manifest's lines must not steer the search,
so requests are sorted by everything the search reads of them.
-/
namespace Spn

/-- `spn_path_compare`. -/
def Path.cmp : Path → Path → Ordering :=
  compareLex (compareOn fun p => p.root.toNat) (compareOn Path.sub)

instance : Std.TransCmp Path.cmp := by
  unfold Path.cmp
  infer_instance

theorem Path.eq_of_cmp {a b : Path} (h : Path.cmp a b = .eq) : a = b := by
  simp only [Path.cmp, compareLex, Ordering.then_eq_eq, compareOn] at h
  exact Path.ext (PathRoot.toNat_injective (Std.LawfulEqOrd.eq_of_compare h.1))
    (Std.LawfulEqOrd.eq_of_compare h.2)

/-- The range part of the comparison. -/
def Range.cmp : Range → Range → Ordering :=
  compareLex (compareOn fun r => r.low.version) <|
  compareLex (compareOn fun r => r.low.op.toNat) <|
  compareLex (compareOn fun r => r.high.version) <|
  compareLex (compareOn fun r => r.high.op.toNat) (compareOn fun r => r.mod.toNat)

namespace Resolve

/-- The `switch` over the source both requests have. -/
def ReqSource.cmp : ReqSource → ReqSource → Ordering
  | .index a, .index b => a.cmp b
  | .file a, .file b => a.cmp b
  | a, b => compare a.toNat b.toNat

namespace Req

/-- `sort_req_canonical`. -/
def cmp : Req → Req → Ordering :=
  compareLex (compareOn qualified) <|
  compareLex (compareOn fun r => r.kind.toNat) <|
  compareLex (compareOn isPrivate) <|
  fun lhs rhs => ReqSource.cmp lhs.source rhs.source

/-- One request may stand before the other. -/
def le (a b : Req) : Prop := (cmp a b).isLE = true

instance : DecidableRel le := fun _ _ => inferInstanceAs (Decidable (_ = true))

/-- `sp_da_sort(.., sort_req_canonical)`. -/
def canonical (reqs : List Req) : List Req := reqs.insertionSort le

@[simp] theorem mem_canonical {reqs : List Req} {r : Req} : r ∈ canonical reqs ↔ r ∈ reqs :=
  List.mem_insertionSort le

theorem canonical_perm (reqs : List Req) : (canonical reqs).Perm reqs :=
  List.perm_insertionSort le reqs

end Req

end Resolve

end Spn
