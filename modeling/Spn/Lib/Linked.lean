import Mathlib

/-! # Linked lists

The nodes that are reached from a head through a field of each node. A write to the field of
a node that is not reached changes nothing.
-/
namespace Spn.Lib

variable {N : Type} [DecidableEq N] {next : N → Option N} {head : Option N} {n : N} {ns : List N}

/-- From the head these nodes are reached, in this order. -/
def Linked (next : N → Option N) : Option N → List N → Prop
  | head, [] => head = none
  | head, n :: ns => head = some n ∧ Linked next (next n) ns

omit [DecidableEq N] in
theorem linked_none : Linked next none ns ↔ ns = [] := by
  cases ns <;> simp [Linked]

omit [DecidableEq N] in
theorem linked_some :
    Linked next (some n) ns ↔ ∃ rest, ns = n :: rest ∧ Linked next (next n) rest := by
  cases ns with
  | nil => simp [Linked]
  | cons m ns =>
    simp only [Linked, Option.some.injEq, List.cons.injEq]
    constructor
    · rintro ⟨rfl, h⟩
      exact ⟨ns, ⟨rfl, rfl⟩, h⟩
    · rintro ⟨rest, ⟨rfl, rfl⟩, h⟩
      exact ⟨rfl, h⟩

omit [DecidableEq N] in
/-- A list is empty if its head is. -/
theorem Linked.eq_nil_iff (h : Linked next head ns) : ns = [] ↔ head = none := by
  cases head with
  | none => exact iff_of_true (linked_none.1 h) rfl
  | some n =>
    obtain ⟨rest, rfl, -⟩ := linked_some.1 h
    simp

theorem Linked.update (h : Linked next head ns) (hn : n ∉ ns) (value : Option N) :
    Linked (Function.update next n value) head ns := by
  induction ns generalizing head with
  | nil => exact h
  | cons m ns ih =>
    obtain ⟨rfl, hrest⟩ := h
    simp only [List.mem_cons, not_or] at hn
    refine ⟨rfl, ?_⟩
    rw [Function.update_of_ne (Ne.symm hn.1)]
    exact ih hrest hn.2

end Spn.Lib
