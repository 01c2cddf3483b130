import Mathlib

/-! # Waiting in a finite set closes a cycle

If every member of a nonempty finite set waits for a member of it, somebody
waits for himself. Read the other way: a relation without a cycle always has a
member that waits for nobody.
-/
namespace Spn.Lib

variable {α : Type*}

/-- A relation no member of which reaches itself. -/
def Acyclic (R : α → α → Prop) : Prop := ∀ a, ¬ Relation.TransGen R a a

/-- A relation whose every edge lowers a rank has no cycle. -/
theorem acyclic_of_rank {R : α → α → Prop} (rank : α → ℕ)
    (h : ∀ a b, R a b → rank b < rank a) : Acyclic R := by
  intro a ha
  have lower : ∀ b, Relation.TransGen R a b → rank b < rank a := by
    intro b hb
    induction hb with
    | single hab => exact h _ _ hab
    | tail _ hbc ih => exact (h _ _ hbc).trans ih
  exact absurd (lower a ha) (lt_irrefl _)

/-- In a nonempty finite set without a cycle somebody waits for no member. -/
theorem Acyclic.exists_sink {R : α → α → Prop} (hR : Acyclic R) {s : Finset α}
    (hs : s.Nonempty) : ∃ a ∈ s, ∀ b ∈ s, ¬ R a b := by
  by_contra hno
  push Not at hno
  let S : s → s → Prop := fun a b => R b.1 a.1
  have back : ∀ {a b : s}, Relation.TransGen S a b → Relation.TransGen R b.1 a.1 := by
    intro a b hab
    induction hab with
    | single h => exact .single h
    | tail _ h ih => exact .head h ih
  have : Finite s := s.finite_toSet
  have : Std.Irrefl (Relation.TransGen S) := ⟨fun a ha => hR a.1 (back ha)⟩
  have wf : WellFounded (Relation.TransGen S) := Finite.wellFounded_of_trans_of_irrefl _
  obtain ⟨a, ha⟩ := hs
  obtain ⟨m, -, hm⟩ := wf.has_min Set.univ ⟨⟨a, ha⟩, trivial⟩
  obtain ⟨b, hb, hRb⟩ := hno m.1 m.2
  exact hm ⟨b, hb⟩ trivial (.single hRb)

end Spn.Lib
