import Mathlib

/-! # Steps that can fail

When a step after another, or a value made of a step's, is a result.
-/
namespace Spn.Lib.Except

variable {ε α β : Type} {x : Except ε α} {b : β}

theorem bind_ok {f : α → Except ε β} : (x >>= f) = .ok b ↔ ∃ a, x = .ok a ∧ f a = .ok b := by
  cases x with
  | error e =>
    constructor
    · intro h
      cases h
    · rintro ⟨a, ha, -⟩
      cases ha
  | ok a =>
    constructor
    · exact fun h => ⟨a, rfl, h⟩
    · rintro ⟨a', ha, hb⟩
      cases ha
      exact hb

theorem map_ok {f : α → β} : x.map f = .ok b ↔ ∃ a, x = .ok a ∧ f a = b := by
  cases x with
  | error e =>
    constructor
    · intro h
      cases h
    · rintro ⟨a, ha, -⟩
      cases ha
  | ok a =>
    constructor
    · exact fun h => ⟨a, rfl, Except.ok.inj h⟩
    · rintro ⟨a', ha, hb⟩
      cases ha
      exact congrArg Except.ok hb

end Spn.Lib.Except
