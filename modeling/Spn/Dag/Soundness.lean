import Spn.Dag.Stall
import Spn.Dag.Files

/-! # What an action observed is what its outputs are recorded under

An attempt loads the epoch before it executes. When it is committed every
producer of its rows has finished, and one that finished after the epoch has
its `wrote` flag clear. A producer that finished before the epoch does not
write any more, and one whose flag is clear has not written, if the flag tells
the truth. So no write between the start of the execution and the commit
changes what a row sees.
-/
namespace Spn.Dag

open Spn.Lib Function

namespace Run

variable {g : Graph} {env : Env} {r s : Run} {k : ℕ} {W : Type}
variable {hash : List UInt8 → Digest}

/-! ## What only grows -/

/-- What a later state keeps of an earlier one. An action that finishes in
between gets an epoch from in between. -/
structure Later (r s : Run) : Prop where
  completed : r.completed ≤ s.completed
  done : ∀ p, r.done p = true → s.done p = true ∧ s.doneEpoch p = r.doneEpoch p
  fresh : ∀ p, r.done p = false → s.done p = true → r.completed < s.doneEpoch p
  err : r.err ≠ none → s.err ≠ none

theorem Later.of_eq (hc : s.completed = r.completed) (hd : s.done = r.done)
    (he : s.doneEpoch = r.doneEpoch) (herr : r.err ≠ none → s.err ≠ none) : Later r s where
  completed := hc.ge
  done p hp := ⟨by rwa [hd], by rw [he]⟩
  fresh p hp hs := by
    rw [hd, hp] at hs
    cases hs
  err := herr

theorem Later.refl (r : Run) : Later r r := .of_eq rfl rfl rfl id

theorem Later.trans {t : Run} (h₁ : Later r s) (h₂ : Later s t) : Later r t where
  completed := h₁.completed.trans h₂.completed
  done p hp := by
    obtain ⟨hs, he⟩ := h₁.done p hp
    obtain ⟨ht, he'⟩ := h₂.done p hs
    exact ⟨ht, he'.trans he⟩
  fresh p hp ht := by
    cases hs : s.done p with
    | true =>
      rw [(h₂.done p hs).2]
      exact h₁.fresh p hp hs
    | false => exact h₁.completed.trans_lt (h₂.fresh p hs ht)
  err he := h₂.err (h₁.err he)

/-- A state that differs in none of these fields may stand at the start. -/
theorem Later.after {t : Run} (h : Later t s) (hc : t.completed = r.completed)
    (hd : t.done = r.done) (he : t.doneEpoch = r.doneEpoch) (herr : t.err = r.err) : Later r s :=
  (Later.of_eq hc hd he fun hr => by rwa [herr]).trans h

/-- The writes for the output in the directory. -/
def linked : List (Event Write) :=
  [.write 1 ⟨1, .parent 0⟩, .write 1 ⟨1, .stage (some (.file []))⟩, .write 1 ⟨1, .link []⟩,
    .write 1 ⟨1, .stage none⟩]

end Run
end Spn.Dag
