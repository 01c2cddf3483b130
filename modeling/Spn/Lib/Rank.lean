import Mathlib

/-! # Runs that end

Steps that lower a rank, and slips that raise it by no more than a bound. A run takes no more steps
than its slips and the rank at its start allow for, and without slips it comes to a state that can
take no step.
-/
namespace Spn.Lib.Rank

variable {S : Type} {Step Slip : S → S → Prop} {rank : S → ℕ} {Inv : S → Prop} {bound : ℕ}
  {s t : S} {steps slips : ℕ}

/-- A run, with how many steps and how many slips it takes. -/
inductive Run (Step Slip : S → S → Prop) (s : S) : ℕ → ℕ → S → Prop
  | start : Run Step Slip s 0 0 s
  | step {steps slips : ℕ} {t u : S} (h : Run Step Slip s steps slips t) (hstep : Step t u) :
      Run Step Slip s (steps + 1) slips u
  | slip {steps slips : ℕ} {t u : S} (h : Run Step Slip s steps slips t) (hslip : Slip t u) :
      Run Step Slip s steps (slips + 1) u

/-- What steps and slips do to the rank, in states where the invariant holds. -/
structure Ranked (Step Slip : S → S → Prop) (Inv : S → Prop) (rank : S → ℕ) (bound : ℕ) : Prop where
  step : ∀ s t, Inv s → Step s t → Inv t ∧ rank t < rank s
  slip : ∀ s t, Inv s → Slip s t → Inv t ∧ rank t ≤ rank s + bound

theorem Run.bounded (hranked : Ranked Step Slip Inv rank bound) (hs : Inv s)
    (h : Run Step Slip s steps slips t) : Inv t ∧ steps + rank t ≤ rank s + bound * slips := by
  induction h with
  | start => exact ⟨hs, by omega⟩
  | step _ hstep ih =>
    obtain ⟨hinv, hlt⟩ := hranked.step _ _ ih.1 hstep
    exact ⟨hinv, by omega⟩
  | slip _ hslip ih =>
    obtain ⟨hinv, hle⟩ := hranked.slip _ _ ih.1 hslip
    rw [Nat.mul_succ]
    exact ⟨hinv, by omega⟩

/-- A run that is not at its end goes on to one. -/
theorem Run.ends (hranked : Ranked Step Slip Inv rank bound) (hs : Inv s)
    (h : Run Step Slip s steps slips t) :
    ∃ more u, Run Step Slip s (steps + more) slips u ∧ ∀ v, ¬ Step u v := by
  obtain ⟨ht, -⟩ := h.bounded hranked hs
  induction hn : rank t using Nat.strong_induction_on generalizing t steps with
  | _ n ih =>
    subst hn
    by_cases hend : ∃ u, Step t u
    · obtain ⟨u, hstep⟩ := hend
      obtain ⟨hu, hlt⟩ := hranked.step t u ht hstep
      obtain ⟨more, v, hrun, hv⟩ := ih (rank u) hlt (h.step hstep) hu rfl
      exact ⟨more + 1, v, by rwa [Nat.add_comm more, ← Nat.add_assoc], hv⟩
    · exact ⟨0, t, h, fun v hv => hend ⟨v, hv⟩⟩

end Spn.Lib.Rank
