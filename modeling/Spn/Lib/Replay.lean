import Mathlib

/-! # Replaying a list of events

A machine is a partial step function. A run of it is the list of events it
takes, replayed from an initial state; an event that is not enabled ends the
replay. The two rules every run argument below uses are the invariant rule and
the amortized rule: a potential that pays for each step bounds what a whole
run can cost.
-/
namespace Spn.Lib

variable {σ ε : Type*}

/-- The state after a list of events, or nothing when one is not enabled. -/
def replay (step : σ → ε → Option σ) : σ → List ε → Option σ
  | s, [] => some s
  | s, e :: es => (step s e).bind fun t => replay step t es

/-- A step under a guard was enabled, and its result is the one it names. -/
theorem of_guarded {p : Prop} [Decidable p] {s t : σ} (h : (if p then some s else none) = some t) :
    p ∧ s = t := by
  simpa using h

variable {step : σ → ε → Option σ}

@[simp] theorem replay_nil (s : σ) : replay step s [] = some s := rfl

theorem replay_cons {s u : σ} {e : ε} {es : List ε} :
    replay step s (e :: es) = some u ↔
      ∃ t, step s e = some t ∧ replay step t es = some u := by
  simp [replay, Option.bind_eq_some_iff]

/-- What every step by an event of some kind preserves, a run of such events
preserves. -/
theorem replay_invariant_of {I : σ → Prop} {P : ε → Prop}
    (hstep : ∀ {s e t}, P e → I s → step s e = some t → I t) {s t : σ} {es : List ε}
    (hP : ∀ e ∈ es, P e) (hs : I s) (h : replay step s es = some t) : I t := by
  induction es generalizing s with
  | nil => cases h; exact hs
  | cons e es ih =>
    obtain ⟨u, hu, hr⟩ := replay_cons.mp h
    exact ih (fun e he => hP e (List.mem_cons_of_mem _ he))
      (hstep (hP e List.mem_cons_self) hs hu) hr

/-- What every step preserves, every run preserves. -/
theorem replay_invariant {I : σ → Prop}
    (hstep : ∀ {s e t}, I s → step s e = some t → I t) {s t : σ} {es : List ε} (hs : I s)
    (h : replay step s es = some t) : I t :=
  replay_invariant_of (P := fun _ => True) (fun _ => hstep) (fun _ _ => trivial) hs h

/-- If every step pays its cost out of a potential and the credit it brings,
the potential at the start and all the credit pay for the whole run. -/
theorem replay_amortized {I : σ → Prop} (cost credit : ε → ℕ) (potential : σ → ℕ)
    (hstep : ∀ s e t, I s → step s e = some t →
      I t ∧ potential t + cost e ≤ potential s + credit e) {s t : σ} {es : List ε} (hs : I s)
    (h : replay step s es = some t) :
    potential t + (es.map cost).sum ≤ potential s + (es.map credit).sum := by
  induction es generalizing s with
  | nil => cases h; simp
  | cons e es ih =>
    obtain ⟨u, hu, hr⟩ := replay_cons.mp h
    obtain ⟨hI, hp⟩ := hstep s e u hs hu
    have rest := ih hI hr
    simp only [List.map_cons, List.sum_cons]
    omega

end Spn.Lib
