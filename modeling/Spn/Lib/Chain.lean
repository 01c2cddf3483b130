import Mathlib

/-! # Chains

A partial function followed from a start until it is undefined. Where all it leads to is in a
list, it ends within as many steps as the list is long, or never.
-/
namespace Spn.Lib.Chain

variable {K : Type}

/-- Following `next` from `a` ends at `c` after `n` steps. -/
inductive Ends (next : K → Option K) : ℕ → K → K → Prop
  | here {a : K} (h : next a = none) : Ends next 0 a a
  | step {n : ℕ} {a b c : K} (h : next a = some b) (hrest : Ends next n b c) :
      Ends next (n + 1) a c

variable {next next' : K → Option K} {n m : ℕ} {a b c d : K}

theorem Ends.unique (h : Ends next n a c) (h' : Ends next m a d) : n = m ∧ c = d := by
  induction h generalizing m with
  | here hnone =>
    cases h' with
    | here _ => exact ⟨rfl, rfl⟩
    | step hsome _ => exact absurd (hnone.symm.trans hsome) (by simp)
  | step hsome _ ih =>
    cases h' with
    | here hnone => exact absurd (hnone.symm.trans hsome) (by simp)
    | step hsome' hrest =>
      obtain rfl := Option.some.inj (hsome.symm.trans hsome')
      obtain ⟨hn, hc⟩ := ih hrest
      exact ⟨congrArg (· + 1) hn, hc⟩

/-- On the way each smaller number of steps is left somewhere. -/
theorem Ends.left {keys : List K} (hkeys : ∀ a b, next a = some b → b ∈ keys)
    (h : Ends next n a c) : ∀ k < n, ∃ b ∈ keys, Ends next k b c := by
  induction h with
  | here _ =>
    intro k hk
    exact absurd hk (Nat.not_lt_zero k)
  | @step n a b c hsome hrest ih =>
    intro k hk
    obtain rfl | hlt := Nat.eq_or_lt_of_le (Nat.le_of_lt_succ hk)
    · exact ⟨b, hkeys a b hsome, hrest⟩
    · exact ih k hlt

/-- The steps are no more than there is to lead to: no key is met twice. -/
theorem Ends.length_le (keys : List K) (hkeys : ∀ a b, next a = some b → b ∈ keys)
    (h : Ends next n a c) : n ≤ keys.length := by
  classical
  have hne : Nonempty K := ⟨a⟩
  choose! place hleft using h.left hkeys
  have hinj : Set.InjOn place (Finset.range n) := by
    intro i hi j hj heq
    have hi' := (hleft i (Finset.mem_range.1 hi)).2
    have hj' := (hleft j (Finset.mem_range.1 hj)).2
    rw [heq] at hi'
    exact (hi'.unique hj').1
  have hsub : (Finset.range n).image place ⊆ keys.toFinset := by
    intro b hb
    obtain ⟨i, hi, rfl⟩ := Finset.mem_image.1 hb
    exact List.mem_toFinset.2 (hleft i (Finset.mem_range.1 hi)).1
  have hcard := Finset.card_le_card hsub
  rw [Finset.card_image_of_injOn hinj, Finset.card_range] at hcard
  exact hcard.trans keys.toFinset_card_le

/-- A function that goes on where the other does, up to the end, ends there as well. -/
theorem Ends.mono (h : Ends next n a c) (hnext : ∀ a b, next a = some b → next' a = some b)
    (hend : next' c = none) : Ends next' n a c := by
  induction h with
  | here _ => exact .here hend
  | step hsome _ ih => exact .step (hnext _ _ hsome) (ih hend)

/-- Following `next` from `a` comes by `b` after `n` steps. -/
inductive Leads (next : K → Option K) : ℕ → K → K → Prop
  | here (a : K) : Leads next 0 a a
  | step {n : ℕ} {a b c : K} (h : next a = some b) (hrest : Leads next n b c) :
      Leads next (n + 1) a c

theorem Leads.append (h : Leads next n a b) (hnext : next b = some c) :
    Leads next (n + 1) a c := by
  induction h with
  | here _ => exact .step hnext (.here c)
  | step hsome _ ih => exact .step hsome (ih hnext)

end Spn.Lib.Chain
