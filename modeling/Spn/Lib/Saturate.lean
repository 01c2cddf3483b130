import Mathlib

/-! # Loops that run until nothing changes

Rounds over a state, each of which says whether it changed anything. The loop ends when
a round that changes something loads the state more, and the load is bounded. The load
of a list of parts is the sum of theirs.
-/
namespace Spn.Lib

/-- Rounds until one changes nothing. -/
def saturate {α : Type*} (round : α → α × Bool) : ℕ → α → Option α
  | 0, _ => none
  | fuel + 1, a =>
    match round a with
    | (a, false) => some a
    | (a, true) => saturate round fuel a

section

variable {α : Type*} {round : α → α × Bool} {I : α → Prop} (load : α → ℕ) {bound : ℕ}

/-- The rounds that are left are no more than what the load has left. -/
theorem saturate_ne_none (hkeep : ∀ a, I a → I (round a).1)
    (hload : ∀ a, I a → (round a).2 = true → load a < load (round a).1)
    (hbound : ∀ a, I a → load a ≤ bound) {fuel : ℕ} {a : α} (ha : I a)
    (hfuel : bound - load a < fuel) : saturate round fuel a ≠ none := by
  induction fuel generalizing a with
  | zero => exact absurd hfuel (Nat.not_lt_zero _)
  | succ fuel ih =>
    have hkept := hkeep a ha
    have hmore := hload a ha
    rw [saturate]
    rcases hround : round a with ⟨a', changed⟩
    rw [hround] at hkept hmore
    cases changed with
    | false => exact Option.some_ne_none a'
    | true =>
      have hle := hbound a' hkept
      have hlt := hmore rfl
      simp only at hlt hle
      exact ih hkept (by omega)

end

section

variable {α β : Type*} {f : α → ℕ} {g : β → ℕ}

/-- Parts that are heavier, and perhaps more of them. -/
theorem sum_map_le {l : List α} {l' : List β}
    (h : ∀ (i : ℕ) (a : α), l[i]? = some a → ∃ b, l'[i]? = some b ∧ f a ≤ g b) :
    (l.map f).sum ≤ (l'.map g).sum := by
  induction l generalizing l' with
  | nil => exact Nat.zero_le _
  | cons a rest ih =>
    obtain ⟨b, hb, hle⟩ := h 0 a rfl
    cases l' with
    | nil => cases hb
    | cons b' rest' =>
      cases hb
      have hrest := ih fun i a' ha' => h (i + 1) a' ha'
      simp only [List.map_cons, List.sum_cons]
      omega

/-- One of them is strictly heavier. -/
theorem sum_map_lt {l : List α} {l' : List β}
    (h : ∀ (i : ℕ) (a : α), l[i]? = some a → ∃ b, l'[i]? = some b ∧ f a ≤ g b)
    {i : ℕ} {a : α} {b : β} (ha : l[i]? = some a) (hb : l'[i]? = some b) (hlt : f a < g b) :
    (l.map f).sum < (l'.map g).sum := by
  induction l generalizing l' i with
  | nil => cases ha
  | cons a₀ rest ih =>
    obtain ⟨b₀, hb₀, hle⟩ := h 0 a₀ rfl
    cases l' with
    | nil => cases hb₀
    | cons b' rest' =>
      cases hb₀
      have htail : ∀ (i : ℕ) (a : α), rest[i]? = some a → ∃ b, rest'[i]? = some b ∧ f a ≤ g b :=
        fun i a' ha' => h (i + 1) a' ha'
      simp only [List.map_cons, List.sum_cons]
      cases i with
      | zero =>
        cases ha
        cases hb
        have hrest := sum_map_le htail
        omega
      | succ i =>
        have hrest := ih htail ha hb
        omega

theorem sum_map_le_mul {l : List α} {c : ℕ} (h : ∀ a ∈ l, f a ≤ c) :
    (l.map f).sum ≤ l.length * c := by
  induction l with
  | nil => exact Nat.zero_le _
  | cons a rest ih =>
    have hrest := ih fun a' ha' => h a' (List.mem_cons_of_mem _ ha')
    have ha := h a List.mem_cons_self
    simp only [List.map_cons, List.sum_cons, List.length_cons, Nat.succ_mul]
    omega

end

end Spn.Lib
