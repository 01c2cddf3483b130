import Mathlib

/-! # Linear probing

A table of `n` cells, each free or holding an entry that has a home. A search goes from the
home round the table until it meets a free cell or an entry it looks for. The table is packed
when no free cell stands between an entry and its home, so that a search passes it.
-/
namespace Spn.Lib.Probing

variable {α : Type*} {n start cell : ℕ} {table : ℕ → Option α} {home : α → ℕ} {looked : α → Bool}

/-- The cell that is `k` cells behind `start`. -/
def behind (n start k : ℕ) : ℕ := (start + k) % n

/-- The search from a cell, cut after `fuel` cells. -/
def seek (n : ℕ) (table : ℕ → Option α) (looked : α → Bool) : ℕ → ℕ → Option ℕ
  | 0, _ => none
  | fuel + 1, cell =>
    match table cell with
    | none => some cell
    | some a => if looked a then some cell else seek n table looked fuel ((cell + 1) % n)

/-- A search ends in the cell. -/
def Stops (table : ℕ → Option α) (looked : α → Bool) (cell : ℕ) : Prop :=
  ∀ a, table cell = some a → looked a = true

/-- All cells from `start` up to the cell hold entries. -/
def Reached (n : ℕ) (table : ℕ → Option α) (start cell : ℕ) : Prop :=
  ∃ k < n, behind n start k = cell ∧ ∀ j < k, (table (behind n start j)).isSome

/-- Every entry is reached from its home. -/
def Packed (n : ℕ) (table : ℕ → Option α) (home : α → ℕ) : Prop :=
  ∀ cell < n, ∀ a, table cell = some a → Reached n table (home a) cell

theorem behind_lt (hn : 0 < n) (start k : ℕ) : behind n start k < n := Nat.mod_lt _ hn

theorem behind_zero (h : start < n) : behind n start 0 = start := Nat.mod_eq_of_lt h

theorem behind_succ (n start k : ℕ) : (behind n start k + 1) % n = behind n start (k + 1) := by
  rw [behind, behind, Nat.mod_add_mod, Nat.add_assoc]

/-- Going round comes to every cell. -/
theorem exists_behind (hstart : start < n) (hcell : cell < n) :
    ∃ k < n, behind n start k = cell := by
  by_cases hle : start ≤ cell
  · refine ⟨cell - start, by omega, ?_⟩
    rw [behind, Nat.add_sub_cancel' hle, Nat.mod_eq_of_lt hcell]
  · refine ⟨n + cell - start, by omega, ?_⟩
    rw [behind, show start + (n + cell - start) = cell + n by omega, Nat.add_mod_right,
      Nat.mod_eq_of_lt hcell]

theorem stops_of_free (h : table cell = none) : Stops table looked cell := fun a ha => by
  rw [h] at ha
  cases ha

theorem isSome_of_not_stops (h : ¬ Stops table looked cell) : (table cell).isSome := by
  cases hcell : table cell with
  | none => exact absurd (stops_of_free hcell) h
  | some a => rfl

theorem seek_of_stops (h : Stops table looked cell) (fuel : ℕ) :
    seek n table looked (fuel + 1) cell = some cell := by
  rw [seek]
  cases hcell : table cell with
  | none => rfl
  | some a => exact if_pos (h a hcell)

theorem seek_of_not_stops (h : ¬ Stops table looked cell) (fuel : ℕ) :
    seek n table looked (fuel + 1) cell = seek n table looked fuel ((cell + 1) % n) := by
  rw [seek]
  cases hcell : table cell with
  | none => exact absurd (stops_of_free hcell) h
  | some a =>
    refine if_neg fun ha => h fun b hb => ?_
    rw [hcell] at hb
    cases hb
    exact ha

/-- The search ends in the first cell it can end in. -/
theorem seek_first {k fuel : ℕ} (hstop : Stops table looked (behind n start k))
    (hpass : ∀ j < k, ¬ Stops table looked (behind n start j)) {i : ℕ} (hi : i ≤ k)
    (hfuel : k < i + fuel) :
    seek n table looked fuel (behind n start i) = some (behind n start k) := by
  induction fuel generalizing i with
  | zero => omega
  | succ fuel ih =>
    obtain hlt | rfl := hi.lt_or_eq
    · rw [seek_of_not_stops (hpass i hlt), behind_succ]
      exact ih hlt (by omega)
    · exact seek_of_stops hstop fuel

/-- With a cell to end in, the search ends within one round, and reaches the cell. -/
theorem seek_ends (hstart : start < n) (hcell : cell < n) (hstop : Stops table looked cell) :
    ∃ k < n, seek n table looked n start = some (behind n start k) ∧
      Stops table looked (behind n start k) ∧
      ∀ j < k, ¬ Stops table looked (behind n start j) := by
  classical
  obtain ⟨k, hk, rfl⟩ := exists_behind hstart hcell
  have hex : ∃ k, Stops table looked (behind n start k) := ⟨k, hstop⟩
  have hle : Nat.find hex ≤ k := Nat.find_min' hex hstop
  refine ⟨Nat.find hex, by omega, ?_, Nat.find_spec hex, fun j hj => Nat.find_min hex hj⟩
  have h := @seek_first α n start table looked _ n (Nat.find_spec hex)
    (fun j hj => Nat.find_min hex hj) 0 (Nat.zero_le _) (by omega)
  rwa [behind_zero hstart] at h

theorem reached_of_pass {k : ℕ} (hk : k < n)
    (hpass : ∀ j < k, ¬ Stops table looked (behind n start j)) :
    Reached n table start (behind n start k) :=
  ⟨k, hk, rfl, fun j hj => isSome_of_not_stops (hpass j hj)⟩

/-- A search in a packed table that ends in a free cell has passed all entries of its home. -/
theorem Packed.not_looked (h : Packed n table home) {k : ℕ}
    (hfree : table (behind n start k) = none)
    (hpass : ∀ j < k, ¬ Stops table looked (behind n start j)) (hcell : cell < n) {a : α}
    (ha : table cell = some a) (hhome : home a = start) : looked a = false := by
  obtain ⟨i, hi, hbehind, hfull⟩ := h cell hcell a ha
  rw [hhome] at hbehind hfull
  have hik : i < k := by
    by_contra hge
    obtain hlt | heq := (Nat.le_of_not_lt hge).lt_or_eq
    · have hsome := hfull k hlt
      rw [hfree] at hsome
      cases hsome
    · rw [heq, hbehind, ha] at hfree
      cases hfree
  by_contra hlooked
  refine hpass i hik fun b hb => ?_
  rw [hbehind, ha] at hb
  cases hb
  exact eq_true_of_ne_false hlooked

/-- An entry that is put where a search from its home ended leaves the table packed. -/
theorem Packed.update (h : Packed n table home) {a : α} (hreached : Reached n table (home a) cell) :
    Packed n (Function.update table cell (some a)) home := by
  have hmono : ∀ c, (table c).isSome → (Function.update table cell (some a) c).isSome := by
    intro c hc
    by_cases heq : c = cell
    · rw [heq, Function.update_self]
      rfl
    · rwa [Function.update_of_ne heq]
  have hgrown : ∀ {s c : ℕ}, Reached n table s c →
      Reached n (Function.update table cell (some a)) s c := by
    intro s c hr
    obtain ⟨k, hk, hbehind, hfull⟩ := hr
    exact ⟨k, hk, hbehind, fun j hj => hmono _ (hfull j hj)⟩
  intro c hc b hb
  by_cases heq : c = cell
  · rw [heq, Function.update_self] at hb
    cases hb
    rw [heq]
    exact hgrown hreached
  · rw [Function.update_of_ne heq] at hb
    exact hgrown (h c hc b hb)

theorem packed_free (n : ℕ) (home : α → ℕ) : Packed n (fun _ => none) home :=
  fun _ _ _ ha => by cases ha

end Spn.Lib.Probing
