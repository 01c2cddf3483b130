import Mathlib

/-! # Terminated texts

Texts that stand one after another, each with a terminator behind it.
-/
namespace Spn.Lib

variable {β : Type} {z : β} {t : List β} {texts : List (List β)}

/-- The texts, each with the terminator behind it. -/
def terminated (z : β) (texts : List (List β)) : List β := texts.flatMap (· ++ [z])

@[simp] theorem terminated_nil : terminated z [] = [] := rfl

theorem terminated_cons : terminated z (t :: texts) = t ++ z :: terminated z texts := by
  rw [terminated, List.flatMap_cons, List.append_assoc]
  rfl

variable [DecidableEq β]

/-- The texts between terminators that are not empty. -/
def between (z : β) (s : List β) : List (List β) := (s.splitOn z).filter (· ≠ [])

theorem splitOn_terminated (h : ∀ t ∈ texts, z ∉ t) (s : List β) :
    (terminated z texts ++ s).splitOn z = texts ++ s.splitOn z := by
  induction texts with
  | nil => rfl
  | cons t texts ih =>
    rw [terminated_cons, List.append_assoc, List.cons_append,
      List.splitOn_append_cons_self_of_not_mem (h t List.mem_cons_self),
      ih fun t ht => h t (List.mem_cons_of_mem _ ht)]
    rfl

/-- The texts of a split have no separator. -/
theorem not_mem_of_mem_splitOn {s : List β} (h : t ∈ s.splitOn z) : z ∉ t := by
  generalize hn : s.length = n
  induction n using Nat.strongRecOn generalizing s with
  | ind n ih =>
    by_cases hz : z ∈ s
    · obtain ⟨a, b, rfl, ha⟩ := List.eq_append_cons_of_mem hz
      rw [List.splitOn_append_cons_self_of_not_mem ha] at h
      rw [List.length_append, List.length_cons] at hn
      obtain rfl | h := List.mem_cons.1 h
      · exact ha
      · exact ih b.length (by omega) h rfl
    · rw [List.splitOn_eq_singleton hz, List.mem_singleton] at h
      rwa [h]

theorem between_append (h : ∀ t ∈ texts, z ∉ t) (s : List β) :
    between z (terminated z texts ++ s) = texts.filter (· ≠ []) ++ between z s := by
  rw [between, splitOn_terminated h, List.filter_append]
  rfl

@[simp] theorem between_nil : between z ([] : List β) = [] := rfl

theorem between_terminated (h : ∀ t ∈ texts, z ∉ t) :
    between z (terminated z texts) = texts.filter (· ≠ []) := by
  have happend := between_append h []
  rwa [List.append_nil, between_nil, List.append_nil] at happend

theorem between_replicate (n : ℕ) : between z (List.replicate n z) = [] := by
  have hpad : List.replicate n z = terminated z (List.replicate n []) := by
    simp [terminated, List.flatMap_replicate]
  rw [hpad, between_terminated fun t ht => by rw [List.eq_of_mem_replicate ht]; exact nofun]
  exact List.filter_eq_nil_iff.2 fun t ht => by simp [List.eq_of_mem_replicate ht]

theorem takeWhile_text (h : z ∉ t) (s : List β) : (t ++ z :: s).takeWhile (· ≠ z) = t := by
  have hne : ∀ x ∈ t, decide (x ≠ z) = true := fun x hx => by
    simpa using fun heq : x = z => h (heq ▸ hx)
  rw [List.takeWhile_append_of_pos hne]
  simp

end Spn.Lib
