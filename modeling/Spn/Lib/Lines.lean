import Mathlib

/-! # Texts of lines

A text is split at a separator; a separator at the end starts no line of its own. A text
that ends with the separator can be appended to: the lines of the two are put together.
-/
namespace Spn.Lib

section

variable {α : Type*} [DecidableEq α]

/-- The lines of a text. -/
def lines (sep : α) : List α → List (List α)
  | [] => []
  | a :: rest =>
    if a = sep then [] :: lines sep rest
    else
      match lines sep rest with
      | [] => [[a]]
      | line :: more => (a :: line) :: more

/-- The last line, if there is one, has its separator. -/
def Terminated (sep : α) (text : List α) : Prop := text = [] ∨ ∃ init, text = init ++ [sep]

variable {sep : α}

omit [DecidableEq α] in
theorem Terminated.tail {a : α} {rest : List α} (h : Terminated sep (a :: rest)) :
    Terminated sep rest := by
  rcases h with h | ⟨init, h⟩
  · cases h
  · cases init with
    | nil =>
      cases h
      exact .inl rfl
    | cons b init =>
      cases h
      exact .inr ⟨init, rfl⟩

omit [DecidableEq α] in
theorem terminated_append (text : List α) : Terminated sep (text ++ [sep]) := .inr ⟨text, rfl⟩

theorem lines_ne_nil {text : List α} (h : text ≠ []) : lines sep text ≠ [] := by
  cases text with
  | nil => exact absurd rfl h
  | cons a rest =>
    rw [lines]
    split
    · exact List.cons_ne_nil _ _
    · split <;> exact List.cons_ne_nil _ _

/-- What is appended to a terminated text starts on a line of its own. -/
theorem lines_append {text : List α} (h : Terminated sep text) (more : List α) :
    lines sep (text ++ more) = lines sep text ++ lines sep more := by
  induction text with
  | nil => rfl
  | cons a rest ih =>
    rw [List.cons_append, lines, ih h.tail, lines]
    by_cases ha : a = sep
    · rw [if_pos ha, if_pos ha, List.cons_append]
    · rw [if_neg ha, if_neg ha]
      have hrest : rest ≠ [] := by
        rintro rfl
        rcases h with h | ⟨init, h⟩
        · cases h
        · cases init with
          | nil =>
            cases h
            exact ha rfl
          | cons b init => simp at h
      cases hlines : lines sep rest with
      | nil => exact absurd hlines (lines_ne_nil hrest)
      | cons line others => rfl

/-- What stands after the last separator. -/
def unfinished (sep : α) (text : List α) : List α := text.rtakeWhile (· ≠ sep)

/-- A text is one that is terminated and its unfinished line. -/
theorem exists_unfinished (sep : α) (text : List α) :
    ∃ init, text = init ++ unfinished sep text ∧ Terminated sep init ∧
      sep ∉ unfinished sep text := by
  refine ⟨text.rdropWhile (· ≠ sep), (List.rdropWhile_append_rtakeWhile ..).symm, ?_, fun h => ?_⟩
  · by_cases hnil : text.rdropWhile (· ≠ sep) = []
    · exact .inl hnil
    · have hlast := List.rdropWhile_last_not (· ≠ sep) text hnil
      refine .inr ⟨(text.rdropWhile (· ≠ sep)).dropLast, ?_⟩
      have heq : (text.rdropWhile (· ≠ sep)).getLast hnil = sep := by simpa using hlast
      have happend := List.dropLast_append_getLast hnil
      rw [heq] at happend
      exact happend.symm
  · simpa using List.mem_rtakeWhile_imp h

/-- An unfinished line is a line, if there is anything on it. -/
theorem lines_of_not_mem {line : List α} (h : sep ∉ line) (hne : line ≠ []) :
    lines sep line = [line] := by
  induction line with
  | nil => exact absurd rfl hne
  | cons a rest ih =>
    have ha : a ≠ sep := fun heq => h (heq ▸ List.mem_cons_self)
    have hrest : sep ∉ rest := fun hmem => h (List.mem_cons_of_mem _ hmem)
    rw [lines, if_neg ha]
    cases rest with
    | nil => rfl
    | cons b rest => rw [ih hrest (List.cons_ne_nil _ _)]

/-- A line with its separator. -/
theorem lines_line {line : List α} (h : sep ∉ line) : lines sep (line ++ [sep]) = [line] := by
  induction line with
  | nil => simp [lines]
  | cons a rest ih =>
    have ha : a ≠ sep := fun heq => h (heq ▸ List.mem_cons_self)
    have hrest : sep ∉ rest := fun hmem => h (List.mem_cons_of_mem _ hmem)
    rw [List.cons_append, lines, if_neg ha, ih hrest]

end

/-- An entry that reads as something is there once, if what is read is all different. -/
theorem count_eq_one_of_nodup {α β : Type*} [BEq α] [LawfulBEq α] {f : α → Option β} {l : List α}
    {a : α} {b : β}
    (hnodup : (l.filterMap f).Nodup) (ha : f a = some b) (hmem : a ∈ l) : l.count a = 1 := by
  induction l with
  | nil => cases hmem
  | cons c rest ih =>
    by_cases hc : c = a
    · subst hc
      rw [List.filterMap_cons, ha] at hnodup
      have hrest : c ∉ rest := by
        intro hin
        exact (List.nodup_cons.1 hnodup).1 (List.mem_filterMap.2 ⟨c, hin, ha⟩)
      rw [List.count_cons_self, List.count_eq_zero_of_not_mem hrest]
    · have hin : a ∈ rest := (List.mem_cons.1 hmem).resolve_left (Ne.symm hc)
      have hrest : (rest.filterMap f).Nodup := by
        rw [List.filterMap_cons] at hnodup
        cases hfc : f c with
        | none => rwa [hfc] at hnodup
        | some d =>
          rw [hfc] at hnodup
          exact (List.nodup_cons.1 hnodup).2
      rw [List.count_cons_of_ne hc, ih hrest hin]

end Spn.Lib
