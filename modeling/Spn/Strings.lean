import Spn.Lib.Decimal
import Spn.Paths

/-! # Strings

The string functions that several parts of the source use, on strings of bytes.
-/
namespace Spn

/-- `sp_str_cleave_c8`: what stands before and after the first such byte. -/
def cleave (s : Str) (c : UInt8) : Str × Str :=
  (s.takeWhile (· ≠ c), (s.dropWhile (· ≠ c)).drop 1)

/-- `sp_str_find_c8`. -/
def findC8 (s : Str) (c : UInt8) : Option ℕ := s.findIdx? (· = c)

/-- `sp_str_find`. -/
def find (needle : Str) : Str → Option ℕ
  | [] => if needle = [] then some 0 else none
  | c :: s => if needle <+: c :: s then some 0 else (find needle s).map (· + 1)

/-- `sp_str_strip_left`. -/
def stripLeft (s strip : Str) : Str := if strip <+: s then s.drop strip.length else s

/-- A byte of `sp_str_to_lower`. -/
def lowerC8 (c : UInt8) : UInt8 := if 0x41 ≤ c ∧ c ≤ 0x5a then c + 0x20 else c

/-- `sp_str_to_lower`. -/
def toLower (s : Str) : Str := s.map lowerC8

variable {s t : Str} {c : UInt8}

theorem cleave_of_not_mem (h : c ∉ s) : cleave s c = (s, []) := by
  have hne : ∀ x ∈ s, decide (x ≠ c) = true := fun x hx => by
    simpa using fun heq : x = c => h (heq ▸ hx)
  rw [cleave, List.takeWhile_eq_self_iff.2 hne, List.dropWhile_eq_nil_iff.2 hne]
  rfl

theorem cleave_append (h : c ∉ s) (t : Str) : cleave (s ++ c :: t) c = (s, t) := by
  have hne : ∀ x ∈ s, decide (x ≠ c) = true := fun x hx => by
    simpa using fun heq : x = c => h (heq ▸ hx)
  rw [cleave, List.takeWhile_append_of_pos hne, List.dropWhile_append_of_pos hne]
  simp

/-- A string without the byte is all before it, and another one is cut at it. -/
theorem cleave_cases (s : Str) (c : UInt8) :
    c ∉ s ∧ cleave s c = (s, []) ∨ ∃ a b, c ∉ a ∧ s = a ++ c :: b ∧ cleave s c = (a, b) := by
  by_cases h : c ∈ s
  · obtain ⟨a, b, rfl, ha⟩ := List.eq_append_cons_of_mem h
    exact .inr ⟨a, b, ha, rfl, cleave_append ha b⟩
  · exact .inl ⟨h, cleave_of_not_mem h⟩

theorem findC8_of_not_mem (h : c ∉ s) : findC8 s c = none := by
  rw [findC8, List.findIdx?_eq_none_iff]
  exact fun x hx => by simpa using fun heq : x = c => h (heq ▸ hx)

theorem findC8_append (h : c ∉ s) (t : Str) : findC8 (s ++ c :: t) c = some s.length := by
  induction s with
  | nil => simp [findC8, List.findIdx?_cons]
  | cons a s ih =>
    simp only [List.mem_cons, not_or] at h
    have hrest := ih h.2
    simp only [findC8] at hrest
    simp [findC8, List.findIdx?_cons, hrest, Ne.symm h.1]

theorem findC8_lt {i : ℕ} (h : findC8 s c = some i) (hi : i < t.length) (hs : t <+: s) :
    c ∈ t := by
  obtain ⟨rest, rfl⟩ := hs
  by_contra hno
  rw [findC8, List.findIdx?_append] at h
  have hnone : t.findIdx? (· = c) = none := findC8_of_not_mem hno
  rw [hnone] at h
  obtain ⟨j, -, rfl⟩ : ∃ j, rest.findIdx? (· = c) = some j ∧ j + t.length = i := by simpa using h
  omega

/-- A needle is found where its first byte is. -/
theorem find_append {needle : Str} (h : c ∉ s) (t : Str) :
    find (c :: needle) (s ++ (c :: needle ++ t)) = some s.length := by
  induction s with
  | nil =>
    rw [List.nil_append, List.cons_append, find, if_pos ⟨t, rfl⟩]
    rfl
  | cons a s ih =>
    simp only [List.mem_cons, not_or] at h
    have hno : ¬c :: needle <+: a :: (s ++ (c :: needle ++ t)) := fun hpre =>
      h.1 (List.cons_prefix_cons.1 hpre).1
    rw [List.cons_append, find, if_neg hno, ih h.2]
    rfl

theorem eq_append_of_find {needle : Str} {i : ℕ} (h : find needle s = some i) :
    s = s.take i ++ (needle ++ s.drop (i + needle.length)) := by
  induction s generalizing i with
  | nil =>
    rw [find] at h
    split at h
    · rename_i hnil
      simp [hnil]
    · cases h
  | cons a s ih =>
    rw [find] at h
    split at h
    · rename_i hpre
      obtain rfl := Option.some.inj h
      obtain ⟨rest, hrest⟩ := hpre
      rw [← hrest]
      simp
    · obtain ⟨j, hj, rfl⟩ := Option.map_eq_some_iff.1 h
      have htail := ih hj
      rw [Nat.add_right_comm, List.take_succ_cons, List.drop_succ_cons, List.cons_append, ← htail]

theorem find_eq_none {needle : Str} (h : find needle s = none) : ¬needle <:+: s := by
  induction s with
  | nil =>
    intro hin
    rw [find, if_pos (List.infix_nil.1 hin)] at h
    cases h
  | cons a s ih =>
    rw [find] at h
    split at h
    · cases h
    · rename_i hno
      intro hin
      rcases List.infix_cons_iff.1 hin with hpre | hin
      · exact hno hpre
      · exact ih (Option.map_eq_none_iff.1 h) hin

theorem find_of_not_infix {needle : Str} (h : ¬needle <:+: s) : find needle s = none := by
  cases hfind : find needle s with
  | none => rfl
  | some i => exact absurd ⟨_, _, (List.append_assoc _ _ _).trans (eq_append_of_find hfind).symm⟩ h

@[simp] theorem lowerC8_lowerC8 (c : UInt8) : lowerC8 (lowerC8 c) = lowerC8 c :=
  Lib.forall_byte (P := fun c => lowerC8 (lowerC8 c) = lowerC8 c) (by decide +kernel) c

@[simp] theorem toLower_toLower (s : Str) : toLower (toLower s) = toLower s := by
  simp [toLower]

/-- A byte that no letter becomes. -/
def Caseless (c : UInt8) : Prop := ∀ x, lowerC8 x = c ↔ x = c

theorem Caseless.mem_toLower (h : Caseless c) : c ∈ toLower s ↔ c ∈ s := by
  simp [toLower, h _]

end Spn
