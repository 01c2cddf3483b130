import Spn.Lib.Glob
import Spn.Paths

/-! # The shape of a pattern

`sp_glob_parse_meta` of `util/glob/glob.c`: one pass over the characters finds where the
literal directories end and what comes after the last slash outside of braces. It knows
nothing of classes, so what it finds is the last component only where no class holds a
slash or, within braces, a closing brace.
-/
namespace Spn.Glob

open Spn.Lib
open Spn.Lib.Glob (star query lbracket lbrace rbrace openAfter Plain Matches)

/-- `sp_glob_meta_t`. -/
structure Meta where
  dir : Str
  rest : Str
  name : Str
  literal : Bool
  deep : Bool
  deriving DecidableEq, Repr

/-- The variables of the loop of `sp_glob_parse_meta`. -/
structure Scan where
  it : ℕ
  prev : Option UInt8
  dir : ℕ
  rest : ℕ
  name : ℕ
  depth : ℕ
  spans : Bool
  literal : Bool
  deep : Bool
  deriving DecidableEq, Repr

namespace Scan

def start : Scan := ⟨0, none, 0, 0, 0, 0, false, true, false⟩

/-- The switch over one character. -/
def branch (s : Scan) (c : UInt8) : Scan :=
  if c = slash then
    let s := if s.literal then { s with dir := s.it, rest := s.it + 1 } else { s with deep := true }
    if s.depth ≠ 0 then { s with spans := true } else { s with name := s.it + 1, spans := false }
  else if c = star then
    { s with deep := s.deep || s.prev = some star, literal := false }
  else if c = lbrace then { s with depth := s.depth + 1, literal := false }
  else if c = rbrace then { s with depth := s.depth - 1 }
  else if c = query ∨ c = lbracket then { s with literal := false }
  else s

def step (s : Scan) (c : UInt8) : Scan := { s.branch c with it := s.it + 1, prev := some c }

end Scan

def scan (pattern : Str) : Scan := pattern.foldl Scan.step Scan.start

/-- `sp_glob_parse_meta`. -/
def parseMeta (pattern : Str) : Meta :=
  let s := scan pattern
  { dir := pattern.take s.dir
    rest := pattern.drop s.rest
    name := if s.spans then [] else pattern.drop s.name
    literal := s.literal
    deep := s.deep }

example : parseMeta (str "A/\x7bB/C,D\x7d.c") =
    ⟨str "A", str "\x7bB/C,D\x7d.c", [], false, true⟩ := by decide +kernel

/-! ## What the pass has found of the characters so far -/

theorem scan_snoc (p : Str) (c : UInt8) : scan (p ++ [c]) = (scan p).step c := by
  simp [scan]

theorem scan_it (p : Str) : (scan p).it = p.length := by
  induction p using List.reverseRecOn with
  | nil => rfl
  | append_singleton p c ih =>
    rw [scan_snoc, Scan.step, List.length_append, ← ih]
    rfl

theorem scan_depth (p : Str) : (scan p).depth = openAfter 0 p := by
  induction p using List.reverseRecOn with
  | nil => rfl
  | append_singleton p c ih =>
    have hslash : slash ≠ lbrace ∧ slash ≠ rbrace := by decide
    have hstar : star ≠ lbrace ∧ star ≠ rbrace := by decide
    rw [scan_snoc, Glob.openAfter_snoc, ← ih, Scan.step, Scan.branch]
    by_cases h₁ : c = slash
    · subst h₁
      simp only [if_true, if_neg hslash.1, if_neg hslash.2]
      split_ifs <;> rfl
    · by_cases h₂ : c = star
      · subst h₂
        simp only [if_true, if_neg h₁, if_neg hstar.1, if_neg hstar.2]
      · simp only [if_neg h₁, if_neg h₂]
        split_ifs <;> rfl

/-- What the pass has found after the characters `p`. -/
structure Found (p : Str) (s : Scan) : Prop where
  literal : s.literal = true → lbrace ∉ p
  split : ∃ u r, p = u ++ r ∧ u.length = s.rest ∧ lbrace ∉ u ∧ (u = [] ∨ ∃ u', u = u' ++ [slash])
  last : slash ∉ p ∧ s.name = 0 ∧ s.spans = false ∨
    ∃ q r, p = q ++ slash :: r ∧ slash ∉ r ∧
      if openAfter 0 q = 0 then s.name = q.length + 1 ∧ s.spans = false else s.spans = true

/-- A character that is no slash leaves the two positions where they are. -/
theorem Found.snoc {p : Str} {s : Scan} (h : Found p s) {c : UInt8} (hc : c ≠ slash) {s' : Scan}
    (hrest : s'.rest = s.rest) (hname : s'.name = s.name) (hspans : s'.spans = s.spans)
    (hliteral : s'.literal = true → s.literal = true ∧ c ≠ lbrace) : Found (p ++ [c]) s' where
  literal hl hmem := by
    obtain ⟨hold, hne⟩ := hliteral hl
    rcases List.mem_append.1 hmem with hmem | hmem
    · exact h.literal hold hmem
    · exact hne (List.mem_singleton.1 hmem).symm
  split := by
    obtain ⟨u, r, rfl, hlength, hfree, hu⟩ := h.split
    exact ⟨u, r ++ [c], by simp, by rw [hrest, hlength], hfree, hu⟩
  last := by
    rw [hname, hspans]
    rcases h.last with ⟨hfree, hname⟩ | ⟨q, r, rfl, hfree, hq⟩
    · exact .inl ⟨by simpa [hfree] using hc.symm, hname⟩
    · exact .inr ⟨q, r ++ [c], by simp, by simpa [hfree] using hc.symm, hq⟩

/-- What the pass does at a slash. -/
theorem Scan.step_slash (s : Scan) : (s.step slash).literal = s.literal ∧
    (s.step slash).rest = (if s.literal then s.it + 1 else s.rest) ∧
    (s.step slash).name = (if s.depth = 0 then s.it + 1 else s.name) ∧
    (s.step slash).spans = decide (s.depth ≠ 0) := by
  obtain ⟨it, prev, dir, rest, name, depth, spans, literal, deep⟩ := s
  cases literal <;> by_cases h : depth = 0 <;> simp [Scan.step, Scan.branch, h]

/-- A slash comes after the last one and, in the literal part, after the directories. -/
theorem Found.slash {p : Str} (h : Found p (scan p)) :
    Found (p ++ [Spn.slash]) ((scan p).step Spn.slash) := by
  have hne : Spn.slash ≠ lbrace := by decide
  obtain ⟨hliteral, hrest, hname, hspans⟩ := Scan.step_slash (scan p)
  rw [scan_it] at hrest hname
  rw [scan_depth] at hname hspans
  refine ⟨?_, ?_, .inr ⟨p, [], rfl, List.not_mem_nil, ?_⟩⟩
  · intro hl
    simpa [h.literal (hliteral ▸ hl)] using hne.symm
  · by_cases hl : (scan p).literal = true
    · refine ⟨p ++ [Spn.slash], [], by simp, ?_, by simpa [h.literal hl] using hne.symm,
        .inr ⟨p, rfl⟩⟩
      rw [hrest, if_pos hl, List.length_append, List.length_singleton]
    · obtain ⟨u, r, hp, hlength, hfree, hu⟩ := h.split
      refine ⟨u, r ++ [Spn.slash], by rw [← List.append_assoc, ← hp], ?_, hfree, hu⟩
      rw [hrest, if_neg hl, hlength]
  · by_cases hzero : openAfter 0 p = 0 <;> simp [hname, hspans, hzero]

theorem found_scan (p : Str) : Found p (scan p) := by
  induction p using List.reverseRecOn with
  | nil =>
    exact ⟨fun _ => List.not_mem_nil, ⟨[], [], rfl, rfl, List.not_mem_nil, .inl rfl⟩,
      .inl ⟨List.not_mem_nil, rfl, rfl⟩⟩
  | append_singleton p c ih =>
    rw [scan_snoc]
    by_cases hc : c = slash
    · subst hc
      exact ih.slash
    · have hliteral : ((scan p).step c).literal = true → (scan p).literal = true ∧ c ≠ lbrace := by
        unfold Scan.step Scan.branch
        rw [if_neg hc]
        split_ifs with hstar hl hr hmeta <;> simp_all
      refine ih.snoc hc ?_ ?_ ?_ hliteral
      all_goals
        unfold Scan.step Scan.branch
        rw [if_neg hc]
        split_ifs <;> rfl

/-! ## The last component of a pattern -/

/-- The name of the shape is empty, or the whole of what is matched, or what comes after
its last slash, which is outside of braces by the count of the characters. -/
theorem parseMeta_name (p : Str) : (parseMeta p).name = [] ∨
    slash ∉ (parseMeta p).rest ∧ (parseMeta p).name = (parseMeta p).rest ∨
    ∃ q, (parseMeta p).rest = q ++ slash :: (parseMeta p).name ∧ slash ∉ (parseMeta p).name ∧
      openAfter 0 q = 0 := by
  have hfound := found_scan p
  obtain ⟨u, rest, hp, hlength, hopen, hu⟩ := hfound.split
  have hrest : (parseMeta p).rest = rest := by
    show p.drop (scan p).rest = rest
    rw [← hlength, hp, List.drop_left]
  rw [hrest]
  rcases hfound.last with ⟨hfree, hname, hspans⟩ | ⟨q, r, hq, hfree, hlast⟩
  · have hname : (parseMeta p).name = p := by simp [parseMeta, hname, hspans]
    rcases hu with rfl | ⟨u', rfl⟩
    · right; left
      rw [List.nil_append] at hp
      exact ⟨hp ▸ hfree, by rw [hname, hp]⟩
    · exact absurd (by rw [hp]; simp) hfree
  · by_cases hzero : openAfter 0 q = 0
    · rw [if_pos hzero] at hlast
      have hname : (parseMeta p).name = r := by
        have hdrop : p.drop (q.length + 1) = r := by
          rw [hq, List.drop_append]
          simp
        simp [parseMeta, hlast.1, hlast.2, hdrop]
      rw [hname]
      rcases hu with rfl | ⟨u', rfl⟩
      · exact .inr (.inr ⟨q, by rw [← hq, hp]; rfl, hfree, hzero⟩)
      · have heq : q ++ slash :: r = u' ++ slash :: rest := by
          rw [← hq, hp]
          simp
        have hwhole : slash ∉ rest ∧ r = rest ∨
            ∃ q', rest = q' ++ slash :: r ∧ q = u' ++ slash :: q' := by
          rcases List.append_eq_append_iff.1 heq with ⟨a, -, ha⟩ | ⟨a, rfl, ha⟩
          · cases a with
            | nil => exact .inl ⟨by rwa [← (List.cons_eq_cons.1 ha).2], (List.cons_eq_cons.1 ha).2⟩
            | cons d a =>
              have hr : r = a ++ slash :: rest := (List.cons_eq_cons.1 ha).2
              exact absurd (by rw [hr]; exact List.mem_append_right _ List.mem_cons_self) hfree
          · cases a with
            | nil =>
              have hr : rest = r := (List.cons_eq_cons.1 ha).2
              exact .inl ⟨hr ▸ hfree, hr.symm⟩
            | cons d a =>
              obtain ⟨rfl, hrest'⟩ := List.cons_eq_cons.1 ha
              exact .inr ⟨a, hrest', rfl⟩
        rcases hwhole with ⟨hno, rfl⟩ | ⟨q', hq', rfl⟩
        · exact .inr (.inl ⟨hno, rfl⟩)
        · -- no brace is opened in the directories
          have hdirs : openAfter 0 (u' ++ [slash]) = 0 :=
            Nat.le_zero.1 (Glob.openAfter_of_not_mem hopen 0)
          rw [List.append_cons, Glob.openAfter_append, hdirs] at hzero
          exact .inr (.inr ⟨q', hq', hfree, hzero⟩)
    · rw [if_neg hzero] at hlast
      exact .inl (by simp [parseMeta, hlast])

/-- What matches a plain pattern has a last name that matches the name of the shape. -/
theorem matches_name {name : List Glob.Tok → Str → Prop} {p : Str} {before : List Str} {n : Str}
    (h : Matches name (parseMeta p).rest (before ++ [n])) (hplain : Plain (parseMeta p).rest)
    (hname : (parseMeta p).name ≠ []) : Matches name (parseMeta p).name [n] := by
  rcases parseMeta_name p with hempty | ⟨hfree, heq⟩ | ⟨q, hrest, hfree, hzero⟩
  · exact absurd hempty hname
  · rw [heq]
    exact h.of_no_slash hfree
  · rw [hrest] at h hplain
    exact h.after_slash hplain hfree hzero

end Spn.Glob
