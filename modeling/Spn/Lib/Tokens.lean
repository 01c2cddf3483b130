import Mathlib

/-! # Tokenizers of command lines

The two ways in which a text is taken apart into arguments. Which characters are white
space is a parameter: it differs from one tokenizer to another.
-/
namespace Spn.Lib

def backslash : UInt8 := 0x5c
def doubleQuote : UInt8 := 0x22
def singleQuote : UInt8 := 0x27

section

variable (W : UInt8 → Bool)

/-! ## GNU -/

/-- An argument that has begun: the quote it is in, whether a backslash was the last, and
what it has so far. -/
structure GnuArg where
  quote : Option UInt8
  escaped : Bool
  text : List UInt8

def GnuArg.push (o : GnuArg) (c : UInt8) : GnuArg := { o with escaped := false, text := o.text ++ [c] }

/-- White space separates, quotes group, and a backslash escapes the next character. -/
def gnuTokens : Option GnuArg → List UInt8 → List (List UInt8)
  | none, [] => []
  | some o, [] => [o.text]
  | st, c :: rest =>
    let o := st.getD ⟨none, false, []⟩
    if o.escaped then gnuTokens (some (o.push c)) rest
    else
      match o.quote with
      | some q =>
        if c = backslash then gnuTokens (some { o with escaped := true }) rest
        else if c = q then gnuTokens (some { o with quote := none }) rest
        else gnuTokens (some (o.push c)) rest
      | none =>
        if W c then (st.toList.map GnuArg.text) ++ gnuTokens none rest
        else if c = backslash then gnuTokens (some { o with escaped := true }) rest
        else if c = doubleQuote ∨ c = singleQuote then gnuTokens (some { o with quote := some c }) rest
        else gnuTokens (some (o.push c)) rest

/-! ## Windows -/

/-- An argument that has begun: whether it is in quotes, what it has so far, and the
backslashes after that. -/
structure WindowsArg where
  quoted : Bool
  text : List UInt8
  slashes : ℕ

/-- What the argument is when no quote follows. -/
def WindowsArg.value (o : WindowsArg) : List UInt8 := o.text ++ List.replicate o.slashes backslash

/-- White space separates, a quote groups, and backslashes are doubled before a quote: 2n
of them are n, and the quote counts; 2n + 1 are n and the quote is literal. -/
def windowsTokens : Option WindowsArg → List UInt8 → List (List UInt8)
  | none, [] => []
  | some o, [] => [o.value]
  | st, c :: rest =>
    let o := st.getD ⟨false, [], 0⟩
    if c = backslash then windowsTokens (some { o with slashes := o.slashes + 1 }) rest
    else if c = doubleQuote then
      let text := o.text ++ List.replicate (o.slashes / 2) backslash
      if o.slashes % 2 = 1 then windowsTokens (some ⟨o.quoted, text ++ [c], 0⟩) rest
      else windowsTokens (some ⟨!o.quoted, text, 0⟩) rest
    else if W c && !o.quoted then (st.toList.map WindowsArg.value) ++ windowsTokens none rest
    else windowsTokens (some ⟨o.quoted, o.value ++ [c], 0⟩) rest

/-! ## Bare arguments -/

variable {W}

/-- What white space makes of a text without anything that quotes or escapes: the pieces
hold the rest of it, and the next line is taken apart by itself. -/
theorem gnuTokens_bare {a : List UInt8} (rest : List UInt8) {nl : UInt8} (hnl : W nl)
    (h : ∀ c ∈ a, c ≠ backslash ∧ c ≠ doubleQuote ∧ c ≠ singleQuote)
    (st : Option GnuArg) (hst : ∀ o ∈ st, o.quote = none ∧ o.escaped = false) :
    gnuTokens W st (a ++ nl :: rest) = gnuTokens W st a ++ gnuTokens W none rest := by
  induction a generalizing st with
  | nil =>
    cases st with
    | none => simp [gnuTokens, hnl]
    | some o =>
      obtain ⟨hq, he⟩ := hst o rfl
      simp [gnuTokens, hq, he, hnl]
  | cons c a ih =>
    obtain ⟨⟨hb, hd, hs⟩, ha⟩ := List.forall_mem_cons.1 h
    have hq : (st.getD ⟨none, false, []⟩).quote = none ∧
        (st.getD ⟨none, false, []⟩).escaped = false := by
      cases st with
      | none => exact ⟨rfl, rfl⟩
      | some o => exact hst o rfl
    rw [List.cons_append, gnuTokens, gnuTokens]
    simp only [hq.1, hq.2, hb, hd, hs, or_self, if_false, Bool.false_eq_true]
    split
    · rw [ih ha none (by simp), List.append_assoc]
    · exact ih ha _ (by simp [GnuArg.push, hq.1])

theorem length_gnuTokens_bare {a : List UInt8}
    (h : ∀ c ∈ a, c ≠ backslash ∧ c ≠ doubleQuote ∧ c ≠ singleQuote)
    (st : Option GnuArg) (hst : ∀ o ∈ st, o.quote = none ∧ o.escaped = false) :
    (gnuTokens W st a).flatten.length =
      (st.getD ⟨none, false, []⟩).text.length + (a.filter fun c => !W c).length := by
  induction a generalizing st with
  | nil => cases st <;> simp [gnuTokens]
  | cons c a ih =>
    obtain ⟨⟨hb, hd, hs⟩, ha⟩ := List.forall_mem_cons.1 h
    have hq : (st.getD ⟨none, false, []⟩).quote = none ∧
        (st.getD ⟨none, false, []⟩).escaped = false := by
      cases st with
      | none => exact ⟨rfl, rfl⟩
      | some o => exact hst o rfl
    rw [gnuTokens]
    simp only [hq.1, hq.2, hb, hd, hs, or_self, if_false, Bool.false_eq_true]
    split
    · rename_i hw
      rw [List.flatten_append, List.length_append, ih ha none (by simp)]
      cases st <;> simp [hw]
    · rename_i hw
      rw [ih ha _ (by simp [GnuArg.push, hq.1])]
      simp [GnuArg.push, hw]
      omega

theorem windowsTokens_bare {a : List UInt8} (rest : List UInt8) {nl : UInt8} (hnl : W nl)
    (hb : nl ≠ backslash) (hd : nl ≠ doubleQuote) (h : ∀ c ∈ a, c ≠ doubleQuote)
    (st : Option WindowsArg) (hst : ∀ o ∈ st, o.quoted = false) :
    windowsTokens W st (a ++ nl :: rest) = windowsTokens W st a ++ windowsTokens W none rest := by
  induction a generalizing st with
  | nil =>
    cases st with
    | none => simp [windowsTokens, hnl, hb, hd]
    | some o => simp [windowsTokens, hst o rfl, hnl, hb, hd]
  | cons c a ih =>
    obtain ⟨hd', ha⟩ := List.forall_mem_cons.1 h
    have hq : (st.getD ⟨false, [], 0⟩).quoted = false := by
      cases st with
      | none => rfl
      | some o => exact hst o rfl
    rw [List.cons_append, windowsTokens, windowsTokens]
    simp only [hq, hd', if_false, Bool.not_false, Bool.and_true]
    split
    · exact ih ha _ (by simp)
    · split
      · rw [ih ha none (by simp), List.append_assoc]
      · exact ih ha _ (by simp)

theorem length_windowsTokens_bare {a : List UInt8} (hW : W backslash = false)
    (h : ∀ c ∈ a, c ≠ doubleQuote) (st : Option WindowsArg)
    (hst : ∀ o ∈ st, o.quoted = false) :
    (windowsTokens W st a).flatten.length =
      (st.getD ⟨false, [], 0⟩).value.length + (a.filter fun c => !W c).length := by
  induction a generalizing st with
  | nil => cases st <;> simp [windowsTokens, WindowsArg.value]
  | cons c a ih =>
    obtain ⟨hd, ha⟩ := List.forall_mem_cons.1 h
    have hq : (st.getD ⟨false, [], 0⟩).quoted = false := by
      cases st with
      | none => rfl
      | some o => exact hst o rfl
    rw [windowsTokens]
    simp only [hq, hd, if_false, Bool.not_false, Bool.and_true]
    split
    · rename_i hb
      rw [ih ha _ (by simp)]
      simp [WindowsArg.value, hb, hW]
      omega
    · split
      · rename_i hw
        rw [List.flatten_append, List.length_append, ih ha none (by simp)]
        cases st <;> simp [hw, WindowsArg.value]
      · rename_i hw
        rw [ih ha _ (by simp)]
        simp [WindowsArg.value, hw]
        omega

/-- A text without white space is one argument. -/
theorem gnuTokens_solid {a : List UInt8}
    (h : ∀ c ∈ a, c ≠ backslash ∧ c ≠ doubleQuote ∧ c ≠ singleQuote) (hW : ∀ c ∈ a, W c = false)
    (o : GnuArg) (hq : o.quote = none) (he : o.escaped = false) :
    gnuTokens W (some o) a = [o.text ++ a] := by
  induction a generalizing o with
  | nil => simp [gnuTokens]
  | cons c a ih =>
    obtain ⟨⟨hb, hd, hs⟩, ha⟩ := List.forall_mem_cons.1 h
    obtain ⟨hw, hWa⟩ := List.forall_mem_cons.1 hW
    have hstep : gnuTokens W (some o) (c :: a) = gnuTokens W (some (o.push c)) a := by
      simp [gnuTokens, hq, he, hb, hd, hs, hw]
    rw [hstep, ih ha hWa (o.push c) hq rfl]
    simp [GnuArg.push]

theorem windowsTokens_solid {a : List UInt8} (h : ∀ c ∈ a, c ≠ doubleQuote)
    (hW : ∀ c ∈ a, W c = false) (o : WindowsArg) :
    windowsTokens W (some o) a = [o.value ++ a] := by
  induction a generalizing o with
  | nil => simp [windowsTokens]
  | cons c a ih =>
    obtain ⟨hd, ha⟩ := List.forall_mem_cons.1 h
    obtain ⟨hw, hWa⟩ := List.forall_mem_cons.1 hW
    by_cases hb : c = backslash
    · have hstep : windowsTokens W (some o) (c :: a) =
          windowsTokens W (some { o with slashes := o.slashes + 1 }) a := by
        simp [windowsTokens, hb]
      rw [hstep, ih ha hWa, hb]
      simp [WindowsArg.value, List.replicate_succ']
    · have hstep : windowsTokens W (some o) (c :: a) =
          windowsTokens W (some ⟨o.quoted, o.value ++ [c], 0⟩) a := by
        simp [windowsTokens, hb, hd, hw]
      rw [hstep, ih ha hWa]
      simp [WindowsArg.value]

end

end Spn.Lib
