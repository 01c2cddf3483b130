import Spn.Lib.Tokens
import Spn.Paths

/-! # Response files

`compiler/rsp.c`: the arguments of a command, one on a line, in the quotes of a style.
-/
namespace Spn.Compiler

open Spn.Lib

/-- `spn_rsp_style_t`. -/
inductive RspStyle
  | windows | gnu
  deriving DecidableEq, Repr

def newline : UInt8 := 10

/-- The characters `needs_quotes` looks for in any style. -/
def separators : List UInt8 := [0x20, 0x09, newline, 0x0d, doubleQuote, singleQuote]

/-- `needs_quotes`. -/
def needsQuotes (style : RspStyle) (arg : Str) : Bool :=
  arg.head? = none || arg.head? = some 0x23 ||
    arg.any fun c => separators.contains c || (c = backslash && style = .gnu)

/-- The loop of `write_quoted_windows`, with the backslashes it holds back. The source counts them
in a `u32`, of which it writes twice as many and one more: this is the loop for less than 2 ^ 31
backslashes in a row. -/
def quotedWindows : ℕ → Str → Str
  | slashes, [] => List.replicate (slashes * 2) backslash
  | slashes, c :: rest =>
    if c = backslash then quotedWindows (slashes + 1) rest
    else
      let slashes := if c = doubleQuote then slashes * 2 + 1 else slashes
      List.replicate slashes backslash ++ c :: quotedWindows 0 rest

/-- `write_quoted_windows`. -/
def writeQuotedWindows (arg : Str) : Str := doubleQuote :: quotedWindows 0 arg ++ [doubleQuote]

/-- The loop of `write_quoted_gnu`. -/
def quotedGnu : Str → Str
  | [] => []
  | c :: rest =>
    if c = backslash ∨ c = doubleQuote then backslash :: c :: quotedGnu rest
    else c :: quotedGnu rest

/-- `write_quoted_gnu`. -/
def writeQuotedGnu (arg : Str) : Str := doubleQuote :: quotedGnu arg ++ [doubleQuote]

/-- `write_arg`. -/
def writeArg (style : RspStyle) (arg : Str) : Str :=
  if needsQuotes style arg then
    match style with
    | .windows => writeQuotedWindows arg
    | .gnu => writeQuotedGnu arg
  else arg

/-- `spn_rsp_render`, of arguments that are strings already. -/
def rspRender (style : RspStyle) (args : List Str) : Str :=
  args.flatMap fun arg => writeArg style arg ++ [newline]

/-- The arguments the tool of a style finds in a file. -/
def rspTokens (W : UInt8 → Bool) : RspStyle → Str → List Str
  | .windows => windowsTokens W none
  | .gnu => gnuTokens W none

/-! ## Quoted arguments -/

section

variable {W : UInt8 → Bool}

/-- White space for a tool: the code counts on these four, and quotes and backslashes are
none. -/
structure White (W : UInt8 → Bool) : Prop where
  space : W 0x20
  tab : W 0x09
  newline : W newline
  ret : W 0x0d
  notBackslash : W backslash = false
  notDouble : W doubleQuote = false
  notSingle : W singleQuote = false

theorem gnuTokens_quoted (a : Str) (o : GnuArg) (hq : o.quote = some doubleQuote)
    (he : o.escaped = false) (rest : Str) :
    gnuTokens W (some o) (quotedGnu a ++ doubleQuote :: rest) =
      gnuTokens W (some ⟨none, false, o.text ++ a⟩) rest := by
  induction a generalizing o with
  | nil =>
    have hne : doubleQuote ≠ backslash := by decide
    simp [quotedGnu, gnuTokens, hq, he, hne]
  | cons c a ih =>
    have hnext := ih (o.push c) hq rfl
    rw [GnuArg.push, List.append_assoc] at hnext
    by_cases hc : c = backslash ∨ c = doubleQuote
    · -- the backslash that was written takes the character with it
      have hstep : gnuTokens W (some o) (backslash :: c :: (quotedGnu a ++ doubleQuote :: rest)) =
          gnuTokens W (some (o.push c)) (quotedGnu a ++ doubleQuote :: rest) := by
        simp [gnuTokens, hq, he, GnuArg.push]
      rw [quotedGnu, if_pos hc, List.cons_append, List.cons_append, hstep]
      exact hnext
    · obtain ⟨hb, hd⟩ := not_or.1 hc
      rw [quotedGnu, if_neg hc, List.cons_append, gnuTokens]
      simp only [Option.getD_some, he, hq, hb, hd, if_false, Bool.false_eq_true]
      exact hnext

theorem windowsTokens_slashes (o : WindowsArg) (k : ℕ) (rest : Str) :
    windowsTokens W (some o) (List.replicate k backslash ++ rest) =
      windowsTokens W (some { o with slashes := o.slashes + k }) rest := by
  induction k generalizing o with
  | zero => rfl
  | succ k ih =>
    have hstep : windowsTokens W (some o) (backslash :: (List.replicate k backslash ++ rest)) =
        windowsTokens W (some { o with slashes := o.slashes + 1 })
          (List.replicate k backslash ++ rest) := by
      simp [windowsTokens]
    rw [List.replicate_succ, List.cons_append, hstep, ih]
    simp only [Nat.add_assoc, Nat.add_comm 1 k]

/-- The loop of the writer holds backslashes back until it knows what follows them. -/
theorem windowsTokens_quoted (a t : Str) (n : ℕ) (rest : Str) :
    windowsTokens W (some ⟨true, t, 0⟩) (quotedWindows n a ++ doubleQuote :: rest) =
      windowsTokens W (some ⟨false, t ++ List.replicate n backslash ++ a, 0⟩) rest := by
  have hne : doubleQuote ≠ backslash := by decide
  induction a generalizing n t with
  | nil =>
    rw [quotedWindows, windowsTokens_slashes]
    simp [windowsTokens, hne]
  | cons c a ih =>
    by_cases hb : c = backslash
    · rw [quotedWindows, if_pos hb, ih, hb, List.replicate_succ']
      simp
    · have hpush : ∀ (u : Str), windowsTokens W (some ⟨true, u, 0⟩)
          (quotedWindows 0 a ++ doubleQuote :: rest) =
          windowsTokens W (some ⟨false, u ++ a, 0⟩) rest := by
        intro u
        rw [ih u 0]
        simp
      rw [quotedWindows, if_neg hb]
      dsimp only
      rw [List.append_assoc, windowsTokens_slashes, List.cons_append, windowsTokens]
      simp only [Option.getD_some, hb, if_false, Nat.zero_add]
      by_cases hd : c = doubleQuote
      · -- an odd number, half of it and a quote that is meant
        have hodd : (n * 2 + 1) % 2 = 1 := by omega
        have hhalf : (n * 2 + 1) / 2 = n := by omega
        simp only [hd, if_true, hodd, hhalf]
        rw [hpush]
        simp
      · simp only [hd, if_false, Bool.not_true, Bool.and_false, Bool.false_eq_true]
        rw [hpush]
        simp [WindowsArg.value]

/-! ## Lines -/

/-- What a line of the file is taken apart into. -/
def pieces (W : UInt8 → Bool) (style : RspStyle) (arg : Str) : List Str :=
  if needsQuotes style arg then [arg] else rspTokens W style arg

theorem newline_ne : newline ≠ backslash ∧ newline ≠ doubleQuote ∧ newline ≠ singleQuote := by
  decide

/-- An argument that is written bare is not empty and has nothing that quotes in it. -/
theorem bare_of_not_needsQuotes {style : RspStyle} {arg : Str}
    (h : needsQuotes style arg = false) :
    arg ≠ [] ∧ ∀ c ∈ arg, c ∉ separators ∧ (style = .gnu → c ≠ backslash) := by
  simp only [needsQuotes, Bool.or_eq_false_iff, decide_eq_false_iff_not,
    List.any_eq_false, Bool.or_eq_true, Bool.and_eq_true, decide_eq_true_eq, not_or, not_and] at h
  refine ⟨fun he => h.1.1 (by rw [he]; rfl), fun c hc => ⟨?_, fun hs hb => ?_⟩⟩
  · simpa using (h.2 c hc).1
  · exact (h.2 c hc).2 hb hs

theorem rspTokens_line (hW : White W) (style : RspStyle) (arg rest : Str) :
    rspTokens W style (writeArg style arg ++ newline :: rest) =
      pieces W style arg ++ rspTokens W style rest := by
  have hnl := newline_ne
  unfold pieces writeArg
  cases hq : needsQuotes style arg with
  | true =>
    simp only [if_true]
    cases style with
    | gnu =>
      have hopen : gnuTokens W none (writeQuotedGnu arg ++ newline :: rest) =
          gnuTokens W (some ⟨some doubleQuote, false, []⟩)
            (quotedGnu arg ++ doubleQuote :: newline :: rest) := by
        simp [writeQuotedGnu, gnuTokens, hW.notDouble, show doubleQuote ≠ backslash by decide]
      change gnuTokens W none _ = _ ++ gnuTokens W none rest
      rw [hopen, gnuTokens_quoted _ _ rfl rfl, gnuTokens]
      simp [hW.newline]
    | windows =>
      have hopen : windowsTokens W none (writeQuotedWindows arg ++ newline :: rest) =
          windowsTokens W (some ⟨true, [], 0⟩)
            (quotedWindows 0 arg ++ doubleQuote :: newline :: rest) := by
        simp [writeQuotedWindows, windowsTokens, show doubleQuote ≠ backslash by decide]
      change windowsTokens W none _ = _ ++ windowsTokens W none rest
      rw [hopen, windowsTokens_quoted, windowsTokens]
      simp [hW.newline, hnl.1, hnl.2.1, WindowsArg.value]
  | false =>
    obtain ⟨-, hbare⟩ := bare_of_not_needsQuotes hq
    simp only [Bool.false_eq_true, if_false]
    cases style with
    | gnu =>
      refine gnuTokens_bare rest hW.newline (fun c hc => ?_) none (by simp)
      obtain ⟨hsep, hback⟩ := hbare c hc
      refine ⟨hback rfl, ?_, ?_⟩ <;> rintro rfl <;> exact hsep (by decide)
    | windows =>
      refine windowsTokens_bare rest hW.newline hnl.1 hnl.2.1 (fun c hc => ?_) none (by simp)
      rintro rfl
      exact (hbare _ hc).1 (by decide)

theorem rspTokens_render (hW : White W) (style : RspStyle) (args : List Str) :
    rspTokens W style (rspRender style args) = args.flatMap (pieces W style) := by
  induction args with
  | nil => cases style <;> simp [rspRender, rspTokens, gnuTokens, windowsTokens]
  | cons arg args ih =>
    have hrender : rspRender style (arg :: args) =
        writeArg style arg ++ newline :: rspRender style args := by
      simp [rspRender]
    rw [hrender, rspTokens_line hW, ih, List.flatMap_cons]

/-! ## What is lost -/

/-- Of an argument that is written bare, all but its white space is read. -/
theorem length_pieces (hW : White W) {style : RspStyle} {arg : Str} :
    (pieces W style arg).flatten.length =
      if needsQuotes style arg then arg.length else (arg.filter fun c => !W c).length := by
  unfold pieces
  cases hq : needsQuotes style arg with
  | true => simp
  | false =>
    obtain ⟨-, hbare⟩ := bare_of_not_needsQuotes hq
    simp only [Bool.false_eq_true, if_false]
    cases style with
    | gnu =>
      refine (length_gnuTokens_bare (fun c hc => ?_) none (by simp)).trans (by simp)
      obtain ⟨hsep, hback⟩ := hbare c hc
      refine ⟨hback rfl, ?_, ?_⟩ <;> rintro rfl <;> exact hsep (by decide)
    | windows =>
      refine (length_windowsTokens_bare hW.notBackslash (fun c hc => ?_) none (by simp)).trans
        (by simp [WindowsArg.value])
      rintro rfl
      exact (hbare _ hc).1 (by decide)

theorem pieces_solid {style : RspStyle} {arg : Str}
    (h : needsQuotes style arg = false → ∀ c ∈ arg, W c = false) :
    pieces W style arg = [arg] := by
  unfold pieces
  cases hq : needsQuotes style arg with
  | true => rfl
  | false =>
    obtain ⟨hne, hbare⟩ := bare_of_not_needsQuotes hq
    have hsolid := h hq
    obtain ⟨c, rest, rfl⟩ := List.exists_cons_of_ne_nil hne
    have hquote : ∀ c' ∈ c :: rest, c' ≠ doubleQuote ∧ c' ≠ singleQuote := by
      intro c' hc'
      constructor <;> rintro rfl <;> exact (hbare _ hc').1 (by decide)
    obtain ⟨hw, -⟩ := List.forall_mem_cons.1 hsolid
    obtain ⟨⟨hd, hs⟩, -⟩ := List.forall_mem_cons.1 hquote
    simp only [Bool.false_eq_true, if_false]
    cases style with
    | gnu =>
      have hback : c ≠ backslash := (hbare c List.mem_cons_self).2 rfl
      have hbegin : gnuTokens W none (c :: rest) =
          gnuTokens W (some ⟨none, false, []⟩) (c :: rest) := by
        simp [gnuTokens, hw, hback, hd, hs]
      change gnuTokens W none _ = _
      rw [hbegin, gnuTokens_solid (fun c' hc' => ?_) hsolid _ rfl rfl]
      · rfl
      · exact ⟨(hbare c' hc').2 rfl, hquote c' hc'⟩
    | windows =>
      have hbegin : windowsTokens W none (c :: rest) =
          windowsTokens W (some ⟨false, [], 0⟩) (c :: rest) := by
        simp [windowsTokens, hw]
      change windowsTokens W none _ = _
      rw [hbegin, windowsTokens_solid (fun c' hc' => (hquote c' hc').1) hsolid]
      rfl

/-- The arguments are read as they were written unless one is written bare that has a
character in it that is white space for the tool. -/
theorem rsp_exact_iff (hW : White W) (style : RspStyle) (args : List Str) :
    rspTokens W style (rspRender style args) = args ↔
      ∀ arg ∈ args, needsQuotes style arg = false → ∀ c ∈ arg, W c = false := by
  rw [rspTokens_render hW]
  have hle : ∀ arg, (pieces W style arg).flatten.length ≤ arg.length := by
    intro arg
    rw [length_pieces hW]
    split
    · exact le_rfl
    · exact List.length_filter_le _ _
  have hsum : ∀ args : List Str, (args.flatMap (pieces W style)).flatten.length ≤
      args.flatten.length := by
    intro args
    induction args with
    | nil => exact le_rfl
    | cons arg args ih =>
      rw [List.flatMap_cons, List.flatten_append, List.length_append, List.flatten_cons,
        List.length_append]
      exact Nat.add_le_add (hle arg) ih
  constructor
  · intro h
    have hlen : (args.flatMap (pieces W style)).flatten.length = args.flatten.length := by rw [h]
    clear h
    induction args with
    | nil => simp
    | cons arg args ih =>
      rw [List.flatMap_cons, List.flatten_append, List.length_append, List.flatten_cons,
        List.length_append] at hlen
      have h₁ := hle arg
      have h₂ := hsum args
      intro arg' harg'
      rcases List.mem_cons.1 harg' with rfl | hrest
      · intro hq c hc
        have heq : (pieces W style arg').flatten.length = arg'.length := by omega
        rw [length_pieces hW, if_neg (by simp [hq])] at heq
        simpa using List.length_filter_eq_length_iff.1 heq c hc
      · exact ih (by omega) arg' hrest
  · intro h
    induction args with
    | nil => rfl
    | cons arg args ih =>
      obtain ⟨harg, hrest⟩ := List.forall_mem_cons.1 h
      rw [List.flatMap_cons, pieces_solid harg, ih hrest]
      rfl

end

/-! ## White space -/

/-- The white space of C: two characters more than the code looks for. -/
def isSpace (c : UInt8) : Bool := c = 0x20 ∨ (0x09 ≤ c ∧ c ≤ 0x0d)

theorem white_isSpace : White isSpace := by constructor <;> decide

theorem rsp_exact_iff_option : rspTokens isSpace .gnu (rspRender .gnu [str "-DX=a b"]) =
    [str "-DX=a b"] :=
  (rsp_exact_iff white_isSpace .gnu [str "-DX=a b"]).2 fun arg harg hq => by
    obtain rfl := List.mem_singleton.1 harg
    exact absurd hq (by decide)

/-- A vertical tab is written bare, and the argument is read as two. -/
theorem vertical_tab_splits :
    rspTokens isSpace .gnu (rspRender .gnu [[0x61, 0x0b, 0x62]]) ≠ [[0x61, 0x0b, 0x62]] := by
  decide

end Spn.Compiler
