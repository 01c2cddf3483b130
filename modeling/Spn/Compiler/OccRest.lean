import Spn.Compiler.Occ

/-! # What is left of a depfile

The parser's functions are told by the part of the content that is still ahead. No read
is outside of the content, and every loop ends.
-/
namespace Spn.Compiler

open Spn.Lib

/-- The first character that is ahead. -/
def first (rest : Str) : UInt8 := rest.headD 0

@[simp] theorem first_nil : first [] = 0 := rfl
@[simp] theorem first_cons (c : UInt8) (rest : Str) : first (c :: rest) = c := rfl

/-- The parser when this is what is left of the content. -/
def OccParser.on (content rest : Str) (err : OccErr) : OccParser :=
  ⟨content, content.length - rest.length, err⟩

section

variable {content rest : Str} {e : OccErr}

theorem on_err (err' : OccErr) :
    (⟨(OccParser.on content rest e).content, (OccParser.on content rest e).n, err'⟩ :
      OccParser) = .on content rest err' := rfl

theorem isValid_on (h : rest <:+ content) (ahead : ℕ) :
    occIsValid (.on content rest e) ((OccParser.on content rest e).n + ahead) =
      decide (ahead < rest.length) := by
  have hle := h.length_le
  have hiff : content.length - rest.length + ahead < content.length ↔ ahead < rest.length := by
    omega
  simp only [occIsValid, OccParser.on, hiff]

theorem data_on (h : rest <:+ content) (ahead : ℕ) :
    (OccParser.on content rest e).data ((OccParser.on content rest e).n + ahead) =
      rest[ahead]? := by
  obtain ⟨before, rfl⟩ := h
  have hn : (OccParser.on (before ++ rest) rest e).n = before.length := by
    simp [OccParser.on]
  rw [hn, OccParser.data]
  simp [OccParser.on, List.getElem?_append_right]

theorem occLook_on (h : rest <:+ content) (ahead : ℕ) :
    occLook (.on content rest e) ahead = some (first (rest.drop ahead)) := by
  rw [occLook, isValid_on h, data_on h]
  by_cases hlt : ahead < rest.length
  · simp [hlt, first, List.headD_eq_head?_getD]
  · simp [hlt, List.drop_eq_nil_of_le (Nat.le_of_not_lt hlt)]

theorem occIsDone_on (h : rest <:+ content) :
    occIsDone (.on content rest e) = rest.isEmpty := by
  have hvalid := isValid_on (e := e) h 0
  rw [Nat.add_zero] at hvalid
  rw [occIsDone, hvalid]
  cases rest <;> simp

theorem occPeek_on (h : rest <:+ content) :
    occPeek (.on content rest e) = some (first rest) := by
  have hdata := data_on (e := e) h 0
  rw [Nat.add_zero] at hdata
  rw [occPeek, occIsDone_on h, hdata]
  cases rest <;> simp

theorem skip_on (h : rest <:+ content) {count : ℕ} (hcount : count ≤ rest.length) :
    (OccParser.on content rest e).skip count = .on content (rest.drop count) e := by
  have hle := h.length_le
  simp only [OccParser.skip, OccParser.on, List.length_drop, OccParser.mk.injEq, true_and,
    and_true]
  omega

theorem occEat_on {c : UInt8} (h : c :: rest <:+ content) :
    occEat (.on content (c :: rest) e) = some (c, .on content rest e) := by
  have hdata := data_on (e := e) h 0
  rw [Nat.add_zero] at hdata
  rw [occEat, occIsDone_on h, hdata, skip_on h (by simp)]
  simp

theorem occMatch_on (h : rest <:+ content) (c : UInt8) :
    occMatch (.on content rest e) c = some (decide (first rest = c)) := by
  simp [occMatch, occPeek_on h]

/-- `occ_match_eat` looks for a character that is not the end's. -/
theorem occMatchEat_on (h : rest <:+ content) {c : UInt8} (hc : c ≠ 0) :
    occMatchEat (.on content rest e) c =
      if first rest = c then some (true, .on content rest.tail e)
      else some (false, .on content rest e) := by
  cases rest with
  | nil => simp [occMatchEat, occMatch_on h, hc.symm]
  | cons d rest =>
    by_cases hd : d = c
    · subst hd
      simp [occMatchEat, occMatch_on h, occEat_on h]
    · simp [occMatchEat, occMatch_on h, hd]

theorem occMatchSep_on (h : rest <:+ content) :
    occMatchSep (.on content rest e) = some (occIsSep (first rest)) := by
  simp [occMatchSep, occPeek_on h]

/-- The text is at its end or at the end of a line. -/
def atEol (rest : Str) : Bool := rest.isEmpty || occIsEol (first rest)

/-- The text is at its end or at white space. -/
def atWhitespace (rest : Str) : Bool := rest.isEmpty || occIsWhitespace (first rest)

theorem occMatchEol_on (h : rest <:+ content) :
    occMatchEol (.on content rest e) = some (atEol rest) := by
  rw [occMatchEol, occIsDone_on h]
  cases rest <;> simp [atEol, occPeek_on h]

theorem occMatchHspace_on (h : rest <:+ content) :
    occMatchHspace (.on content rest e) = some (occIsHspace (first rest)) := by
  simp [occMatchHspace, occPeek_on h]

theorem occMatchWhitespace_on (h : rest <:+ content) :
    occMatchWhitespace (.on content rest e) = some (atWhitespace rest) := by
  rw [occMatchWhitespace, occIsDone_on h]
  cases rest <;> simp [atWhitespace, occPeek_on h]

theorem lt_turns (h : rest <:+ content) :
    rest.length < (OccParser.on content rest e).turns := by
  have hle := h.length_le
  simp only [OccParser.turns, OccParser.on]
  omega

/-! ## White space -/

/-- The text after its blanks. -/
def skipHspace (rest : Str) : Str := rest.dropWhile occIsHspace

/-- The text after its white space. -/
def skipWhitespace (rest : Str) : Str := rest.dropWhile occIsWhitespace

theorem skipHspace_suffix (rest : Str) : skipHspace rest <:+ rest := List.dropWhile_suffix _
theorem skipWhitespace_suffix (rest : Str) : skipWhitespace rest <:+ rest :=
  List.dropWhile_suffix _

theorem eatHspaceLoop_on (h : rest <:+ content) {turns : ℕ} (hturns : rest.length < turns) :
    eatHspaceLoop turns (.on content rest e) = some (.on content (skipHspace rest) e) := by
  induction rest generalizing turns with
  | nil =>
    obtain ⟨turns, rfl⟩ := Nat.exists_eq_succ_of_ne_zero (Nat.ne_of_gt hturns)
    simp [eatHspaceLoop, occMatchHspace_on h, skipHspace, occIsHspace, space, tab]
  | cons c rest ih =>
    obtain ⟨turns, rfl⟩ := Nat.exists_eq_succ_of_ne_zero (Nat.ne_zero_of_lt hturns)
    have hrest := ih ((List.suffix_cons c rest).trans h) (Nat.lt_of_succ_lt_succ hturns)
    by_cases hc : occIsHspace c = true
    · simpa [eatHspaceLoop, occMatchHspace_on h, occEat_on h, hc, skipHspace] using hrest
    · simp [eatHspaceLoop, occMatchHspace_on h, hc, skipHspace]

theorem occEatHspace_on (h : rest <:+ content) :
    occEatHspace (.on content rest e) =
      some (first (skipHspace rest), .on content (skipHspace rest) e) := by
  simp [occEatHspace, eatHspaceLoop_on h (lt_turns h),
    occPeek_on ((skipHspace_suffix rest).trans h)]

theorem eatWhitespaceLoop_on (h : rest <:+ content) {turns : ℕ} (hturns : rest.length < turns) :
    eatWhitespaceLoop turns (.on content rest e) =
      some (.on content (skipWhitespace rest) e) := by
  induction rest generalizing turns with
  | nil =>
    obtain ⟨turns, rfl⟩ := Nat.exists_eq_succ_of_ne_zero (Nat.ne_of_gt hturns)
    simp [eatWhitespaceLoop, occIsDone_on h, occMatchWhitespace_on h, skipWhitespace]
  | cons c rest ih =>
    obtain ⟨turns, rfl⟩ := Nat.exists_eq_succ_of_ne_zero (Nat.ne_zero_of_lt hturns)
    have hrest := ih ((List.suffix_cons c rest).trans h) (Nat.lt_of_succ_lt_succ hturns)
    by_cases hc : occIsWhitespace c = true
    · simpa [eatWhitespaceLoop, occIsDone_on h, occMatchWhitespace_on h, occEat_on h, hc,
        atWhitespace, skipWhitespace] using hrest
    · simp [eatWhitespaceLoop, occIsDone_on h, occMatchWhitespace_on h, hc, atWhitespace,
        skipWhitespace]

theorem occEatWhitespace_on (h : rest <:+ content) :
    occEatWhitespace (.on content rest e) =
      some (first (skipWhitespace rest), .on content (skipWhitespace rest) e) := by
  simp [occEatWhitespace, eatWhitespaceLoop_on h (lt_turns h),
    occPeek_on ((skipWhitespace_suffix rest).trans h)]

/-! ## Targets -/

/-- `occ_parse_target` on what is left. -/
def parseTarget : Str → OccErr × Str
  | [] => (.missingColon, [])
  | c :: rest =>
    if occIsEol c then (.missingColon, c :: rest)
    else if c = colon ∧ occIsSep (first rest) = false then (.ok, rest)
    else parseTarget rest

theorem parseTarget_suffix (rest : Str) : (parseTarget rest).2 <:+ rest := by
  induction rest with
  | nil => exact List.suffix_refl _
  | cons c rest ih =>
    rw [parseTarget]
    split_ifs
    · exact List.suffix_refl _
    · exact List.suffix_cons c rest
    · exact ih.trans (List.suffix_cons c rest)

/-- A target that was read takes at least its colon. -/
theorem parseTarget_length {rest : Str} (h : (parseTarget rest).1 = .ok) :
    (parseTarget rest).2.length < rest.length := by
  induction rest with
  | nil => simp [parseTarget] at h
  | cons c rest ih =>
    rw [parseTarget] at h ⊢
    split_ifs at h ⊢
    · simp
    · exact (ih h).trans (by simp)

theorem parseTargetLoop_on (h : rest <:+ content) {turns : ℕ} (hturns : rest.length < turns) :
    parseTargetLoop turns (.on content rest e) =
      some ((parseTarget rest).1, .on content (parseTarget rest).2 e) := by
  induction rest generalizing turns with
  | nil =>
    obtain ⟨turns, rfl⟩ := Nat.exists_eq_succ_of_ne_zero (Nat.ne_of_gt hturns)
    simp [parseTargetLoop, occMatchEol_on h, atEol, parseTarget]
  | cons c rest ih =>
    obtain ⟨turns, rfl⟩ := Nat.exists_eq_succ_of_ne_zero (Nat.ne_zero_of_lt hturns)
    have htail : rest <:+ content := (List.suffix_cons c rest).trans h
    have hrest := ih htail (Nat.lt_of_succ_lt_succ hturns)
    have hcolon := occMatchEat_on (e := e) h (show colon ≠ 0 by decide)
    by_cases heol : occIsEol c = true
    · simp [parseTargetLoop, occMatchEol_on h, atEol, parseTarget, heol]
    · by_cases hc : c = colon
      · subst hc
        cases hsep : occIsSep (first rest) with
        | true =>
          simpa [parseTargetLoop, occMatchEol_on h, atEol, parseTarget, heol, hcolon,
            occMatchSep_on htail, hsep] using hrest
        | false =>
          simp [parseTargetLoop, occMatchEol_on h, atEol, parseTarget, heol, hcolon,
            occMatchSep_on htail, hsep]
      · simpa [parseTargetLoop, occMatchEol_on h, atEol, parseTarget, heol, hcolon, hc,
          occEat_on h] using hrest

theorem occParseTarget_on (h : rest <:+ content) :
    occParseTarget (.on content rest e) =
      some ((parseTarget rest).1, .on content (parseTarget rest).2 e) :=
  parseTargetLoop_on h (lt_turns h)

/-! ## The way to the next prerequisite -/

/-- `occ_seek` on what is left: whether there is a prerequisite, what is left then, and
the error. -/
def seekRest (rest : Str) : Bool × Str × OccErr :=
  match _hblank : skipHspace rest with
  | [] => (false, [], .ok)
  | c :: after =>
    if c = 0 then (false, c :: after, .ok)
    else if occIsEol c then
      let line := skipWhitespace (c :: after)
      if first line = 0 then (false, line, .ok)
      else if _htarget : (parseTarget line).1 = .ok then seekRest (parseTarget line).2
      else (false, (parseTarget line).2, (parseTarget line).1)
    else if c ≠ backslash then (true, c :: after, .ok)
    else if first after = 0 then (false, after, .ok)
    else if first after = lineFeed then seekRest after.tail
    else if first after = carriageReturn then
      if first after.tail = lineFeed then seekRest (after.drop 2)
      else (false, c :: after, .badContinuation)
    else (true, c :: after, .ok)
termination_by rest.length
decreasing_by
  all_goals
    have hle : (c :: after).length ≤ rest.length := _hblank ▸ (skipHspace_suffix rest).length_le
  · have hline := (skipWhitespace_suffix (c :: after)).length_le
    have hless : (parseTarget (skipWhitespace (c :: after))).2.length <
        (skipWhitespace (c :: after)).length := parseTarget_length _htarget
    omega
  · simp only [List.length_tail, List.length_cons] at hle ⊢; omega
  · simp only [List.length_drop, List.length_cons] at hle ⊢; omega

theorem seekRest_nil {rest : Str} (h : skipHspace rest = []) :
    seekRest rest = (false, [], .ok) := by
  rw [seekRest]
  split
  · rfl
  · simp_all

/-- The text ahead, after its blanks, says what is looked for. -/
theorem seekRest_cons {rest : Str} {c : UInt8} {after : Str} (h : skipHspace rest = c :: after) :
    seekRest rest =
      if c = 0 then (false, c :: after, .ok)
      else if occIsEol c then
        let line := skipWhitespace (c :: after)
        if first line = 0 then (false, line, .ok)
        else if (parseTarget line).1 = .ok then seekRest (parseTarget line).2
        else (false, (parseTarget line).2, (parseTarget line).1)
      else if c ≠ backslash then (true, c :: after, .ok)
      else if first after = 0 then (false, after, .ok)
      else if first after = lineFeed then seekRest after.tail
      else if first after = carriageReturn then
        if first after.tail = lineFeed then seekRest (after.drop 2)
        else (false, c :: after, .badContinuation)
      else (true, c :: after, .ok) := by
  rw [seekRest]
  split
  · simp_all
  next d after' heq =>
    rw [h] at heq
    cases heq
    simp only [dite_eq_ite]

/-- Where `occ_seek` stops for a prerequisite: not at white space, and not at a backslash
that ends the line or the text. -/
def Starts (rest : Str) : Prop :=
  first rest ≠ 0 ∧ occIsWhitespace (first rest) = false ∧
    (first rest = backslash → first rest.tail ≠ 0 ∧ occIsEol (first rest.tail) = false)

theorem head_skipHspace {rest after : Str} {c : UInt8} (h : skipHspace rest = c :: after) :
    occIsHspace c = false := by
  have hhead := List.head?_dropWhile_not occIsHspace rest
  rw [show rest.dropWhile occIsHspace = c :: after from h] at hhead
  simpa using hhead

/-- `occ_seek` only goes on, and stops where a prerequisite starts. -/
theorem seekRest_spec (rest : Str) :
    (seekRest rest).2.1 <:+ rest ∧ ((seekRest rest).1 = true → Starts (seekRest rest).2.1) := by
  have hafter : ∀ {rest after : Str} {c : UInt8}, skipHspace rest = c :: after →
      after <:+ rest := by
    intro rest after c h
    exact (List.suffix_cons c after).trans (h ▸ skipHspace_suffix rest)
  have hline : ∀ {rest after : Str} {c : UInt8}, skipHspace rest = c :: after →
      skipWhitespace (c :: after) <:+ rest := by
    intro rest after c h
    exact (skipWhitespace_suffix _).trans (h ▸ skipHspace_suffix rest)
  have hwhite : ∀ {rest after : Str} {c : UInt8}, skipHspace rest = c :: after →
      ¬occIsEol c = true → occIsWhitespace c = false := by
    intro rest after c h heol
    simp [occIsWhitespace, head_skipHspace h, heol]
  fun_induction seekRest rest with
  | case1 => exact ⟨List.nil_suffix, fun h => by cases h⟩
  | case2 rest after h => exact ⟨h ▸ skipHspace_suffix rest, fun h => by cases h⟩
  | case3 rest c after h => exact ⟨hline h, fun h => by cases h⟩
  | case4 rest c after h _ _ line _ _ ih =>
    exact ⟨ih.1.trans ((parseTarget_suffix line).trans (hline h)), ih.2⟩
  | case5 rest c after h _ _ line =>
    exact ⟨(parseTarget_suffix line).trans (hline h), fun h => by cases h⟩
  | case6 rest c after h hzero heol hslash =>
    exact ⟨h ▸ skipHspace_suffix rest, fun _ => ⟨hzero, hwhite h heol, fun hc => absurd hc hslash⟩⟩
  | case7 rest c after h => exact ⟨hafter h, fun h => by cases h⟩
  | case8 rest c after h _ _ _ _ _ ih =>
    exact ⟨ih.1.trans ((List.tail_suffix after).trans (hafter h)), ih.2⟩
  | case9 rest c after h _ _ _ _ _ _ _ ih =>
    exact ⟨ih.1.trans ((List.drop_suffix 2 after).trans (hafter h)), ih.2⟩
  | case10 rest c after h => exact ⟨h ▸ skipHspace_suffix rest, fun h => by cases h⟩
  | case11 rest c after h hzero heol _ hnul hlf hcr =>
    refine ⟨h ▸ skipHspace_suffix rest, fun _ => ⟨hzero, hwhite h heol, fun _ => ⟨hnul, ?_⟩⟩⟩
    simp [occIsEol, hlf, hcr]

theorem seekLoop_on (h : rest <:+ content) {turns : ℕ} (hturns : rest.length < turns) :
    seekLoop turns (.on content rest .ok) =
      some ((seekRest rest).1, .on content (seekRest rest).2.1 (seekRest rest).2.2) := by
  induction turns generalizing rest with
  | zero => omega
  | succ turns ih =>
    rw [seekLoop, occEatHspace_on h]
    have hblank := (skipHspace_suffix rest).trans h
    have hle := (skipHspace_suffix rest).length_le
    cases hskip : skipHspace rest with
    | nil => simp [seekRest_nil hskip]
    | cons c after =>
      rw [hskip] at hblank hle
      have hafter : after <:+ content := (List.suffix_cons c after).trans hblank
      simp only [List.length_cons] at hle
      rw [seekRest_cons hskip]
      by_cases hzero : c = 0
      · simp [hzero]
      by_cases heol : occIsEol c = true
      · have hline := (skipWhitespace_suffix (c :: after)).trans hblank
        have hlength := (skipWhitespace_suffix (c :: after)).length_le
        simp only [List.length_cons] at hlength
        by_cases hfirst : first (skipWhitespace (c :: after)) = 0
        · simp [hzero, heol, occMatchEol_on hblank, atEol, occEatWhitespace_on hblank, hfirst]
        by_cases htarget : (parseTarget (skipWhitespace (c :: after))).1 = .ok
        · have hless := parseTarget_length htarget
          have hnext := ih ((parseTarget_suffix _).trans hline) (by omega)
          simpa [hzero, heol, occMatchEol_on hblank, atEol, occEatWhitespace_on hblank, hfirst,
            occParseTarget_on hline, htarget, on_err] using hnext
        · simp [hzero, heol, occMatchEol_on hblank, atEol, occEatWhitespace_on hblank, hfirst,
            occParseTarget_on hline, htarget, on_err]
      by_cases hslash : c = backslash
      · subst hslash
        have hseen : occMatchEol (.on content (backslash :: after) .ok) = some false :=
          occMatchEol_on hblank
        have hmatch := occMatch_on (e := .ok) hblank backslash
        have hlook := occLook_on (e := .ok) hblank
        have hskip : ∀ count ≤ (backslash :: after).length,
            (OccParser.on content (backslash :: after) .ok).skip count =
              .on content ((backslash :: after).drop count) .ok := fun count => skip_on hblank
        cases after with
        | nil => simp [hseen, hmatch, hlook, occEat_on hblank, hzero, heol]
        | cons d after =>
          have hnext := fun k => (List.drop_suffix k (d :: after)).trans hafter
          by_cases hnul : d = 0
          · subst hnul
            simp [hseen, hmatch, hlook, occEat_on hblank, hzero, heol]
          by_cases hlf : d = lineFeed
          · subst hlf
            have hrest := ih (hnext 1) (by simp at hle ⊢; omega)
            simpa [hseen, hmatch, hlook, hzero, heol, hnul, hskip] using hrest
          by_cases hcr : d = carriageReturn
          · subst hcr
            by_cases hcrlf : first after = lineFeed
            · have hlong : 3 ≤ (backslash :: carriageReturn :: after).length := by
                cases after with
                | nil => exact absurd hcrlf (by decide)
                | cons e after => simp
              have hrest := ih (hnext 2) (by simp at hle ⊢; omega)
              simpa [hseen, hmatch, hlook, hzero, heol, hnul, hlf, hcrlf, hskip _ hlong] using hrest
            · simp [hseen, hmatch, hlook, hzero, heol, hnul, hlf, hcrlf, on_err]
          · simp [hseen, hmatch, hlook, hzero, heol, hnul, hlf, hcr]
      · simp [hzero, heol, hslash, occMatchEol_on hblank, occMatch_on hblank, atEol]

/-! ## A prerequisite -/

/-- The backslashes ahead. -/
def leading (rest : Str) : ℕ := (rest.takeWhile (· = backslash)).length

theorem leading_le (rest : Str) : leading rest ≤ rest.length :=
  (List.takeWhile_prefix _).length_le

theorem leading_cons (rest : Str) : leading (backslash :: rest) = leading rest + 1 := by
  simp [leading]

theorem leading_of_first {rest : Str} (h : first rest ≠ backslash) : leading rest = 0 := by
  cases rest with
  | nil => rfl
  | cons c rest =>
    have hc : c ≠ backslash := h
    simp [leading, hc]

theorem one_le_leading {rest : Str} (h : first rest = backslash) : 1 ≤ leading rest := by
  cases rest with
  | nil => exact absurd h (by decide)
  | cons c rest =>
    obtain rfl : c = backslash := h
    rw [leading_cons]
    omega

theorem countSlashesLoop_on (h : rest <:+ content) {turns slashes : ℕ}
    (hturns : (rest.drop slashes).length < turns) :
    countSlashesLoop (.on content rest e) turns slashes =
      some (slashes + leading (rest.drop slashes)) := by
  induction turns generalizing slashes with
  | zero => omega
  | succ turns ih =>
    rw [countSlashesLoop, occLook_on h]
    cases hdrop : rest.drop slashes with
    | nil => simp [leading, backslash]
    | cons c after =>
      have hafter : rest.drop (slashes + 1) = after := by
        rw [← List.drop_drop, hdrop]; rfl
      rw [hdrop, List.length_cons] at hturns
      by_cases hc : c = backslash
      · subst hc
        have hnext := @ih (slashes + 1) (by rw [hafter]; omega)
        rw [hafter] at hnext
        simp [hnext, leading_cons]
        omega
      · simp [hc, leading_of_first (show first (c :: after) ≠ backslash from hc)]

section

variable (pathMax : ℕ)

/-- `plainTurn` on what is left. -/
def plainRest (rest out : Str) : Except OccErr (Bool × Str × Str) :=
  if first rest = dollar ∧ first (rest.drop 1) = dollar then
    (occPush pathMax out dollar).map fun out => (false, out, rest.drop 2)
  else (occPush pathMax out (first rest)).map fun out => (false, out, rest.drop 1)

/-- `unquotedTurn` on what is left. -/
def turnRest (rest out : Str) : Except OccErr (Bool × Str × Str) :=
  if first rest = backslash then
    let slashes := leading rest
    let next := first (rest.drop slashes)
    if next = 0 then
      (occPushSlashes pathMax (slashes - 1) out).map fun out => (true, out, rest.drop slashes)
    else if occIsEol next then
      (occPushSlashes pathMax (slashes - 1) out).map fun out => (true, out, rest.drop (slashes - 1))
    else if next = space ∨ next = tab then
      (occPushSlashes pathMax (slashes / 2) out >>= (occPush pathMax · next)).map fun out =>
        (false, out, rest.drop (slashes + 1))
    else if next = hash then
      (occPushSlashes pathMax (slashes - 1) out >>= (occPush pathMax · hash)).map fun out =>
        (false, out, rest.drop (slashes + 1))
    else plainRest pathMax rest out
  else plainRest pathMax rest out

/-- A turn's result with the parser that is at what is left. -/
def onRest (content : Str) (e : OccErr) (turn : Bool × Str × Str) : Bool × Str × OccParser :=
  (turn.1, turn.2.1, .on content turn.2.2 e)

theorem exists_of_map_eq_ok {α β : Type} {result : Except OccErr α} {f : α → β} {b : β}
    (h : result.map f = .ok b) : ∃ a, result = .ok a ∧ f a = b := by
  cases result with
  | error err => cases h
  | ok a => exact ⟨a, rfl, Except.ok.inj h⟩

theorem map_map_onRest (result : Except OccErr Str) (last : Bool) (left : Str) :
    (result.map fun out => (last, out, left)).map (onRest content e) =
      result.map fun out => (last, out, OccParser.on content left e) := by
  cases result <;> rfl

theorem plainTurn_on (h : rest <:+ content) (hne : rest ≠ []) (out : Str) :
    plainTurn pathMax (.on content rest e) out =
      some ((plainRest pathMax rest out).map (onRest content e)) := by
  obtain ⟨c, after, rfl⟩ := List.exists_cons_of_ne_nil hne
  have hlook := occLook_on (e := e) h 1
  by_cases hd : c = dollar ∧ first after = dollar
  · have hlong : 2 ≤ (c :: after).length := by
      cases after with
      | nil => exact absurd hd.2 (by decide)
      | cons d after => simp
    obtain ⟨rfl, hafter⟩ := hd
    simp [plainTurn, plainRest, occMatch_on h, hlook, hafter, skip_on h hlong, map_map_onRest]
  · have hfirst : ¬(first (c :: after) = dollar ∧ first ((c :: after).drop 1) = dollar) := hd
    rw [plainRest, if_neg hfirst, first_cons, List.drop_one, List.tail_cons, map_map_onRest]
    simp only [plainTurn, occMatch_on h, hlook, occEat_on h, bind, Option.bind, pure, first_cons,
      List.drop_one, List.tail_cons, Bool.and_eq_true, decide_eq_true_eq]
    exact if_neg fun hboth => hd ⟨of_decide_eq_true hboth.1, hboth.2⟩

theorem unquotedTurn_on (h : rest <:+ content) (hne : rest ≠ []) (out : Str) :
    unquotedTurn pathMax (.on content rest e) out =
      some ((turnRest pathMax rest out).map (onRest content e)) := by
  have hplain := plainTurn_on (e := e) pathMax h hne out
  have hcount : countSlashesLoop (.on content rest e) (OccParser.on content rest e).turns 0 =
      some (leading rest) := by
    have hturns : (rest.drop 0).length < (OccParser.on content rest e).turns := lt_turns h
    rw [countSlashesLoop_on h hturns, List.drop_zero, Nat.zero_add]
  have hle := leading_le rest
  by_cases hslash : first rest = backslash
  · rw [turnRest, if_pos hslash]
    dsimp only
    have hlook := occLook_on (e := e) h (leading rest)
    have hlt : first (rest.drop (leading rest)) ≠ 0 → leading rest + 1 ≤ rest.length := by
      intro hnul
      by_contra hge
      exact hnul (by rw [List.drop_eq_nil_of_le (by omega)]; rfl)
    generalize first (rest.drop (leading rest)) = next at hlook hlt ⊢
    by_cases hnul : next = 0
    · simp [unquotedTurn, occMatch_on h, hslash, hcount, hlook, hnul, skip_on h hle,
        map_map_onRest]
    have hskip := skip_on (e := e) h (hlt hnul)
    by_cases heol : occIsEol next = true
    · have hpred : leading rest - 1 ≤ rest.length := by omega
      simp [unquotedTurn, occMatch_on h, hslash, hcount, hlook, hnul, heol, skip_on h hpred,
        map_map_onRest]
    by_cases hblank : next = space ∨ next = tab
    · simp [unquotedTurn, occMatch_on h, hslash, hcount, hlook, hnul, heol, hblank, hskip,
        map_map_onRest]
    by_cases hhash : next = hash
    · subst hhash
      simp [unquotedTurn, occMatch_on h, hslash, hcount, hlook, hnul, heol, hblank, hskip,
        map_map_onRest]
    · simp [unquotedTurn, occMatch_on h, hslash, hcount, hlook, hnul, heol, hblank, hhash, hplain]
  · simp [unquotedTurn, turnRest, occMatch_on h, hslash, hplain]

/-! ## The end -/

theorem Starts.not_atWhitespace {rest : Str} (h : Starts rest) : atWhitespace rest = false := by
  obtain ⟨hnul, hwhite, -⟩ := h
  cases rest with
  | nil => exact absurd rfl hnul
  | cons c rest => simpa [atWhitespace] using hwhite

variable {pathMax}

/-- A turn takes at least one character, but for one that finds the end of the line right
after a backslash. -/
theorem drop_of_turnRest {rest out out' rest' : Str} {last : Bool}
    (h : turnRest pathMax rest out = .ok (last, out', rest')) :
    ∃ count, rest' = rest.drop count ∧ (1 ≤ count ∨ last = true ∧ ¬Starts rest) := by
  have hplain : plainRest pathMax rest out = .ok (last, out', rest') →
      ∃ count, rest' = rest.drop count ∧ 1 ≤ count := by
    intro h
    unfold plainRest at h
    split_ifs at h
    all_goals
      obtain ⟨_, -, heq⟩ := exists_of_map_eq_ok h
      cases heq
    · exact ⟨2, rfl, by omega⟩
    · exact ⟨1, rfl, le_rfl⟩
  simp only [turnRest] at h
  by_cases hslash : first rest = backslash
  · have hone := one_le_leading hslash
    rw [if_pos hslash] at h
    split_ifs at h with hnul heol
    · obtain ⟨_, -, heq⟩ := exists_of_map_eq_ok h
      cases heq
      exact ⟨leading rest, rfl, Or.inl hone⟩
    · obtain ⟨_, -, heq⟩ := exists_of_map_eq_ok h
      cases heq
      refine ⟨leading rest - 1, rfl, ?_⟩
      by_cases htwo : leading rest = 1
      · refine Or.inr ⟨rfl, fun hstarts => ?_⟩
        rw [htwo, List.drop_one] at heol
        rw [(hstarts.2.2 hslash).2] at heol
        cases heol
      · exact Or.inl (by omega)
    · obtain ⟨_, -, heq⟩ := exists_of_map_eq_ok h
      cases heq
      exact ⟨leading rest + 1, rfl, Or.inl (by omega)⟩
    · obtain ⟨_, -, heq⟩ := exists_of_map_eq_ok h
      cases heq
      exact ⟨leading rest + 1, rfl, Or.inl (by omega)⟩
    · obtain ⟨count, heq, hcount⟩ := hplain h
      exact ⟨count, heq, Or.inl hcount⟩
  · rw [if_neg hslash] at h
    obtain ⟨count, heq, hcount⟩ := hplain h
    exact ⟨count, heq, Or.inl hcount⟩

variable (pathMax)

/-- What a loop over a prerequisite comes to: an error, or a parser further on. -/
def Ends (content rest : Str) (e : OccErr) (result : Option (Except OccErr (Str × OccParser))) :
    Prop :=
  ∃ r, result = some r ∧ ∀ out q, r = .ok (out, q) →
    ∃ rest', q = .on content rest' e ∧ rest' <:+ rest ∧
      (Starts rest → rest'.length < rest.length)

theorem unquotedLoop_ends (h : rest <:+ content) {turns : ℕ} (hturns : rest.length < turns)
    (out : Str) : Ends content rest e (unquotedLoop pathMax turns (.on content rest e) out) := by
  induction turns generalizing rest out with
  | zero => omega
  | succ turns ih =>
    rw [unquotedLoop, occMatchWhitespace_on h]
    cases hwhite : atWhitespace rest with
    | true =>
      refine ⟨_, rfl, fun out' q hq => ?_⟩
      cases hq
      refine ⟨rest, rfl, List.suffix_refl _, fun hstarts => ?_⟩
      rw [hstarts.not_atWhitespace] at hwhite
      cases hwhite
    | false =>
      have hne : rest ≠ [] := by
        intro hnil
        simp [hnil, atWhitespace] at hwhite
      have hturn := unquotedTurn_on (e := e) pathMax h hne out
      cases hresult : turnRest pathMax rest out with
      | error err =>
        rw [hresult] at hturn
        exact ⟨.error err, by simp [hturn, Except.map], fun out' q hq => by cases hq⟩
      | ok turn =>
        obtain ⟨last, out', rest'⟩ := turn
        rw [hresult] at hturn
        obtain ⟨count, rfl, hcount⟩ := drop_of_turnRest hresult
        have hpos : 0 < rest.length := List.length_pos_iff.2 hne
        cases last with
        | true =>
          refine ⟨.ok (out', .on content (rest.drop count) e), ?_, fun out'' q hq => ?_⟩
          · simp [hturn, Except.map, onRest]
          · cases hq
            refine ⟨_, rfl, List.drop_suffix _ _, fun hstarts => ?_⟩
            have hone : 1 ≤ count := hcount.resolve_right fun hlast => hlast.2 hstarts
            rw [List.length_drop]
            omega
        | false =>
          have hone : 1 ≤ count := hcount.resolve_right fun hlast => by cases hlast.1
          obtain ⟨r, hr, hall⟩ := ih ((List.drop_suffix count rest).trans h)
            (by rw [List.length_drop]; omega) out'
          refine ⟨r, by simpa [hturn, Except.map, onRest] using hr, fun out'' q hq => ?_⟩
          obtain ⟨rest', rfl, hsuffix, -⟩ := hall out'' q hq
          refine ⟨rest', rfl, hsuffix.trans (List.drop_suffix _ _), fun _ => ?_⟩
          have hle := hsuffix.length_le
          rw [List.length_drop] at hle
          omega

theorem quotedLoop_ends (h : rest <:+ content) {turns : ℕ} (hturns : rest.length < turns)
    (out : Str) : ∃ r, quotedLoop pathMax turns (.on content rest e) out = some r ∧
      ∀ out' q, r = .ok (out', q) → ∃ rest', q = .on content rest' e ∧ rest' <:+ rest := by
  induction rest generalizing turns out with
  | nil =>
    obtain ⟨turns, rfl⟩ := Nat.exists_eq_succ_of_ne_zero (Nat.ne_of_gt hturns)
    refine ⟨.ok (out, .on content [] e), ?_, fun out' q hq => ?_⟩
    · simp [quotedLoop, occMatchEol_on h, occMatch_on h, atEol]
    · cases hq
      exact ⟨[], rfl, List.suffix_refl _⟩
  | cons c rest ih =>
    obtain ⟨turns, rfl⟩ := Nat.exists_eq_succ_of_ne_zero (Nat.ne_zero_of_lt hturns)
    by_cases hstop : (atEol (c :: rest) || decide (first (c :: rest) = doubleQuote)) = true
    · refine ⟨.ok (out, .on content (c :: rest) e), ?_, fun out' q hq => ?_⟩
      · rw [quotedLoop, occMatchEol_on h, occMatch_on h]
        simp only [bind, Option.bind]
        rw [if_pos hstop]
        rfl
      · cases hq
        exact ⟨c :: rest, rfl, List.suffix_refl _⟩
    · rw [quotedLoop, occMatchEol_on h, occMatch_on h, occEat_on h]
      simp only [bind, Option.bind]
      rw [if_neg hstop]
      cases hpush : occPush pathMax out c with
      | error err => exact ⟨_, rfl, fun out' q hq => by cases hq⟩
      | ok out' =>
        obtain ⟨r, hr, hall⟩ := ih ((List.suffix_cons c rest).trans h)
          (Nat.lt_of_succ_lt_succ hturns) out'
        refine ⟨r, hr, fun out'' q hq => ?_⟩
        obtain ⟨rest', rfl, hsuffix⟩ := hall out'' q hq
        exact ⟨rest', rfl, hsuffix.trans (List.suffix_cons c rest)⟩

theorem occParseOne_ends (h : rest <:+ content) :
    Ends content rest e (occParseOne pathMax (.on content rest e)) := by
  rw [occParseOne, occMatchEat_on h (show doubleQuote ≠ 0 by decide)]
  by_cases hquote : first rest = doubleQuote
  · have htail : rest.tail <:+ content := (List.tail_suffix rest).trans h
    obtain ⟨r, hr, hall⟩ := quotedLoop_ends (e := e) pathMax htail
      (lt_turns (e := e) htail) []
    cases r with
    | error err =>
      exact ⟨.error err, by simp [hquote, hr], fun out q hq => by cases hq⟩
    | ok result =>
      obtain ⟨out, q⟩ := result
      obtain ⟨rest', rfl, hsuffix⟩ := hall out q rfl
      have hclose := occMatchEat_on (e := e) (hsuffix.trans htail) (show doubleQuote ≠ 0 by decide)
      by_cases hend : first rest' = doubleQuote
      · refine ⟨.ok (out, .on content rest'.tail e), by simp [hquote, hr, hclose, hend], ?_⟩
        intro out' q hq
        cases hq
        have hshort : rest'.tail <:+ rest.tail := (List.tail_suffix rest').trans hsuffix
        refine ⟨_, rfl, hshort.trans (List.tail_suffix rest), fun hstarts => ?_⟩
        have hpos : rest ≠ [] := by
          intro hnil
          simp [hnil, doubleQuote] at hquote
        have hle := hshort.length_le
        have hlen := List.length_pos_iff.2 hpos
        rw [List.length_tail (l := rest)] at hle
        omega
      · exact ⟨.error .unterminatedQuote, by simp [hquote, hr, hclose, hend],
          fun out' q hq => by cases hq⟩
  · obtain ⟨r, hr, hall⟩ := unquotedLoop_ends (e := e) pathMax h (lt_turns (e := e) h) []
    exact ⟨r, by simp [hquote, hr], hall⟩

theorem occSeek_on (h : rest <:+ content) :
    occSeek (.on content rest .ok) =
      some ((seekRest rest).1, .on content (seekRest rest).2.1 (seekRest rest).2.2) := by
  rw [occSeek, if_neg (by simp [OccParser.on])]
  exact seekLoop_on h (lt_turns h)

/-- `occ_next` has a result, and a prerequisite takes at least one character. -/
theorem occNext_ends (h : rest <:+ content) :
    ∃ found rest' e', occNext pathMax (.on content rest .ok) = some (found, .on content rest' e') ∧
      rest' <:+ rest ∧ (found ≠ none → e' = .ok ∧ rest'.length < rest.length) := by
  obtain ⟨hsuffix, hstarts⟩ := seekRest_spec rest
  rw [occNext, occSeek_on h]
  cases hfound : (seekRest rest).1 with
  | false =>
    exact ⟨none, (seekRest rest).2.1, (seekRest rest).2.2, by simp, hsuffix, fun h => absurd rfl h⟩
  | true =>
    obtain ⟨r, hr, hall⟩ := occParseOne_ends (e := (seekRest rest).2.2) pathMax
      (hsuffix.trans h)
    cases r with
    | error err =>
      exact ⟨none, (seekRest rest).2.1, err, by simp [hr, on_err], hsuffix, fun h => absurd rfl h⟩
    | ok result =>
      obtain ⟨out, q⟩ := result
      obtain ⟨rest', rfl, hshort, hlt⟩ := hall out q rfl
      refine ⟨some out, rest', .ok, by simp [hr, on_err], hshort.trans hsuffix, fun _ => ⟨rfl, ?_⟩⟩
      exact (hlt (hstarts hfound)).trans_le hsuffix.length_le

theorem prereqsLoop_ends (h : rest <:+ content) {turns : ℕ} (hturns : rest.length < turns) :
    prereqsLoop pathMax turns (.on content rest .ok) ≠ none := by
  induction turns generalizing rest with
  | zero => omega
  | succ turns ih =>
    obtain ⟨found, rest', e', hnext, hsuffix, hlt⟩ := occNext_ends pathMax h
    rw [prereqsLoop, hnext]
    cases found with
    | none => simp
    | some prereq =>
      obtain ⟨rfl, hshort⟩ := hlt (by simp)
      have hrest := ih (hsuffix.trans h) (by omega)
      obtain ⟨result, hresult⟩ := Option.ne_none_iff_exists'.1 hrest
      simp [hresult]

theorem occInit_on (content : Str) :
    occInit content =
      if first (skipWhitespace content) = 0 then some (.on content (skipWhitespace content) .ok)
      else some (.on content (parseTarget (skipWhitespace content)).2
        (parseTarget (skipWhitespace content)).1) := by
  have hstart : (⟨content, 0, .ok⟩ : OccParser) = .on content content .ok := by
    simp [OccParser.on]
  rw [occInit, hstart, occEatWhitespace_on (List.suffix_refl content)]
  by_cases hnul : first (skipWhitespace content) = 0
  · simp [hnul]
  · simp [hnul, occParseTarget_on (skipWhitespace_suffix content), on_err]

/-- Whatever the content is, no read is outside of it and the iteration ends. -/
theorem gnuParseDepfile_ends (content : Str) : gnuParseDepfile pathMax content ≠ none := by
  have hskip := skipWhitespace_suffix content
  have hloop : ∀ rest, rest <:+ content →
      prereqsLoop pathMax (OccParser.on content rest .ok).turns (.on content rest .ok) ≠ none :=
    fun rest h => prereqsLoop_ends pathMax h (lt_turns h)
  rw [gnuParseDepfile, occInit_on]
  split
  · simpa [OccParser.on] using hloop _ hskip
  · have htarget := (parseTarget_suffix (skipWhitespace content)).trans hskip
    cases herr : (parseTarget (skipWhitespace content)).1 with
    | ok => simpa [OccParser.on] using hloop _ htarget
    | missingColon | badContinuation | unterminatedQuote | prereqTooLong => simp [OccParser.on]

end

end

end Spn.Compiler
