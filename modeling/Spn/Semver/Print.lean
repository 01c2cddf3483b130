import Spn.Semver.Meaning

/-! # Writing a range

The other half of `semver/convert.c`: a range is written from its two bounds, and what
the parser makes of the text is the range again, but for ranges that have one version as
both bounds and do not allow it.
-/
namespace Spn.Semver

/-- A `u32` as `sp_fmt` writes it. -/
def decimal (n : ℕ) : List Char := Nat.toDigits 10 n

/-- `spn_semver_to_str`. -/
def versionToStr (v : Version) : List Char :=
  decimal v.major ++ '.' :: (decimal v.minor ++ '.' :: decimal v.patch)

/-- `spn_semver_op_to_str`. -/
def opToStr (op : Op) : List Char := symbol op

/-- `spn_semver_mod_to_str`. -/
def modToStr (mod : Mod) (op : Op) : List Char :=
  match mod with
  | .tilde => ['~']
  | .caret => ['^']
  | .wildcard => ['*']
  | .cmp => opToStr op
  | .none => []

/-- `range.low` is the first version of a major and `range.high` is of the next major. -/
def wholeMajor (range : Range) : Prop :=
  range.low.version.minor = 0 ∧ range.low.version.patch = 0 ∧
    range.high.version.major = u32 (range.low.version.major + 1)

instance (range : Range) : Decidable (wholeMajor range) := by
  unfold wholeMajor; infer_instance

/-- `spn_semver_range_to_str`. -/
def rangeToStr (range : Range) : List Char :=
  match range.mod with
  | .cmp =>
    if range.low.version = range.high.version then '=' :: versionToStr range.low.version
    else if range.low.version = ⟨0, 0, 0⟩ ∧ range.low.op = .geq then
      opToStr range.high.op ++ versionToStr range.high.version
    else opToStr range.low.op ++ versionToStr range.low.version
  | .wildcard =>
    if range.low.version = ⟨0, 0, 0⟩ ∧ range.high.version = ⟨u32Max, u32Max, u32Max⟩ then ['*']
    else if wholeMajor range then decimal range.low.version.major ++ ['.', '*']
    else decimal range.low.version.major ++ '.' :: (decimal range.low.version.minor ++ ['.', '*'])
  | .tilde =>
    -- `~N` spans a whole major, which `~N.0.0` does not
    if wholeMajor range then '~' :: decimal range.low.version.major
    else modToStr range.mod range.low.op ++ versionToStr range.low.version
  | .caret | .none => modToStr range.mod range.low.op ++ versionToStr range.low.version

/-- `spn_semver_from_str`: a number without digits is zero, and what follows is not
looked at. -/
def fromStr (text : List Char) : Version :=
  let (major, text) := parseNumber 0 text
  if peek text ≠ '.' then ⟨major, 0, 0⟩
  else
    let (minor, text) := parseNumber 0 (eat text)
    if peek text ≠ '.' then ⟨major, minor, 0⟩
    else
      let (patch, _) := parseNumber 0 (eat text)
      ⟨major, minor, patch⟩

/-- `spn_semver_parse`: only what is written the way a version is printed is a version. -/
def parse (text : List Char) : Option Version :=
  let version := fromStr text
  if text = [] then none else if text = versionToStr version then some version else none

/-- Both bounds are one version, and not both allow it. -/
def Pinched (range : Range) : Prop :=
  range.mod = .cmp ∧ range.low.version = range.high.version ∧
    ¬(range.low.op = .geq ∧ range.high.op = .leq)

instance (range : Range) : Decidable (Pinched range) := by
  unfold Pinched; infer_instance

/-! ## Numbers and versions -/

theorem isDigit_of_mem_decimal {n : ℕ} {c : Char} (hc : c ∈ decimal n) : isDigit c = true := by
  have h := Nat.isDigit_of_mem_toDigits (by decide) (by decide) hc
  simpa [isDigit, Char.isDigit, Char.le_def] using h

/-- What is written for a number spells it. -/
theorem numeral_decimal (n : ℕ) : Numeral (decimal n) n := by
  refine ⟨Nat.toDigits_ne_nil, fun c hc => isDigit_of_mem_decimal hc, ?_⟩
  have h := Nat.ofDigitChars_ten_toDigits (n := n)
  simpa [value, decimal, Nat.ofDigitChars, digit, Nat.mul_comm] using h

theorem blank_nil : Blank [] := by simp [Blank]

theorem u32_u32 (n : ℕ) : u32 (u32 n) = u32 n := u32_of_lt (u32_lt n)

theorem spelled_versionToStr (v : Version) :
    (Written.patch v.major v.minor v.patch).Spelled (versionToStr v) :=
  .patch (numeral_decimal _) (numeral_decimal _) (numeral_decimal _)

/-! ## The text of a version -/

theorem parseNumber_decimal {n : ℕ} (h : n < 2 ^ 32) {rest : List Char} (hrest : Stops rest) :
    parseNumber 0 (decimal n ++ rest) = (n, rest) := by
  obtain ⟨-, hdigits, hvalue⟩ := numeral_decimal n
  calc parseNumber 0 (decimal n ++ rest)
      = (u32 (value (decimal n)), rest) := parseNumber_spelled hdigits hrest 0
    _ = (n, rest) := by rw [hvalue, u32_of_lt h]

theorem stops_nil : Stops [] := by simp [Stops, isDigit]

theorem stops_dot (rest : List Char) : Stops ('.' :: rest) := by
  simp [Stops, isDigit]

theorem fromStr_versionToStr {v : Version} (h : v.Fits) : fromStr (versionToStr v) = v := by
  obtain ⟨hmajor, hminor, hpatch⟩ := h
  have hend := parseNumber_decimal hpatch stops_nil
  rw [List.append_nil] at hend
  simp only [fromStr, versionToStr, parseNumber_decimal hmajor (stops_dot _), peek_cons, ne_eq,
    not_true_eq_false, if_false, eat_cons, parseNumber_decimal hminor (stops_dot _), hend]

/-- A version is read back. -/
theorem parse_versionToStr {v : Version} (h : v.Fits) : parse (versionToStr v) = some v := by
  have hne : versionToStr v ≠ [] := by simp [versionToStr]
  simp only [parse, fromStr_versionToStr h, if_neg hne, if_true]

theorem parseNumber_lt (text : List Char) {n : ℕ} (h : n < 2 ^ 32) :
    (parseNumber n text).1 < 2 ^ 32 := by
  induction text generalizing n with
  | nil => exact h
  | cons c text ih =>
    rw [parseNumber]
    split
    · exact ih (u32_lt _)
    · exact h

theorem fits_of_parse {text : List Char} {v : Version} (h : parse text = some v) : v.Fits := by
  have hlt := fun text => parseNumber_lt text (n := 0) (by decide)
  unfold parse at h
  simp only [Option.ite_none_left_eq_some, Option.ite_none_right_eq_some, Option.some.injEq] at h
  obtain ⟨-, -, rfl⟩ := h
  unfold fromStr
  simp only
  split_ifs
  · exact ⟨hlt _, Nat.two_pow_pos 32, Nat.two_pow_pos 32⟩
  · exact ⟨hlt _, hlt _, Nat.two_pow_pos 32⟩
  · exact ⟨hlt _, hlt _, hlt _⟩

theorem eq_versionToStr_of_parse {text : List Char} {v : Version} (h : parse text = some v) :
    text = versionToStr v := by
  simp only [parse, Option.ite_none_left_eq_some, Option.ite_none_right_eq_some,
    Option.some.injEq] at h
  obtain ⟨-, hprinted, rfl⟩ := h
  exact hprinted

/-- What is accepted as a version is what a version of three `u32` is printed as, and is read
as that version: a number that wraps is not printed the way it was written. -/
theorem parse_iff_printed (text : List Char) (v : Version) :
    parse text = some v ↔ v.Fits ∧ text = versionToStr v := by
  constructor
  · intro h
    exact ⟨fits_of_parse h, eq_versionToStr_of_parse h⟩
  · intro ⟨hfits, htext⟩
    rw [htext]
    exact parse_versionToStr hfits

/-- A text without blanks around it reads as what it spells. -/
theorem Expr.Spelled.reads {e : Expr} {body : List Char} (h : e.Spelled body) :
    Reads body e :=
  ⟨[], body, [], blank_nil, blank_nil, by simp, h⟩

/-- The numbers of a parsed version are numbers of a `u32`. -/
theorem parsed_parsed (w : Written) :
    (Written.patch w.parsed.version.major w.parsed.version.minor
      w.parsed.version.patch).parsed.version = w.parsed.version := by
  simp [Written.parsed, Written.version, u32_u32]

/-! ## The text of a range -/

/-- Caret, tilde and comparison read the version alone. -/
theorem reads_caret (v : Version) :
    Reads ('^' :: versionToStr v) (.caret (.patch v.major v.minor v.patch)) :=
  (Expr.Spelled.caret blank_nil (spelled_versionToStr v)).reads

theorem reads_tilde (v : Version) :
    Reads ('~' :: versionToStr v) (.tilde (.patch v.major v.minor v.patch)) :=
  (Expr.Spelled.tilde blank_nil (spelled_versionToStr v)).reads

theorem reads_compare (op : Op) (v : Version) :
    Reads (opToStr op ++ versionToStr v) (.compare op (.patch v.major v.minor v.patch)) :=
  (Expr.Spelled.compare blank_nil (spelled_versionToStr v)).reads

/-- The text of a comparison gives the comparison of the version it is written with. -/
theorem parseRange_compare (op : Op) (w : Written) :
    parseRange (opToStr op ++ versionToStr w.parsed.version) =
      some (comparisonToRange op w.parsed.version) := by
  rw [parseRange_of_reads (reads_compare op _), Expr.range, parsed_parsed]

/-- A bumped number is another one, also where it wraps. -/
theorem u32_succ_ne (n : ℕ) : u32 n ≠ u32 (u32 n + 1) := by
  unfold u32
  omega

theorem rangeToStr_caret (parsed : Parsed) :
    rangeToStr (caretToRange parsed) = '^' :: versionToStr parsed.version := by
  unfold caretToRange
  simp only
  split_ifs <;> rfl

theorem caretToRange_congr {p q : Parsed} (h : p.version = q.version) :
    caretToRange p = caretToRange q := by
  simp only [caretToRange, h]

theorem parseRange_caret (w : Written) :
    parseRange (rangeToStr (caretToRange w.parsed)) = some (caretToRange w.parsed) := by
  rw [rangeToStr_caret, parseRange_of_reads (reads_caret _), Expr.range]
  exact congrArg some (caretToRange_congr (parsed_parsed w))

theorem parseRange_tilde (w : Written) :
    parseRange (rangeToStr (tildeToRange w.parsed)) = some (tildeToRange w.parsed) := by
  cases w with
  | major a =>
    have hreads : Reads ('~' :: decimal (u32 a)) (.tilde (.major (u32 a))) :=
      (Expr.Spelled.tilde blank_nil (.major (numeral_decimal _))).reads
    have htext : rangeToStr (tildeToRange (Written.major a).parsed) = '~' :: decimal (u32 a) := by
      simp [rangeToStr, tildeToRange, Written.parsed, Written.version, Written.components,
        wholeMajor]
    rw [htext, parseRange_of_reads hreads]
    simp [Expr.range, tildeToRange, Written.parsed, Written.version, Written.components, u32_u32]
  | minor a b =>
    have htext : rangeToStr (tildeToRange (Written.minor a b).parsed) =
        '~' :: versionToStr ⟨u32 a, u32 b, 0⟩ := by
      simp [rangeToStr, tildeToRange, Written.parsed, Written.version, Written.components,
        wholeMajor, modToStr, u32_succ_ne]
    rw [htext, parseRange_of_reads (reads_tilde _)]
    simp [Expr.range, tildeToRange, Written.parsed, Written.version, Written.components, u32_u32]
  | patch a b c =>
    have htext : rangeToStr (tildeToRange (Written.patch a b c).parsed) =
        '~' :: versionToStr ⟨u32 a, u32 b, u32 c⟩ := by
      simp [rangeToStr, tildeToRange, Written.parsed, Written.version, Written.components,
        wholeMajor, modToStr, u32_succ_ne]
    rw [htext, parseRange_of_reads (reads_tilde _)]
    simp [Expr.range, tildeToRange, Written.parsed, Written.version, Written.components, u32_u32]

/-- The largest version is written in full. -/
theorem parseRange_leq_max :
    parseRange (opToStr .leq ++ versionToStr ⟨u32Max, u32Max, u32Max⟩) =
      some (comparisonToRange .leq ⟨u32Max, u32Max, u32Max⟩) := by
  have h := parseRange_compare .leq (.patch u32Max u32Max u32Max)
  simpa only [Written.parsed, Written.version, u32_of_lt (show u32Max < 2 ^ 32 by decide)] using h

theorem parseRange_comparison (op : Op) (w : Written)
    (h : ¬Pinched (comparisonToRange op w.parsed.version)) :
    parseRange (rangeToStr (comparisonToRange op w.parsed.version)) =
      some (comparisonToRange op w.parsed.version) := by
  have hop := fun op => parseRange_compare op w
  generalize w.parsed.version = v at h hop
  cases op with
  | eq =>
    have htext : rangeToStr (comparisonToRange .eq v) = opToStr .eq ++ versionToStr v := by
      simp [rangeToStr, comparisonToRange, opToStr, symbol]
    rw [htext, hop]
  | geq =>
    by_cases hmax : v = ⟨u32Max, u32Max, u32Max⟩
    · have htext : rangeToStr (comparisonToRange .geq v) = opToStr .eq ++ versionToStr v := by
        simp [rangeToStr, comparisonToRange, hmax, opToStr, symbol]
      rw [htext, hop, hmax]
      rfl
    · by_cases hzero : v = ⟨0, 0, 0⟩
      · have htext : rangeToStr (comparisonToRange .geq v) =
            opToStr .leq ++ versionToStr ⟨u32Max, u32Max, u32Max⟩ := by
          simp [rangeToStr, comparisonToRange, hzero, u32Max]
        rw [htext, parseRange_leq_max, hzero]
        rfl
      · have htext : rangeToStr (comparisonToRange .geq v) = opToStr .geq ++ versionToStr v := by
          simp [rangeToStr, comparisonToRange, hmax, hzero]
        rw [htext, hop]
  | gt =>
    have hmax : v ≠ ⟨u32Max, u32Max, u32Max⟩ := fun hv => h ⟨rfl, hv, by simp [comparisonToRange]⟩
    have htext : rangeToStr (comparisonToRange .gt v) = opToStr .gt ++ versionToStr v := by
      simp [rangeToStr, comparisonToRange, hmax]
    rw [htext, hop]
  | leq =>
    by_cases hzero : v = ⟨0, 0, 0⟩
    · have htext : rangeToStr (comparisonToRange .leq v) = opToStr .eq ++ versionToStr v := by
        simp [rangeToStr, comparisonToRange, hzero, opToStr, symbol]
      rw [htext, hop, hzero]
      rfl
    · have htext : rangeToStr (comparisonToRange .leq v) = opToStr .leq ++ versionToStr v := by
        simp [rangeToStr, comparisonToRange, Ne.symm hzero]
      rw [htext, hop]
  | lt =>
    have hzero : ⟨0, 0, 0⟩ ≠ v := fun hv => h ⟨rfl, hv, by simp [comparisonToRange]⟩
    have htext : rangeToStr (comparisonToRange .lt v) = opToStr .lt ++ versionToStr v := by
      simp [rangeToStr, comparisonToRange, hzero]
    rw [htext, hop]

/-- A range that was read is written so that it is read again. -/
theorem parseRange_rangeToStr_range (e : Expr) (h : ¬Pinched e.range) :
    parseRange (rangeToStr e.range) = some e.range := by
  cases e with
  | any => exact parseRange_of_reads Expr.Spelled.any.reads
  | bare w | caret w => exact parseRange_caret w
  | tilde w => exact parseRange_tilde w
  | compare op w => exact parseRange_comparison op w h
  | anyMinor a =>
    have hreads : Reads (decimal (u32 a) ++ ['.', '*']) (.anyMinor (u32 a)) :=
      (Expr.Spelled.anyMinor (numeral_decimal _)).reads
    have htext : rangeToStr (Expr.anyMinor a).range = decimal (u32 a) ++ ['.', '*'] := by
      simp [rangeToStr, Expr.range, wildcardToRange, Written.parsed, Written.version,
        Written.components, wholeMajor, u32Max]
    rw [htext, parseRange_of_reads hreads]
    simp [Expr.range, wildcardToRange, Written.parsed, Written.version, Written.components, u32_u32]
  | anyPatch a b =>
    have hreads : Reads (decimal (u32 a) ++ '.' :: (decimal (u32 b) ++ ['.', '*']))
        (.anyPatch (u32 a) (u32 b)) :=
      (Expr.Spelled.anyPatch (numeral_decimal _) (numeral_decimal _)).reads
    have htext : rangeToStr (Expr.anyPatch a b).range =
        decimal (u32 a) ++ '.' :: (decimal (u32 b) ++ ['.', '*']) := by
      simp [rangeToStr, Expr.range, wildcardToRange, Written.parsed, Written.version,
        Written.components, wholeMajor, u32Max, u32_succ_ne]
    rw [htext, parseRange_of_reads hreads]
    simp [Expr.range, wildcardToRange, Written.parsed, Written.version, Written.components, u32_u32]

/-- A range that was read comes back from its text just when it is not pinched: a pinched
one comes back as the range that allows its bound. -/
theorem parseRange_rangeToStr {text : List Char} {range : Range}
    (h : parseRange text = some range) :
    parseRange (rangeToStr range) = some range ↔ ¬Pinched range := by
  obtain ⟨e, hreads⟩ := exists_reads h
  rw [parseRange_of_reads hreads, Option.some.injEq] at h
  subst h
  refine ⟨fun hback hp => ?_, parseRange_rangeToStr_range e⟩
  obtain ⟨hmod, heq, hops⟩ := hp
  have htext : rangeToStr e.range = opToStr .eq ++ versionToStr e.range.low.version := by
    simp only [rangeToStr, hmod, if_pos heq]
    rfl
  rw [htext, parseRange_of_reads (reads_compare .eq _), Option.some.injEq] at hback
  refine hops ?_
  rw [← hback]
  exact ⟨rfl, rfl⟩

/-! ## The versions of a range that is read back -/

/-- Two ranges hold the same versions. -/
def SameVersions (r s : Range) : Prop := ∀ v : Version, v.Fits → v.inRange r = v.inRange s

/-- A pinched range is below the first version or above the last. -/
theorem Pinched.spec {e : Expr} (h : Pinched e.range) :
    e.range = comparisonToRange .lt ⟨0, 0, 0⟩ ∨
      e.range = comparisonToRange .gt ⟨u32Max, u32Max, u32Max⟩ := by
  obtain ⟨hmod, heq, hops⟩ := h
  cases e with
  | any | bare w | caret w | anyMinor a | anyPatch a b => simp [Expr.range, wildcardToRange,
      caretToRange, apply_ite Range.mod, Written.parsed, Written.components, Parsed.zero] at hmod
  | tilde w => simp [Expr.range, tildeToRange, apply_ite Range.mod] at hmod
  | compare op w =>
    cases op with
    | eq | geq | leq => exact absurd ⟨rfl, rfl⟩ hops
    | gt =>
      have hmax : w.parsed.version = ⟨u32Max, u32Max, u32Max⟩ := heq
      exact Or.inr (by rw [Expr.range, hmax])
    | lt =>
      have hzero : ⟨0, 0, 0⟩ = w.parsed.version := heq
      exact Or.inl (by rw [Expr.range, ← hzero])

/-- The text of a pinched range is that of its one bound, which is then allowed. -/
theorem Pinched.not_same {e : Expr} (h : Pinched e.range) {back : Range}
    (hback : parseRange (rangeToStr e.range) = some back) : ¬SameVersions back e.range := by
  -- the bound itself is in the range that comes back
  have habsurd : ∀ v op, v.Fits → e.range = comparisonToRange op v →
      rangeToStr e.range = opToStr .eq ++ versionToStr v →
      v.inRange (comparisonToRange op v) = false → v.inRange (comparisonToRange .eq v) = true →
      ¬SameVersions back e.range := by
    intro v op hv hrange htext hout hin hsame
    rw [htext, parseRange_of_reads (reads_compare .eq v), Option.some.injEq] at hback
    have hagree := hsame v hv
    rw [← hback, hrange, hout] at hagree
    have hall : v.inRange (Expr.compare .eq (.patch v.major v.minor v.patch)).range = true := by
      obtain ⟨hmajor, hminor, hpatch⟩ := hv
      simpa only [Expr.range, Written.parsed, Written.version, u32_of_lt hmajor, u32_of_lt hminor,
        u32_of_lt hpatch] using hin
    rw [hall] at hagree
    cases hagree
  obtain hlow | hhigh := h.spec
  · exact habsurd ⟨0, 0, 0⟩ .lt (by decide) hlow (by rw [hlow]; rfl) (by decide) (by decide)
  · exact habsurd ⟨u32Max, u32Max, u32Max⟩ .gt (by decide) hhigh (by rw [hhigh]; rfl) (by decide)
      (by decide)

/-- The text of a range that was read is read as a range of the same versions just when
the range is not pinched. -/
theorem rangeToStr_same_versions {text : List Char} {range : Range}
    (h : parseRange text = some range) :
    (∃ back, parseRange (rangeToStr range) = some back ∧ SameVersions back range) ↔ ¬Pinched range := by
  obtain ⟨e, hreads⟩ := exists_reads h
  rw [parseRange_of_reads hreads, Option.some.injEq] at h
  subst h
  constructor
  · intro ⟨back, hback, hsame⟩ hp
    exact hp.not_same hback hsame
  · intro hp
    exact ⟨e.range, parseRange_rangeToStr_range e hp, fun _ _ => rfl⟩

/-- `~1.2` is printed as `~1.2.0`. -/
theorem rangeToStr_same_versions_tilde :
    ∃ back, parseRange (rangeToStr (tildeToRange (Written.minor 1 2).parsed)) = some back ∧
      SameVersions back (tildeToRange (Written.minor 1 2).parsed) :=
  (@rangeToStr_same_versions "~1.2".toList _ (by decide)).2 (by decide)

/-- `<0.0.0` holds no version, and is printed as `=0.0.0`, which holds one. -/
theorem below_zero_widens :
    parseRange "<0.0.0".toList = some (comparisonToRange .lt ⟨0, 0, 0⟩) ∧
    ¬∃ back, parseRange (rangeToStr (comparisonToRange .lt ⟨0, 0, 0⟩)) = some back ∧
      SameVersions back (comparisonToRange .lt ⟨0, 0, 0⟩) := by
  have hback : parseRange (rangeToStr (comparisonToRange .lt ⟨0, 0, 0⟩)) =
      some (comparisonToRange .eq ⟨0, 0, 0⟩) := by decide
  refine ⟨by decide, ?_⟩
  intro ⟨back, hsome, hsame⟩
  rw [hback, Option.some.injEq] at hsome
  subst hsome
  exact absurd (hsame ⟨0, 0, 0⟩ (by decide)) (by decide)

end Spn.Semver
