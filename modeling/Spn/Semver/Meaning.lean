import Spn.Semver.Parse

/-! # What a range says

The texts of the grammar with the sets of versions they stand for, over the
natural numbers and apart from the parser: a text is *read* as an expression, and
the expression *means* a set. `parseRange_spec` says that the parser accepts
exactly the texts that have a reading and yields the range of the reading with
every number taken modulo `2 ^ 32`.
-/
namespace Spn

/-- The three numbers, compared from the left. -/
def Version.triple (v : Version) : ℕ ×ₗ ℕ ×ₗ ℕ := toLex (v.major, toLex (v.minor, v.patch))

/-- Every number fits the fields of a `spn_semver_t`. -/
def Version.Fits (v : Version) : Prop :=
  v.major < 2 ^ 32 ∧ v.minor < 2 ^ 32 ∧ v.patch < 2 ^ 32

instance (v : Version) : Decidable v.Fits := by
  unfold Version.Fits; infer_instance

namespace Version

/-- What `^` stops before: the leftmost component that is not zero is bumped, the
patch when all are zero. -/
def bump (v : Version) : Version :=
  if v.major ≠ 0 then ⟨v.major + 1, 0, 0⟩
  else if v.minor ≠ 0 then ⟨0, v.minor + 1, 0⟩
  else ⟨0, 0, v.patch + 1⟩

theorem triple_lt {v w : Version} : v.triple < w.triple ↔ v.major < w.major ∨
    v.major = w.major ∧ (v.minor < w.minor ∨ v.minor = w.minor ∧ v.patch < w.patch) := by
  simp [triple, Prod.Lex.toLex_lt_toLex]

theorem triple_le {v w : Version} : v.triple ≤ w.triple ↔ v.major < w.major ∨
    v.major = w.major ∧ (v.minor < w.minor ∨ v.minor = w.minor ∧ v.patch ≤ w.patch) := by
  simp [triple, Prod.Lex.toLex_le_toLex]

theorem triple_inj {v w : Version} : v.triple = w.triple ↔ v = w := by
  cases v; cases w
  simp [triple]

theorem leq_iff {v w : Version} : v.leq w = true ↔ v.triple ≤ w.triple := by
  rw [triple_le, leq]
  grind

theorem le_iff {v w : Version} : v.le w = true ↔ v.triple < w.triple := by
  rw [triple_lt, le]
  grind

theorem geq_iff {v w : Version} : v.geq w = true ↔ w.triple ≤ v.triple := by
  rw [triple_le, geq]
  grind

theorem ge_iff {v w : Version} : v.ge w = true ↔ w.triple < v.triple := by
  rw [triple_lt, ge]
  grind

end Version

namespace Semver

/-- One to three numbers, as they are written. -/
inductive Written
  | major (a : ℕ)
  | minor (a b : ℕ)
  | patch (a b c : ℕ)
  deriving DecidableEq

/-- An absent component is zero. -/
def Written.version : Written → Version
  | .major a => ⟨a, 0, 0⟩
  | .minor a b => ⟨a, b, 0⟩
  | .patch a b c => ⟨a, b, c⟩

/-- The components that are given. -/
def Written.components : Written → Components
  | .major _ => ⟨true, false, false⟩
  | .minor _ _ => ⟨true, true, false⟩
  | .patch _ _ _ => ⟨true, true, true⟩

/-- What `~` stops before: the next minor, or the next major when only the major
is given. -/
def Written.next : Written → Version
  | .major a => ⟨a + 1, 0, 0⟩
  | .minor a b | .patch a b _ => ⟨a, b + 1, 0⟩

/-- What a text of the grammar says. -/
inductive Expr
  | any
  | bare (w : Written)
  | caret (w : Written)
  | tilde (w : Written)
  | compare (op : Op) (w : Written)
  | anyMinor (a : ℕ)
  | anyPatch (a b : ℕ)
  deriving DecidableEq

/-- The versions an expression allows. -/
def Expr.means : Expr → Set Version
  | .any => Set.univ
  | .bare w | .caret w =>
    {v | w.version.triple ≤ v.triple ∧ v.triple < (w.version.bump).triple}
  | .tilde w => {v | w.version.triple ≤ v.triple ∧ v.triple < w.next.triple}
  | .compare .lt w => {v | v.triple < w.version.triple}
  | .compare .leq w => {v | v.triple ≤ w.version.triple}
  | .compare .gt w => {v | w.version.triple < v.triple}
  | .compare .geq w => {v | w.version.triple ≤ v.triple}
  | .compare .eq w => {v | v = w.version}
  | .anyMinor a => {v | v.major = a}
  | .anyPatch a b => {v | v.major = a ∧ v.minor = b}

/-- The numbers of the text and the bumped bound fit in 32 bits. -/
def Expr.Fits : Expr → Prop
  | .any => True
  | .bare w | .caret w => w.version.Fits ∧ (w.version.bump).Fits
  | .tilde w => w.version.Fits ∧ w.next.Fits
  | .compare _ w => w.version.Fits
  | .anyMinor a => a + 1 < 2 ^ 32
  | .anyPatch a b => a < 2 ^ 32 ∧ b + 1 < 2 ^ 32

/-- The number a run of digits stands for. -/
def value (digits : List Char) : ℕ := digits.foldl (fun n c => n * 10 + digit c) 0

/-- The digits spell the number. -/
def Numeral (digits : List Char) (n : ℕ) : Prop :=
  digits ≠ [] ∧ (∀ c ∈ digits, isDigit c = true) ∧ value digits = n

/-- Only blanks. -/
def Blank (text : List Char) : Prop := ∀ c ∈ text, isWhitespace c = true

/-- The spelling of a written version. -/
inductive Written.Spelled : Written → List Char → Prop
  | major {a ds} : Numeral ds a → Spelled (.major a) ds
  | minor {a b ds es} : Numeral ds a → Numeral es b → Spelled (.minor a b) (ds ++ '.' :: es)
  | patch {a b c ds es fs} : Numeral ds a → Numeral es b → Numeral fs c →
      Spelled (.patch a b c) (ds ++ '.' :: (es ++ '.' :: fs))

/-- The text of an operator. -/
def symbol : Op → List Char
  | .lt => ['<']
  | .leq => ['<', '=']
  | .gt => ['>']
  | .geq => ['>', '=']
  | .eq => ['=']

/-- The spelling of an expression, without the blanks around it. -/
inductive Expr.Spelled : Expr → List Char → Prop
  | any : Spelled .any ['*']
  | bare {w cs} : w.Spelled cs → Spelled (.bare w) cs
  | caret {w ws cs} : Blank ws → w.Spelled cs → Spelled (.caret w) ('^' :: (ws ++ cs))
  | tilde {w ws cs} : Blank ws → w.Spelled cs → Spelled (.tilde w) ('~' :: (ws ++ cs))
  | compare {op w ws cs} : Blank ws → w.Spelled cs →
      Spelled (.compare op w) (symbol op ++ (ws ++ cs))
  | anyMinor {a ds} : Numeral ds a → Spelled (.anyMinor a) (ds ++ ['.', '*'])
  | anyPatch {a b ds es} : Numeral ds a → Numeral es b →
      Spelled (.anyPatch a b) (ds ++ '.' :: (es ++ ['.', '*']))

/-- The text can be read as the expression. -/
def Reads (text : List Char) (e : Expr) : Prop :=
  ∃ ws body ws', Blank ws ∧ Blank ws' ∧ text = ws ++ (body ++ ws') ∧ e.Spelled body

/-! ## The parser accepts the grammar -/

/-- What the parser makes of a written version. -/
def Written.parsed (w : Written) : Parsed :=
  ⟨⟨u32 w.version.major, u32 w.version.minor, u32 w.version.patch⟩, w.components⟩

/-- What the parser makes of an expression. -/
def Expr.range : Expr → Range
  | .any => wildcardToRange Parsed.zero
  | .bare w | .caret w => caretToRange w.parsed
  | .tilde w => tildeToRange w.parsed
  | .compare op w => comparisonToRange op w.parsed.version
  | .anyMinor a => wildcardToRange (Written.major a).parsed
  | .anyPatch a b => wildcardToRange (Written.minor a b).parsed

@[simp] theorem peek_nil : peek [] = '\x00' := rfl
@[simp] theorem peek_cons (c : Char) (text : List Char) : peek (c :: text) = c := rfl
@[simp] theorem eat_cons (c : Char) (text : List Char) : eat (c :: text) = text := rfl

@[simp] theorem u32_zero : u32 0 = 0 := rfl

theorem u32_of_lt {n : ℕ} (h : n < 2 ^ 32) : u32 n = n := Nat.mod_eq_of_lt h

theorem u32_lt (n : ℕ) : u32 n < 2 ^ 32 := Nat.mod_lt _ (by decide)

theorem u32_step (n d : ℕ) : u32 (u32 n * 10 + d) = u32 (n * 10 + d) := by
  unfold u32; omega

/-- No digit follows. -/
def Stops (text : List Char) : Prop := isDigit (peek text) = false

theorem parseNumber_spelled {digits rest : List Char} (hd : ∀ c ∈ digits, isDigit c = true)
    (hr : Stops rest) (n : ℕ) : parseNumber (u32 n) (digits ++ rest) =
      (u32 (digits.foldl (fun n c => n * 10 + digit c) n), rest) := by
  induction digits generalizing n with
  | nil =>
    cases rest with
    | nil => rfl
    | cons c rest =>
      have hc : isDigit c = false := hr
      simp [parseNumber, hc]
  | cons c digits ih =>
    have hc : isDigit c = true := hd c (by simp)
    simp only [List.cons_append, parseNumber, hc, if_true, u32_step, List.foldl_cons]
    exact ih (fun c h => hd c (by simp [h])) _

/-- Every text is a run of digits and a rest that does not start with one. -/
theorem exists_digits (text : List Char) : ∃ digits rest, text = digits ++ rest ∧
    (∀ c ∈ digits, isDigit c = true) ∧ Stops rest := by
  induction text with
  | nil => exact ⟨[], [], rfl, by simp, rfl⟩
  | cons c text ih =>
    obtain ⟨digits, rest, rfl, hd, hr⟩ := ih
    by_cases hc : isDigit c = true
    · exact ⟨c :: digits, rest, rfl, by simpa [hc] using hd, hr⟩
    · exact ⟨[], c :: (digits ++ rest), rfl, by simp, by simpa [Stops] using hc⟩

theorem parseComponent_spelled {digits rest : List Char} {n : ℕ} (hd : Numeral digits n)
    (hr : Stops rest) : parseComponent (digits ++ rest) = some (u32 n, rest) := by
  obtain ⟨hne, hall, rfl⟩ := hd
  have h := parseNumber_spelled hall hr 0
  rw [u32_zero] at h
  rw [parseComponent, h]
  simp [value, hne]

theorem exists_of_parseComponent {text rest : List Char} {v : ℕ}
    (h : parseComponent text = some (v, rest)) : ∃ digits n,
      text = digits ++ rest ∧ Numeral digits n ∧ v = u32 n := by
  obtain ⟨digits, rest', rfl, hd, hr⟩ := exists_digits text
  have hp := parseNumber_spelled hd hr 0
  rw [u32_zero] at hp
  rw [parseComponent, hp] at h
  by_cases hne : digits = []
  · simp [hne] at h
  · simp only [List.length_append, ne_eq, Option.ite_none_right_eq_some, Option.some.injEq,
      Prod.mk.injEq] at h
    obtain ⟨-, rfl, rfl⟩ := h
    exact ⟨digits, _, rfl, ⟨hne, hd, rfl⟩, rfl⟩

theorem Numeral.peek_isDigit {digits : List Char} {n : ℕ} (h : Numeral digits n)
    (rest : List Char) : isDigit (peek (digits ++ rest)) = true := by
  obtain ⟨hne, hall, -⟩ := h
  cases digits with
  | nil => exact absurd rfl hne
  | cons c digits => exact hall c (by simp)

theorem Written.Spelled.peek_isDigit {w : Written} {cs : List Char} (h : w.Spelled cs)
    (rest : List Char) : isDigit (peek (cs ++ rest)) = true := by
  cases h with
  | major ha => exact ha.peek_isDigit rest
  | minor ha | patch ha => simpa using ha.peek_isDigit _

theorem ne_of_isDigit {c d : Char} (h : isDigit c = true) (hd : isDigit d = false) : c ≠ d := by
  rintro rfl
  rw [h] at hd
  cases hd

theorem isWhitespace_of_isDigit {c : Char} (h : isDigit c = true) : isWhitespace c = false := by
  by_contra hw
  have : c = ' ' ∨ c = '\t' ∨ c = '\n' := by
    simp only [isWhitespace, Bool.or_eq_true, beq_iff_eq, Bool.not_eq_false] at hw
    tauto
  rcases this with rfl | rfl | rfl <;> revert h <;> decide

/-- What can follow an accepted text: nothing or a blank. -/
theorem Blank.peek {ws : List Char} (h : Blank ws) :
    Semver.peek ws ∈ ['\x00', ' ', '\t', '\n'] := by
  cases ws with
  | nil => simp
  | cons c ws => simpa [isWhitespace, or_assoc] using Or.inr (h c (by simp))

theorem Blank.stops {ws : List Char} (h : Blank ws) : Stops ws := by
  have : ∀ c ∈ ['\x00', ' ', '\t', '\n'], isDigit c = false := by simp [isDigit]
  exact this _ h.peek

theorem Blank.peek_ne_dot {ws : List Char} (h : Blank ws) : Semver.peek ws ≠ '.' := by
  intro he
  have := h.peek
  rw [he] at this
  revert this; decide

theorem eatWhitespace_append {ws rest : List Char} (h : Blank ws)
    (hr : isWhitespace (peek rest) = false) : eatWhitespace (ws ++ rest) = rest := by
  induction ws with
  | nil =>
    cases rest with
    | nil => rfl
    | cons c rest =>
      have hc : isWhitespace c = false := hr
      simp [eatWhitespace, hc]
  | cons c ws ih =>
    have hc : isWhitespace c = true := h c (by simp)
    simpa [eatWhitespace, hc] using ih fun c hm => h c (by simp [hm])

theorem exists_eatWhitespace (text : List Char) :
    ∃ ws, Blank ws ∧ text = ws ++ eatWhitespace text := by
  induction text with
  | nil => exact ⟨[], by simp [Blank], rfl⟩
  | cons c text ih =>
    obtain ⟨ws, hws, heq⟩ := ih
    by_cases hc : isWhitespace c = true
    · refine ⟨c :: ws, by simpa [Blank, hc] using hws, ?_⟩
      simp only [eatWhitespace, hc, if_true, List.cons_append]
      rw [← heq]
    · exact ⟨[], by simp [Blank], by simp [eatWhitespace, hc]⟩

theorem eatWhitespace_eq_nil {text : List Char} : eatWhitespace text = [] ↔ Blank text := by
  constructor
  · intro h
    obtain ⟨ws, hws, heq⟩ := exists_eatWhitespace text
    rw [heq, h, List.append_nil]
    exact hws
  · intro h
    have hend : isWhitespace (peek []) = false := rfl
    have happend := eatWhitespace_append h hend
    rwa [List.append_nil] at happend

theorem parseVersion_spelled {w : Written} {cs rest : List Char} (h : w.Spelled cs)
    (hr : Blank rest) (wild : Bool) :
    parseVersion wild (cs ++ rest) = some (w.parsed, false, rest) := by
  cases h with
  | major ha =>
    simp [parseVersion, parseComponent_spelled ha hr.stops, hr.peek_ne_dot, Written.parsed,
      Written.version, Written.components]
  | @minor a b ds es ha hb =>
    have h₁ : Stops ('.' :: (es ++ rest)) := rfl
    have hstar : peek (es ++ rest) ≠ '*' := ne_of_isDigit (hb.peek_isDigit rest) rfl
    simp [parseVersion, parseComponent_spelled ha h₁, parseComponent_spelled hb hr.stops, hstar,
      hr.peek_ne_dot, Written.parsed, Written.version, Written.components]
  | @patch a b c ds es fs ha hb hc =>
    have h₁ : Stops ('.' :: (es ++ '.' :: (fs ++ rest))) := rfl
    have h₂ : Stops ('.' :: (fs ++ rest)) := rfl
    have hstar : peek (es ++ '.' :: (fs ++ rest)) ≠ '*' := ne_of_isDigit (hb.peek_isDigit _) rfl
    have hstar' : peek (fs ++ rest) ≠ '*' := ne_of_isDigit (hc.peek_isDigit rest) rfl
    simp [parseVersion, parseComponent_spelled ha h₁, parseComponent_spelled hb h₂,
      parseComponent_spelled hc hr.stops, hstar, hstar', Written.parsed, Written.version,
      Written.components]

theorem parseVersion_anyMinor {ds rest : List Char} {a : ℕ} (ha : Numeral ds a) :
    parseVersion true (ds ++ '.' :: '*' :: rest) =
      some ((Written.major a).parsed, true, rest) := by
  have h₁ : Stops ('.' :: '*' :: rest) := rfl
  simp [parseVersion, parseComponent_spelled ha h₁, Written.parsed, Written.version,
    Written.components]

theorem parseVersion_anyPatch {ds es rest : List Char} {a b : ℕ} (ha : Numeral ds a)
    (hb : Numeral es b) : parseVersion true (ds ++ '.' :: (es ++ '.' :: '*' :: rest)) =
      some ((Written.minor a b).parsed, true, rest) := by
  have h₁ : Stops ('.' :: (es ++ '.' :: '*' :: rest)) := rfl
  have h₂ : Stops ('.' :: '*' :: rest) := rfl
  have hstar : peek (es ++ '.' :: '*' :: rest) ≠ '*' := ne_of_isDigit (hb.peek_isDigit _) rfl
  simp [parseVersion, parseComponent_spelled ha h₁, parseComponent_spelled hb h₂, hstar,
    Written.parsed, Written.version, Written.components]

theorem parseRangeBody_of_isDigit {text : List Char} (hd : isDigit (peek text) = true) :
    parseRangeBody text = (parseVersion true text).bind fun (parsed, wildcard, rest) =>
      some (if wildcard then wildcardToRange parsed else caretToRange parsed, rest) := by
  have h₁ : peek text ≠ '*' := ne_of_isDigit hd rfl
  have h₂ : ¬(peek text = '^' ∨ peek text = '~') :=
    not_or.2 ⟨ne_of_isDigit hd rfl, ne_of_isDigit hd rfl⟩
  have h₃ : ¬(peek text = '>' ∨ peek text = '<' ∨ peek text = '=') :=
    not_or.2 ⟨ne_of_isDigit hd rfl, not_or.2 ⟨ne_of_isDigit hd rfl, ne_of_isDigit hd rfl⟩⟩
  simp only [parseRangeBody, h₁, h₂, h₃, hd, if_true, if_false]
  rfl

theorem parseRangeBody_spelled {e : Expr} {body rest : List Char} (h : e.Spelled body)
    (hr : Blank rest) : parseRangeBody (body ++ rest) = some (e.range, rest) := by
  have hskip : ∀ {w : Written} {ws cs : List Char}, Blank ws → w.Spelled cs →
      eatWhitespace (ws ++ (cs ++ rest)) = cs ++ rest := fun hws hw =>
    eatWhitespace_append hws (isWhitespace_of_isDigit (hw.peek_isDigit rest))
  cases h with
  | any => simp [parseRangeBody, Expr.range]
  | bare hw =>
    simp [parseRangeBody_of_isDigit (hw.peek_isDigit rest), parseVersion_spelled hw hr, Expr.range]
  | caret hws hw =>
    simp [parseRangeBody, hskip hws hw, parseVersion_spelled hw hr, Expr.range]
  | tilde hws hw =>
    simp [parseRangeBody, hskip hws hw, parseVersion_spelled hw hr, Expr.range]
  | @compare op w ws cs hws hw =>
    have hne : peek (ws ++ (cs ++ rest)) ≠ '=' := by
      cases ws with
      | nil => exact ne_of_isDigit (hw.peek_isDigit rest) rfl
      | cons c ws =>
        intro he
        have hc : isWhitespace c = true := hws c (by simp)
        rw [List.cons_append, peek_cons] at he
        rw [he] at hc
        cases hc
    cases op <;>
      simp [parseRangeBody, symbol, parseOp, hne, hskip hws hw, parseVersion_spelled hw hr,
        Expr.range]
  | anyMinor ha =>
    simp [parseRangeBody_of_isDigit (ha.peek_isDigit _), parseVersion_anyMinor ha, Expr.range]
  | @anyPatch a b ds es ha hb =>
    simp [parseRangeBody_of_isDigit (ha.peek_isDigit _), parseVersion_anyPatch ha hb, Expr.range]

theorem Expr.Spelled.peek {e : Expr} {body : List Char} (h : e.Spelled body)
    (rest : List Char) : isWhitespace (Semver.peek (body ++ rest)) = false := by
  cases h with
  | any | caret | tilde => rfl
  | bare hw => exact isWhitespace_of_isDigit (hw.peek_isDigit rest)
  | @compare op => cases op <;> rfl
  | anyMinor ha | anyPatch ha =>
    rw [List.append_assoc]
    exact isWhitespace_of_isDigit (ha.peek_isDigit _)

/-- A text of the grammar is accepted, with the range of its reading. -/
theorem parseRange_of_reads {text : List Char} {e : Expr} (h : Reads text e) :
    parseRange text = some e.range := by
  obtain ⟨ws, body, ws', hws, hws', rfl, he⟩ := h
  have hskip : eatWhitespace (ws ++ (body ++ ws')) = body ++ ws' :=
    eatWhitespace_append hws (he.peek ws')
  simp [parseRange, hskip, parseRangeBody_spelled he hws', eatWhitespace_eq_nil.2 hws']

/-! ## and nothing else -/

/-- What the version parser has read. -/
inductive Consumed (wild : Bool) : List Char → Parsed → Bool → Prop
  | written {w : Written} {cs : List Char} : w.Spelled cs → Consumed wild cs w.parsed false
  | anyMinor {a ds} : wild = true → Numeral ds a →
      Consumed wild (ds ++ ['.', '*']) (Written.major a).parsed true
  | anyPatch {a b ds es} : wild = true → Numeral ds a → Numeral es b →
      Consumed wild (ds ++ '.' :: (es ++ ['.', '*'])) (Written.minor a b).parsed true

theorem eq_cons_of_peek {text : List Char} {c : Char} (h : peek text = c) (hc : c ≠ '\x00') :
    text = c :: eat text := by
  cases text with
  | nil => exact absurd h.symm hc
  | cons d text =>
    rw [peek_cons] at h
    rw [h, eat_cons]

theorem consumed_of_parseVersion {wild w' : Bool} {text rest : List Char} {p : Parsed}
    (h : parseVersion wild text = some (p, w', rest)) :
    ∃ cs, text = cs ++ rest ∧ Consumed wild cs p w' := by
  unfold parseVersion at h
  cases h₁ : parseComponent text with
  | none => simp [h₁] at h
  | some r₁ =>
    obtain ⟨major, text₁⟩ := r₁
    obtain ⟨ds, a, rfl, ha, rfl⟩ := exists_of_parseComponent h₁
    simp only [h₁, Option.bind_eq_bind, Option.bind_some] at h
    by_cases hdot : peek text₁ = '.'
    · have ht₁ := eq_cons_of_peek hdot (by decide)
      simp only [hdot, ne_eq, not_true_eq_false, if_false] at h
      by_cases hw : wild = true ∧ peek (eat text₁) = '*'
      · have ht₂ := eq_cons_of_peek hw.2 (by decide)
        rw [if_pos hw] at h
        cases h
        refine ⟨ds ++ ['.', '*'], ?_, .anyMinor hw.1 ha⟩
        rw [ht₁, ht₂]
        simp
      · simp only [hw, if_false] at h
        cases h₂ : parseComponent (eat text₁) with
        | none => simp [h₂] at h
        | some r₂ =>
          obtain ⟨minor, text₂⟩ := r₂
          obtain ⟨es, b, ht₂, hb, rfl⟩ := exists_of_parseComponent h₂
          rw [ht₁, ht₂]
          simp only [h₂, Option.bind_some] at h
          by_cases hdot' : peek text₂ = '.'
          · have ht₃ := eq_cons_of_peek hdot' (by decide)
            simp only [hdot', not_true_eq_false, if_false] at h
            by_cases hw' : wild = true ∧ peek (eat text₂) = '*'
            · have ht₄ := eq_cons_of_peek hw'.2 (by decide)
              simp only [hw', and_self, if_true] at h
              cases h
              refine ⟨ds ++ '.' :: (es ++ ['.', '*']), ?_, .anyPatch hw'.1 ha hb⟩
              rw [ht₃, ht₄]
              simp
            · simp only [hw', if_false] at h
              cases h₃ : parseComponent (eat text₂) with
              | none => simp [h₃] at h
              | some r₃ =>
                obtain ⟨patch, text₃⟩ := r₃
                obtain ⟨fs, c, ht₄, hc, rfl⟩ := exists_of_parseComponent h₃
                rw [ht₃, ht₄]
                simp only [h₃, Option.bind_some] at h
                cases h
                exact ⟨_, by simp, .written (.patch ha hb hc)⟩
          · simp only [hdot', not_false_eq_true, if_true] at h
            cases h
            exact ⟨_, by simp, .written (.minor ha hb)⟩
    · simp only [hdot, ne_eq, not_false_eq_true, if_true] at h
      cases h
      exact ⟨ds, rfl, .written (.major ha)⟩

theorem exists_of_parseVersion {text rest : List Char} {p : Parsed} {w' : Bool}
    (h : parseVersion false text = some (p, w', rest)) :
    ∃ (w : Written) (cs : List Char), text = cs ++ rest ∧ w.Spelled cs ∧ p = w.parsed := by
  obtain ⟨cs, rfl, hc⟩ := consumed_of_parseVersion h
  cases hc with
  | written hw => exact ⟨_, cs, rfl, hw, rfl⟩
  | anyMinor hf | anyPatch hf => cases hf

theorem symbol_of_parseOp {text : List Char}
    (h : peek text = '>' ∨ peek text = '<' ∨ peek text = '=') :
    symbol (parseOp (peek text) (eat text)).1 ++ (parseOp (peek text) (eat text)).2 = text := by
  cases text with
  | nil => rcases h with h | h | h <;> cases h
  | cons c rest =>
    rw [peek_cons] at h
    rw [peek_cons, eat_cons]
    by_cases he : peek rest = '='
    · have hr := eq_cons_of_peek he (by decide)
      rcases h with rfl | rfl | rfl
      · simp [parseOp, symbol, he, ← hr]
      · simp [parseOp, symbol, he, ← hr]
      · simp [parseOp, symbol]
    · rcases h with rfl | rfl | rfl <;> simp [parseOp, symbol, he]

theorem exists_of_parseRangeBody {text rest : List Char} {r : Range}
    (h : parseRangeBody text = some (r, rest)) :
    ∃ (e : Expr) (body : List Char), text = body ++ rest ∧ e.Spelled body ∧ r = e.range := by
  unfold parseRangeBody at h
  by_cases hstar : peek text = '*'
  · have ht := eq_cons_of_peek hstar (by decide)
    simp only [hstar, if_true] at h
    cases h
    exact ⟨.any, ['*'], ht, .any, rfl⟩
  simp only [hstar, if_false] at h
  by_cases hmod : peek text = '^' ∨ peek text = '~'
  · simp only [hmod, if_true] at h
    cases hv : parseVersion false (eatWhitespace (eat text)) with
    | none => simp [hv] at h
    | some q =>
      obtain ⟨p, w', rest'⟩ := q
      obtain ⟨w, cs, hcs, hw, rfl⟩ := exists_of_parseVersion hv
      obtain ⟨ws, hws, heq⟩ := exists_eatWhitespace (eat text)
      simp only [hv, Option.bind_eq_bind, Option.bind_some] at h
      rcases hmod with hc | hc
      · have ht := eq_cons_of_peek hc (by decide)
        simp only [hc, if_true] at h
        cases h
        exact ⟨.caret w, '^' :: (ws ++ cs), by rw [ht, heq, hcs]; simp, .caret hws hw, rfl⟩
      · have ht := eq_cons_of_peek hc (by decide)
        simp only [hc] at h
        cases h
        exact ⟨.tilde w, '~' :: (ws ++ cs), by rw [ht, heq, hcs]; simp, .tilde hws hw, rfl⟩
  simp only [hmod, if_false] at h
  by_cases hcmp : peek text = '>' ∨ peek text = '<' ∨ peek text = '='
  · simp only [hcmp, if_true] at h
    cases hv : parseVersion false (eatWhitespace (parseOp (peek text) (eat text)).2) with
    | none => simp [hv] at h
    | some q =>
      obtain ⟨p, w', rest'⟩ := q
      obtain ⟨w, cs, hcs, hw, rfl⟩ := exists_of_parseVersion hv
      obtain ⟨ws, hws, heq⟩ := exists_eatWhitespace (parseOp (peek text) (eat text)).2
      simp only [hv, Option.bind_eq_bind, Option.bind_some] at h
      cases h
      refine ⟨.compare _ w, _, ?_, .compare hws hw, rfl⟩
      rw [List.append_assoc, List.append_assoc, ← hcs, ← heq, symbol_of_parseOp hcmp]
  simp only [hcmp, if_false] at h
  by_cases hd : isDigit (peek text) = true
  · simp only [hd, if_true] at h
    cases hv : parseVersion true text with
    | none => simp [hv] at h
    | some q =>
      obtain ⟨p, w', rest'⟩ := q
      obtain ⟨cs, rfl, hc⟩ := consumed_of_parseVersion hv
      simp only [hv, Option.bind_eq_bind, Option.bind_some] at h
      cases hc with
      | written hw => cases h; exact ⟨.bare _, cs, rfl, .bare hw, rfl⟩
      | anyMinor _ ha => cases h; exact ⟨.anyMinor _, _, rfl, .anyMinor ha, rfl⟩
      | anyPatch _ ha hb => cases h; exact ⟨.anyPatch _ _, _, rfl, .anyPatch ha hb, rfl⟩
  · simp [hd] at h

/-- The parser accepts exactly the texts with a reading. -/
theorem exists_reads {text : List Char} {r : Range} (h : parseRange text = some r) :
    ∃ e, Reads text e := by
  unfold parseRange at h
  cases hb : parseRangeBody (eatWhitespace text) with
  | none => simp [hb] at h
  | some q =>
    obtain ⟨r', rest⟩ := q
    obtain ⟨e, body, heq, he, -⟩ := exists_of_parseRangeBody hb
    obtain ⟨ws, hws, ht⟩ := exists_eatWhitespace text
    by_cases hr : eatWhitespace rest = []
    · exact ⟨e, ws, body, rest, hws, eatWhitespace_eq_nil.1 hr, by rw [← heq]; exact ht, he⟩
    · simp [hb, hr] at h

/-! ## The range of a reading and its meaning -/

@[simp] theorem satisfies_lt {v w : Version} :
    v.satisfies w .lt = true ↔ v.triple < w.triple := Version.le_iff
@[simp] theorem satisfies_leq {v w : Version} :
    v.satisfies w .leq = true ↔ v.triple ≤ w.triple := Version.leq_iff
@[simp] theorem satisfies_gt {v w : Version} :
    v.satisfies w .gt = true ↔ w.triple < v.triple := Version.ge_iff
@[simp] theorem satisfies_geq {v w : Version} :
    v.satisfies w .geq = true ↔ w.triple ≤ v.triple := Version.geq_iff

theorem parsed_version {w : Written} (h : w.version.Fits) : w.parsed.version = w.version := by
  simp only [Written.parsed, u32_of_lt h.1, u32_of_lt h.2.1, u32_of_lt h.2.2]

/-- Every version that fits its fields is at most the maximal one. -/
theorem triple_le_max {v : Version} (h : v.Fits) :
    v.triple ≤ (⟨u32Max, u32Max, u32Max⟩ : Version).triple := by
  obtain ⟨h₁, h₂, h₃⟩ := h
  rw [Version.triple_le]
  simp only [u32Max]
  omega

theorem zero_le_triple (v : Version) : (⟨0, 0, 0⟩ : Version).triple ≤ v.triple := by
  rw [Version.triple_le]
  dsimp only
  omega

theorem caretToRange_eq {w : Written} (h : w.version.Fits) (hb : w.version.bump.Fits) :
    caretToRange w.parsed = ⟨⟨w.version, .geq⟩, ⟨w.version.bump, .lt⟩, .caret⟩ := by
  unfold Version.bump at hb ⊢
  rw [caretToRange, parsed_version h]
  rcases Nat.eq_zero_or_pos w.version.major with h₁ | h₁
  · rcases Nat.eq_zero_or_pos w.version.minor with h₂ | h₂
    · simp only [h₁, h₂, ne_eq, not_true_eq_false, if_false] at hb
      simp [h₁, h₂, u32_of_lt hb.2.2]
    · simp only [h₁, h₂.ne', ne_eq, not_true_eq_false, not_false_eq_true, if_false,
        if_true] at hb
      simp [h₁, h₂, h₂.ne', u32_of_lt hb.2.1]
  · simp only [h₁.ne', ne_eq, not_false_eq_true, if_true] at hb
    simp [h₁, h₁.ne', u32_of_lt hb.1]

theorem tildeToRange_eq {w : Written} (h : w.version.Fits) (hb : w.next.Fits) :
    tildeToRange w.parsed = ⟨⟨w.version, .geq⟩, ⟨w.next, .lt⟩, .tilde⟩ := by
  rw [tildeToRange, parsed_version h]
  cases w with
  | major a =>
    have h₁ : u32 (a + 1) = a + 1 := u32_of_lt hb.1
    simp [Written.parsed, Written.components, Written.version, Written.next, h₁]
  | minor a b | patch a b c =>
    have h₁ : u32 (b + 1) = b + 1 := u32_of_lt hb.2.1
    simp [Written.parsed, Written.components, Written.version, Written.next, h₁]

/-- Away from the lone star, the range of a reading whose numbers fit holds exactly
the versions the reading means. -/
theorem inRange_range {e : Expr} (hf : e.Fits) (hne : e ≠ .any) {v : Version} (hv : v.Fits) :
    v.inRange e.range = true ↔ v ∈ e.means := by
  cases e with
  | any => exact absurd rfl hne
  | bare w | caret w =>
    rw [Expr.range, caretToRange_eq hf.1 hf.2]
    simp [Version.inRange, Expr.means]
  | tilde w =>
    rw [Expr.range, tildeToRange_eq hf.1 hf.2]
    simp [Version.inRange, Expr.means]
  | compare op w =>
    have hw : w.parsed.version = w.version := parsed_version hf
    rw [Expr.range, hw]
    cases op with
    | lt | leq => simp [Version.inRange, comparisonToRange, Expr.means, zero_le_triple]
    | gt | geq => simp [Version.inRange, comparisonToRange, Expr.means, triple_le_max hv]
    | eq =>
      simp only [Version.inRange, comparisonToRange, Expr.means, Bool.and_eq_true, satisfies_geq,
        satisfies_leq, Set.mem_ofPred_eq, ← Version.triple_inj]
      exact ⟨fun h => le_antisymm h.2 h.1, fun h => ⟨h.ge, h.le⟩⟩
  | anyMinor a =>
    have ha : a < 2 ^ 32 := Nat.lt_of_succ_lt hf
    have h₁ : u32 (a + 1) = a + 1 := u32_of_lt hf
    simp only [Version.inRange, Expr.range, wildcardToRange, Written.parsed, Written.components,
      Written.version, Expr.means, Bool.and_eq_true, Bool.not_true, Bool.not_false, if_false,
      if_true, satisfies_geq, satisfies_lt, Version.triple_le, Version.triple_lt, u32_of_lt ha, h₁,
      Set.mem_ofPred_eq, Bool.false_eq_true]
    omega
  | anyPatch a b =>
    have hb : b < 2 ^ 32 := Nat.lt_of_succ_lt hf.2
    have h₁ : u32 (b + 1) = b + 1 := u32_of_lt hf.2
    simp only [Version.inRange, Expr.range, wildcardToRange, Written.parsed, Written.components,
      Written.version, Expr.means, Bool.and_eq_true, Bool.not_true, if_false, satisfies_geq,
      satisfies_lt, Version.triple_le, Version.triple_lt, u32_of_lt hf.1, u32_of_lt hb, h₁,
      Set.mem_ofPred_eq, Bool.false_eq_true]
    omega

/-- The maximal version is in no range of a lone star. -/
theorem max_not_inRange_any :
    (⟨u32Max, u32Max, u32Max⟩ : Version).inRange Expr.any.range = false := by
  decide

/-! ## The parser against the meaning -/

/-- The range of a text holds exactly the versions of the text's reading, whose
numbers fit in 32 bits. -/
def Faithful (range : Range) (e : Expr) : Prop :=
  e.Fits ∧ ∀ v : Version, v.Fits → (v.inRange range = true ↔ v ∈ e.means)

/-- The accepted texts are those of the grammar; the range of an accepted text is
that of each of its readings when the numbers of the text fit and it is not the lone
star, and only then. -/
theorem parseRange_faithful (text : List Char) :
    ((∃ range, parseRange text = some range) ↔ ∃ e, Reads text e) ∧
    ∀ range e, parseRange text = some range → Reads text e →
      (Faithful range e ↔ e.Fits ∧ e ≠ .any) := by
  refine ⟨⟨fun ⟨_, h⟩ => exists_reads h, fun ⟨e, h⟩ => ⟨_, parseRange_of_reads h⟩⟩, ?_⟩
  intro range e hp hr
  rw [parseRange_of_reads hr] at hp
  cases hp
  constructor
  · rintro ⟨hf, hv⟩
    refine ⟨hf, ?_⟩
    rintro rfl
    have hmax := (hv ⟨u32Max, u32Max, u32Max⟩ (by decide)).2 trivial
    rw [max_not_inRange_any] at hmax
    cases hmax
  · rintro ⟨hf, hne⟩
    exact ⟨hf, fun v hv => inRange_range hf hne hv⟩

theorem parseRange_faithful_tilde : Faithful
    (tildeToRange ⟨⟨1, 2, 0⟩, ⟨true, true, false⟩⟩) (.tilde (.minor 1 2)) := by
  have hblank : Blank [] := by simp [Blank]
  have hr : Reads "~1.2".toList (.tilde (.minor 1 2)) := by
    refine ⟨[], '~' :: ([] ++ (['1'] ++ '.' :: ['2'])), [], hblank, hblank, by decide,
      .tilde hblank (.minor ?_ ?_)⟩
    · exact ⟨by decide, by simp [isDigit], by decide⟩
    · exact ⟨by decide, by simp [isDigit], by decide⟩
  refine ((parseRange_faithful "~1.2".toList).2 _ _ (by decide) hr).2 ⟨⟨?_, ?_⟩, by decide⟩
  · decide
  · decide

/-- `^4294967296` is accepted as the range of `^0`, which allows `0.0.0`. -/
theorem wrapped_caret :
    parseRange "^4294967296".toList = some (caretToRange (Written.major 0).parsed) ∧
    Reads "^4294967296".toList (.caret (.major 4294967296)) ∧
    (⟨0, 0, 0⟩ : Version).inRange (caretToRange (Written.major 0).parsed) = true ∧
    ¬Faithful (caretToRange (Written.major 0).parsed) (.caret (.major 4294967296)) := by
  have hblank : Blank [] := by simp [Blank]
  have hnum : Numeral "4294967296".toList 4294967296 := by
    refine ⟨by decide, by simp [isDigit], by decide⟩
  refine ⟨by decide, ?_, by decide, fun h => absurd h.1.1.1 (by decide)⟩
  exact ⟨[], '^' :: ([] ++ "4294967296".toList), [], hblank, hblank, by decide,
    .caret hblank (.major hnum)⟩

end Semver
end Spn
