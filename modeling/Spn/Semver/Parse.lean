import Spn.Semver

/-! # Reading a range

`semver/parser.c` and `semver/convert.c`. The parser walks over the characters of
the text; what is left of the text stands for `parser->it`. A character outside of
ASCII is accepted nowhere, so a character and a byte are the same here.
-/
namespace Spn.Semver

/-- A value as a `u32` holds it. -/
def u32 (n : ℕ) : ℕ := n % 2 ^ 32

/-- `SP_LIMIT_U32_MAX`. -/
def u32Max : ℕ := 0xFFFFFFFF

/-- `spn_semver_parser_is_digit`. -/
def isDigit (c : Char) : Bool := '0' ≤ c && c ≤ '9'

/-- `spn_semver_parser_is_whitespace`. -/
def isWhitespace (c : Char) : Bool := c == ' ' || c == '\t' || c == '\n'

/-- `spn_semver_parser_peek`: the end of the text reads as the null character. -/
def peek (text : List Char) : Char := text.headD '\x00'

/-- `spn_semver_parser_eat`. -/
def eat (text : List Char) : List Char := text.tail

/-- `spn_semver_parser_eat_whitespace`. -/
def eatWhitespace : List Char → List Char
  | [] => []
  | c :: text => if isWhitespace c then eatWhitespace text else c :: text

/-- `c - '0'`. -/
def digit (c : Char) : ℕ := c.toNat - '0'.toNat

/-- The loop of `spn_semver_parser_parse_number`, which accumulates in a `u32`. -/
def parseNumber (result : ℕ) : List Char → ℕ × List Char
  | [] => (result, [])
  | c :: text =>
    if isDigit c then parseNumber (u32 (result * 10 + digit c)) text else (result, c :: text)

/-- `spn_semver_parse_component`: false when no digit was eaten. -/
def parseComponent (text : List Char) : Option (ℕ × List Char) :=
  let (value, rest) := parseNumber 0 text
  if rest.length ≠ text.length then some (value, rest) else none

/-- `spn_semver_components_t`. -/
structure Components where
  major : Bool
  minor : Bool
  patch : Bool
  deriving DecidableEq, Repr

/-- `spn_semver_parsed_t`. -/
structure Parsed where
  version : Version
  components : Components
  deriving DecidableEq, Repr

/-- `sp_zero`. -/
def Parsed.zero : Parsed := ⟨⟨0, 0, 0⟩, ⟨false, false, false⟩⟩

/-- `spn_semver_parse_version`: what was read, whether it ended in a wildcard, and
the rest of the text. -/
def parseVersion (allowWildcard : Bool) (text : List Char) :
    Option (Parsed × Bool × List Char) := do
  let (major, text) ← parseComponent text
  if peek text ≠ '.' then
    return (⟨⟨major, 0, 0⟩, ⟨true, false, false⟩⟩, false, text)
  let text := eat text
  if allowWildcard ∧ peek text = '*' then
    return (⟨⟨major, 0, 0⟩, ⟨true, false, false⟩⟩, true, eat text)
  let (minor, text) ← parseComponent text
  if peek text ≠ '.' then
    return (⟨⟨major, minor, 0⟩, ⟨true, true, false⟩⟩, false, text)
  let text := eat text
  if allowWildcard ∧ peek text = '*' then
    return (⟨⟨major, minor, 0⟩, ⟨true, true, false⟩⟩, true, eat text)
  let (patch, text) ← parseComponent text
  return (⟨⟨major, minor, patch⟩, ⟨true, true, true⟩⟩, false, text)

/-- `spn_semver_caret_to_range`. -/
def caretToRange (parsed : Parsed) : Range :=
  let v := parsed.version
  if v.major > 0 then ⟨⟨v, .geq⟩, ⟨⟨u32 (v.major + 1), 0, 0⟩, .lt⟩, .caret⟩
  else if v.minor > 0 then ⟨⟨v, .geq⟩, ⟨⟨v.major, u32 (v.minor + 1), 0⟩, .lt⟩, .caret⟩
  else ⟨⟨v, .geq⟩, ⟨⟨v.major, v.minor, u32 (v.patch + 1)⟩, .lt⟩, .caret⟩

/-- `spn_semver_tilde_to_range`. -/
def tildeToRange (parsed : Parsed) : Range :=
  let v := parsed.version
  if parsed.components.patch then
    ⟨⟨v, .geq⟩, ⟨⟨v.major, u32 (v.minor + 1), 0⟩, .lt⟩, .tilde⟩
  else if parsed.components.minor then
    ⟨⟨v, .geq⟩, ⟨⟨v.major, u32 (v.minor + 1), 0⟩, .lt⟩, .tilde⟩
  else ⟨⟨v, .geq⟩, ⟨⟨u32 (v.major + 1), 0, 0⟩, .lt⟩, .tilde⟩

/-- `spn_semver_wildcard_to_range`. -/
def wildcardToRange (parsed : Parsed) : Range :=
  let v := parsed.version
  if !parsed.components.major then
    ⟨⟨⟨0, 0, 0⟩, .geq⟩, ⟨⟨u32Max, u32Max, u32Max⟩, .lt⟩, .wildcard⟩
  else if !parsed.components.minor then
    ⟨⟨⟨v.major, 0, 0⟩, .geq⟩, ⟨⟨u32 (v.major + 1), 0, 0⟩, .lt⟩, .wildcard⟩
  else ⟨⟨⟨v.major, v.minor, 0⟩, .geq⟩, ⟨⟨v.major, u32 (v.minor + 1), 0⟩, .lt⟩, .wildcard⟩

/-- `spn_semver_comparison_to_range`. -/
def comparisonToRange (op : Op) (version : Version) : Range :=
  match op with
  | .eq => ⟨⟨version, .geq⟩, ⟨version, .leq⟩, .cmp⟩
  | .geq => ⟨⟨version, .geq⟩, ⟨⟨u32Max, u32Max, u32Max⟩, .leq⟩, .cmp⟩
  | .gt => ⟨⟨version, .gt⟩, ⟨⟨u32Max, u32Max, u32Max⟩, .leq⟩, .cmp⟩
  | .leq => ⟨⟨⟨0, 0, 0⟩, .geq⟩, ⟨version, .leq⟩, .cmp⟩
  | .lt => ⟨⟨⟨0, 0, 0⟩, .geq⟩, ⟨version, .lt⟩, .cmp⟩

/-- The operator after `<`, `>` or `=` and the rest of the text. -/
def parseOp (c : Char) (text : List Char) : Op × List Char :=
  if c = '>' then if peek text = '=' then (.geq, eat text) else (.gt, text)
  else if c = '<' then if peek text = '=' then (.leq, eat text) else (.lt, text)
  else (.eq, text)

/-- The branches of `spn_semver_parse_range` on the first character. -/
def parseRangeBody (text : List Char) : Option (Range × List Char) :=
  let c := peek text
  if c = '*' then
    some (wildcardToRange Parsed.zero, eat text)
  else if c = '^' ∨ c = '~' then do
    let (parsed, _, rest) ← parseVersion false (eatWhitespace (eat text))
    return (if c = '^' then caretToRange parsed else tildeToRange parsed, rest)
  else if c = '>' ∨ c = '<' ∨ c = '=' then do
    let (op, rest) := parseOp c (eat text)
    let (parsed, _, rest) ← parseVersion false (eatWhitespace rest)
    return (comparisonToRange op parsed.version, rest)
  else if isDigit c then do
    let (parsed, wildcard, rest) ← parseVersion true text
    return (if wildcard then wildcardToRange parsed else caretToRange parsed, rest)
  else none

/-- `spn_semver_parse_range`: `none` for `SPN_ERROR`. -/
def parseRange (text : List Char) : Option Range := do
  let (range, rest) ← parseRangeBody (eatWhitespace text)
  if eatWhitespace rest = [] then some range else none

end Spn.Semver
