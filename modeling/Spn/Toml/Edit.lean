import Spn.Paths

/-! # Editing TOML text

`core/toml/edit.c`: the text of a manifest is scanned once, and what it sets is recorded with the
places of keys and values; an edit is a list of splices, which are applied when the text is
rendered. The reader is what is left of the text, so nothing beyond its end is read; `peek` is zero
there, as in the source.
-/
namespace Spn.Toml

/-! ## Characters -/

def quote : UInt8 := 0x22
def apostrophe : UInt8 := 0x27
def backslash : UInt8 := 0x5c
def newline : UInt8 := 0x0a
def carriageReturn : UInt8 := 0x0d
def hash : UInt8 := 0x23
def dot : UInt8 := 0x2e
def equals : UInt8 := 0x3d
def comma : UInt8 := 0x2c
def leftBracket : UInt8 := 0x5b
def rightBracket : UInt8 := 0x5d
def leftBrace : UInt8 := 0x7b
def rightBrace : UInt8 := 0x7d

/-- `spn_toml_edit_is_whitespace`. -/
def isWhitespace (c : UInt8) : Bool := c = 0x20 || c = 0x09

/-- `spn_toml_edit_is_blank`. -/
def isBlank (c : UInt8) : Bool := isWhitespace c || c = carriageReturn || c = newline

def isDigit (c : UInt8) : Bool := 0x30 ≤ c && c ≤ 0x39

/-- `spn_toml_edit_is_bare`. -/
def isBare (c : UInt8) : Bool :=
  (0x61 ≤ c && c ≤ 0x7a) || (0x41 ≤ c && c ≤ 0x5a) || isDigit c || c = 0x5f || c = 0x2d

/-- `spn_toml_edit_is_hex`. -/
def isHex (c : UInt8) : Bool := isDigit c || (0x61 ≤ c && c ≤ 0x66) || (0x41 ≤ c && c ≤ 0x46)

/-- `spn_toml_edit_hex`. -/
def hex (c : UInt8) : ℕ :=
  if isDigit c then (c - 0x30).toNat
  else if 0x61 ≤ c && c ≤ 0x66 then (c - 0x61 + 10).toNat
  else (c - 0x41 + 10).toNat

/-! ## Reading -/

/-- `spn_toml_edit_peek_at`. -/
def peekAt (rest : Str) (offset : ℕ) : UInt8 := rest.getD offset 0

/-- `spn_toml_edit_peek`. -/
def peek (rest : Str) : UInt8 := peekAt rest 0

/-- `spn_toml_edit_accept`, of a character that is not zero. -/
def accept (c : UInt8) (rest : Str) : Option Str := if peek rest = c then some rest.tail else none

def skipWhitespace (rest : Str) : Str := rest.dropWhile isWhitespace

def skipBlank (rest : Str) : Str := rest.dropWhile isBlank

def skipComment (rest : Str) : Str :=
  if peek rest = hash then rest.dropWhile (· ≠ newline) else rest

/-- `spn_toml_edit_skip_line_end`. -/
def skipLineEnd (rest : Str) : Option Str :=
  match skipComment (skipWhitespace rest) with
  | [] => some []
  | rest => accept newline ((accept carriageReturn rest).getD rest)

/-- `spn_toml_edit_codepoint_valid`. -/
def codepointValid (codepoint : ℕ) : Bool :=
  codepoint ≤ 0x10FFFF && (codepoint < 0xD800 || 0xDFFF < codepoint)

/-- The text of an escape, or of a part of it, and whether it is one. -/
structure Unescaped where
  ok : Bool
  text : Str
  rest : Str

/-- `sp_utf8_encode`, of a valid codepoint. -/
def utf8Encode (codepoint : ℕ) : Str := String.utf8EncodeChar (Char.ofNat codepoint)

/-- `spn_toml_edit_scan_unicode`, when so many digits are left and those before them have been
read. -/
def scanUnicode : ℕ → ℕ → Str → Unescaped
  | 0, codepoint, rest =>
    if codepointValid codepoint then ⟨true, utf8Encode codepoint, rest⟩ else ⟨false, [], rest⟩
  | digits + 1, codepoint, rest =>
    if isHex (peek rest) then scanUnicode digits (codepoint * 16 + hex (peek rest)) rest.tail
    else ⟨false, [], rest⟩

/-- The cases of `spn_toml_edit_unescape` that write one character. -/
def escapes : List (UInt8 × UInt8) :=
  [(0x62, 0x08), (0x74, 0x09), (0x6e, 0x0a), (0x66, 0x0c), (0x72, 0x0d), (quote, quote),
    (backslash, backslash)]

/-- `spn_toml_edit_unescape`, after the backslash. -/
def unescape (rest : Str) : Unescaped :=
  match escapes.lookup (peek rest) with
  | some c => ⟨true, [c], rest.tail⟩
  | none =>
    if peek rest = 0x75 then scanUnicode 4 0 rest.tail
    else if peek rest = 0x55 then scanUnicode 8 0 rest.tail
    else ⟨false, [], rest.tail⟩

/-- The loop of `spn_toml_edit_parse_basic`. -/
def parseBasicFrom : ℕ → Str → Option (Str × Str)
  | 0, _ => none
  | _ + 1, [] => none
  | fuel + 1, c :: rest =>
    if c = newline then none
    else if c = quote then some ([], rest)
    else if c = backslash then
      if (unescape rest).ok then
        (parseBasicFrom fuel (unescape rest).rest).map fun p => ((unescape rest).text ++ p.1, p.2)
      else none
    else (parseBasicFrom fuel rest).map fun p => (c :: p.1, p.2)

/-- `spn_toml_edit_parse_basic`: what the string says, and what follows it. -/
def parseBasic (rest : Str) : Option (Str × Str) := parseBasicFrom rest.length rest.tail

/-- `spn_toml_edit_parse_literal`. -/
def parseLiteral (rest : Str) : Option (Str × Str) :=
  let inner := rest.tail.takeWhile fun c => c ≠ apostrophe && c ≠ newline
  (accept apostrophe (rest.tail.drop inner.length)).map fun rest => (inner, rest)

/-- A segment of a key. -/
def parseSegment (rest : Str) : Option (Str × Str) :=
  if peek rest = quote then parseBasic rest
  else if peek rest = apostrophe then parseLiteral rest
  else if rest.takeWhile isBare = [] then none
  else some (rest.takeWhile isBare, rest.dropWhile isBare)

/-- The loop of `spn_toml_edit_parse_key`. -/
def parseKeyFrom : ℕ → Str → Option (List Str × Str)
  | 0, _ => none
  | fuel + 1, rest =>
    (parseSegment (skipWhitespace rest)).bind fun segment =>
      match accept dot (skipWhitespace segment.2) with
      | some rest => (parseKeyFrom fuel rest).map fun p => (segment.1 :: p.1, p.2)
      | none => some ([segment.1], skipWhitespace segment.2)

/-- `spn_toml_edit_parse_key`. -/
def parseKey (rest : Str) : Option (List Str × Str) := parseKeyFrom (rest.length + 1) rest

/-- `spn_toml_edit_escape_valid`. -/
def escapeValid (c : UInt8) (multiline : Bool) : Bool :=
  c ∈ [0x62, 0x74, 0x6e, 0x66, 0x72, quote, backslash, 0x75, 0x55] || (multiline && isBlank c)

/-- What follows the digits of a codepoint. -/
def scanDigits (digits : ℕ) (rest : Str) : Option Str :=
  if (scanUnicode digits 0 rest).ok then some (scanUnicode digits 0 rest).rest else none

/-- `spn_toml_edit_scan_escape`, after the backslash. -/
def scanEscape (multiline : Bool) (rest : Str) : Option Str :=
  if escapeValid (peek rest) multiline then
    if peek rest = 0x75 then scanDigits 4 rest.tail
    else if peek rest = 0x55 then scanDigits 8 rest.tail
    else some rest.tail
  else none

/-- The loop of `spn_toml_edit_scan_string`. -/
def scanStringFrom (mark : UInt8) (multiline : Bool) : ℕ → Str → Option Str
  | 0, _ => none
  | _ + 1, [] => none
  | fuel + 1, c :: rest =>
    if c = newline ∧ multiline = false then none
    else if c = backslash ∧ mark = quote then
      (scanEscape multiline rest).bind (scanStringFrom mark multiline fuel)
    else if c ≠ mark then scanStringFrom mark multiline fuel rest
    else if multiline = false then some rest
    else
      let run := (c :: rest).takeWhile (· = mark)
      let rest := (c :: rest).dropWhile (· = mark)
      if 3 ≤ run.length then if run.length ≤ 5 then some rest else none
      else scanStringFrom mark multiline fuel rest

/-- The string at hand starts with three marks. -/
def isMultiline (rest : Str) : Bool := peekAt rest 1 = peek rest && peekAt rest 2 = peek rest

/-- `spn_toml_edit_scan_string`. -/
def scanString (rest : Str) : Option Str :=
  scanStringFrom (peek rest) (isMultiline rest) rest.length
    (rest.drop (if isMultiline rest then 3 else 1))

/-- `spn_toml_edit_scan_array`. -/
def scanArray : ℕ → ℕ → Str → Option Str
  | 0, _, _ => none
  | _ + 1, _, [] => none
  | fuel + 1, depth, c :: rest =>
    if c = quote || c = apostrophe then (scanString (c :: rest)).bind (scanArray fuel depth)
    else if c = hash then scanArray fuel depth (skipComment (c :: rest))
    else if c = leftBracket then scanArray fuel (depth + 1) rest
    else if c = rightBracket then
      if depth - 1 = 0 then some rest else scanArray fuel (depth - 1) rest
    else scanArray fuel depth rest

/-! ## Entries -/

/-- `spn_toml_edit_value_kind_t`. -/
inductive Kind
  | scalar | string | array | table
  deriving DecidableEq, Repr

/-- `spn_toml_edit_span_t`. -/
structure Span where
  start : ℕ
  stop : ℕ
  deriving DecidableEq, Repr

/-- `spn_toml_edit_entry_t`. -/
inductive Entry
  | mk (path : List Str) (kind : Kind) (key value : Span) (lineEnd : ℕ) (entries : List Entry)

namespace Entry

def path : Entry → List Str
  | mk path _ _ _ _ _ => path

def kind : Entry → Kind
  | mk _ kind _ _ _ _ => kind

def key : Entry → Span
  | mk _ _ key _ _ _ => key

def value : Entry → Span
  | mk _ _ _ value _ _ => value

def lineEnd : Entry → ℕ
  | mk _ _ _ _ lineEnd _ => lineEnd

def entries : Entry → List Entry
  | mk _ _ _ _ _ entries => entries

/-- The entry with the end of its line. -/
def withLineEnd (lineEnd : ℕ) : Entry → Entry
  | mk path kind key value _ entries => mk path kind key value lineEnd entries

end Entry

/-- `spn_toml_edit_section_t`. -/
structure Section where
  path : List Str
  array : Bool
  content : ℕ
  entries : List Entry

/-- Where the parser is after it has read some of what was left: it counts what it reads. -/
def after (at_ : ℕ) (rest left : Str) : ℕ := at_ + (rest.length - left.length)

/-- What `spn_toml_edit_scan_value` finds: the kind, the entries and the end of the value, and what
is left. -/
structure Scanned where
  kind : Kind
  entries : List Entry
  stop : ℕ
  rest : Str

/-- A character that ends a scalar. -/
def endsScalar (nested : Bool) (c : UInt8) : Bool :=
  c = newline || c = carriageReturn || c = hash ||
    (nested && (c = comma || c = rightBracket || c = rightBrace))

/-- A scalar; white space at its end is not part of it. -/
def scanScalar (nested : Bool) (at_ : ℕ) (rest : Str) : Option Scanned :=
  let text := (rest.takeWhile fun c => !endsScalar nested c).rdropWhile isWhitespace
  if text = [] then none
  else some ⟨.scalar, [], at_ + text.length, rest.dropWhile fun c => !endsScalar nested c⟩

/-- `spn_toml_edit_scan_pair`, with what scans a value. -/
def scanPair (scan : ℕ → Str → Option Scanned) (at_ : ℕ) (rest : Str) : Option (Entry × Str) :=
  (parseKey rest).bind fun key =>
    (accept equals (skipWhitespace key.2)).bind fun afterEquals =>
      let value := skipWhitespace afterEquals
      let start := after at_ rest value
      (scan start value).map fun found =>
        (.mk key.1 found.kind ⟨at_, after at_ rest key.2⟩ ⟨start, found.stop⟩ 0 found.entries,
          found.rest)

mutual

/-- `spn_toml_edit_scan_value`. The fuel is more than there is left to read. -/
def scanValue (nested : Bool) : ℕ → ℕ → Str → Option Scanned
  | 0, _, _ => none
  | fuel + 1, at_, rest =>
    if peek rest = quote || peek rest = apostrophe then
      (scanString rest).map fun left => ⟨.string, [], after at_ rest left, left⟩
    else if peek rest = leftBracket then
      (scanArray (rest.length + 1) 0 rest).map fun left => ⟨.array, [], after at_ rest left, left⟩
    else if peek rest = leftBrace then
      let first := skipBlank rest.tail
      match accept rightBrace first with
      | some left => some ⟨.table, [], after at_ rest left, left⟩
      | none =>
        (scanPairs fuel (after at_ rest first) first).map fun p =>
          ⟨.table, p.1, after at_ rest p.2, p.2⟩
    else scanScalar nested at_ rest

/-- The loop of `spn_toml_edit_scan_inline_table`, which ends after the brace. -/
def scanPairs : ℕ → ℕ → Str → Option (List Entry × Str)
  | 0, _, _ => none
  | fuel + 1, at_, rest =>
    let first := skipBlank rest
    (scanPair (scanValue true fuel) (after at_ rest first) first).bind fun p =>
      let left := skipBlank p.2
      match accept comma left with
      | some next =>
        (scanPairs fuel (after at_ rest next) next).map fun q => (p.1 :: q.1, q.2)
      | none => (accept rightBrace left).map fun next => ([p.1], next)

end

/-- `spn_toml_edit_parse_entry`. -/
def parseEntry (at_ : ℕ) (rest : Str) : Option (Entry × Str) :=
  (scanPair (scanValue false (rest.length + 1)) at_ rest).bind fun p =>
    (skipLineEnd p.2).map fun left => (p.1.withLineEnd (after at_ rest left), left)

/-- `spn_toml_edit_parse_header`: a section without entries. -/
def parseHeader (at_ : ℕ) (rest : Str) : Option (Section × Str) :=
  let array := peek rest.tail = leftBracket
  let inner := if array then rest.tail.tail else rest.tail
  (parseKey inner).bind fun key =>
    (accept rightBracket (skipWhitespace key.2)).bind fun one =>
      (if array then accept rightBracket one else some one).bind fun two =>
        (skipLineEnd two).map fun left => (⟨key.1, array, after at_ rest left, []⟩, left)

def Section.push (s : Section) (entry : Entry) : Section :=
  { s with entries := s.entries ++ [entry] }

/-- The loop of `spn_toml_edit_init`: the sections there are, the last apart. -/
def initFrom : ℕ → List Section → Section → ℕ → Str → Option (List Section)
  | 0, _, _, _, _ => none
  | fuel + 1, sections, last, at_, rest =>
    match skipBlank rest with
    | [] => some (sections ++ [last])
    | c :: tail =>
      let at_ := after at_ rest (c :: tail)
      if c = hash then
        let left := skipComment (c :: tail)
        initFrom fuel sections last (after at_ (c :: tail) left) left
      else if c = leftBracket then
        (parseHeader at_ (c :: tail)).bind fun p =>
          initFrom fuel (sections ++ [last]) p.1 (after at_ (c :: tail) p.2) p.2
      else
        (parseEntry at_ (c :: tail)).bind fun p =>
          initFrom fuel sections (last.push p.1) (after at_ (c :: tail) p.2) p.2

/-- The section at the top of a text. -/
def Section.root : Section := ⟨[], false, 0, []⟩

/-- `spn_toml_edit_splice_t`. -/
structure Splice where
  start : ℕ
  remove : ℕ
  seq : ℕ
  insert : Str
  deriving DecidableEq, Repr

/-- `spn_toml_edit_t`. -/
structure Edit where
  source : Str
  sections : List Section
  splices : List Splice

/-- `edit->eol`. -/
def Edit.eol (edit : Edit) : Str :=
  if [carriageReturn, newline] <:+: edit.source then [carriageReturn, newline] else [newline]

/-- `spn_toml_edit_init`. -/
def init (source : Str) : Option Edit :=
  (initFrom (source.length + 1) [] .root 0 source).map fun sections => ⟨source, sections, []⟩

/-! ## Finding -/

mutual

/-- `spn_toml_edit_find_in`, for one entry. -/
def Entry.find (path : List Str) : Entry → Option Entry
  | .mk own kind key value lineEnd entries =>
    if own <+: path then
      if own.length = path.length then some (.mk own kind key value lineEnd entries)
      else if kind = .table then findIn (path.drop own.length) entries
      else none
    else none

/-- `spn_toml_edit_find_in`. -/
def findIn (path : List Str) : List Entry → Option Entry
  | [] => none
  | entry :: rest => (entry.find path).or (findIn path rest)

end

/-- What `spn_toml_edit_find` finds in a section. -/
def Section.find (path : List Str) (s : Section) : Option Entry :=
  if s.path <+: path ∧ s.path.length ≠ path.length then
    findIn (path.drop s.path.length) s.entries
  else none

/-- `spn_toml_edit_find`: the entry in the last section that has one. -/
def Edit.find (edit : Edit) (path : List Str) : Option Entry :=
  edit.sections.foldl (fun found s => (s.find path).or found) none

/-- The text of a span. -/
def Edit.slice (edit : Edit) (span : Span) : Str :=
  (edit.source.drop span.start).take (span.stop - span.start)

/-- The loop of `spn_toml_edit_entry_str` over a basic string of several lines, up to where so much
is left. -/
def decodeLines (left : ℕ) : ℕ → Str → Str
  | 0, _ => []
  | _ + 1, [] => []
  | fuel + 1, c :: rest =>
    if (c :: rest).length ≤ left then []
    else if c ≠ backslash then c :: decodeLines left fuel rest
    else if isBlank (peek rest) then
      let blanks := (rest.take (rest.length - left)).takeWhile isBlank
      decodeLines left fuel (rest.drop blanks.length)
    else (unescape rest).text ++ decodeLines left fuel (unescape rest).rest

/-- The string at hand without the line end it may start with. -/
def skipFirstLine (rest : Str) : Str :=
  if peek rest = carriageReturn && peekAt rest 1 = newline then rest.drop 2
  else if peek rest = newline then rest.drop 1
  else rest

/-- `spn_toml_edit_entry_str`. -/
def Edit.entryStr (edit : Edit) (entry : Entry) : Str :=
  match entry.kind with
  | .scalar => edit.slice entry.value
  | .array | .table => []
  | .string =>
    let rest := edit.source.drop entry.value.start
    if !isMultiline rest then
      ((if peek rest = apostrophe then parseLiteral rest else parseBasic rest).map Prod.fst).getD []
    else
      let inner := skipFirstLine (rest.drop 3)
      let left := edit.source.length - (entry.value.stop - 3)
      if peek rest = apostrophe then inner.take (inner.length - left)
      else decodeLines left (inner.length + 1) inner

/-! ## Writing -/

/-- `spn_toml_edit_key_is_bare`. -/
def keyIsBare (key : Str) : Bool := key ≠ [] && key.all isBare

/-- `spn_toml_edit_write_key`. -/
def keyText (key : Str) : Str :=
  if keyIsBare key then key
  else quote :: (key.flatMap fun c =>
    if c = quote || c = backslash then [backslash, c] else [c]) ++ [quote]

/-- `spn_toml_edit_write_key_path`. -/
def keyPathText : List Str → Str
  | [] => []
  | [key] => keyText key
  | key :: rest => keyText key ++ dot :: keyPathText rest

/-- How `spn_toml_edit_write_str_value` writes a character. -/
def escaped (c : UInt8) : Str :=
  if c = quote then str "\\\""
  else if c = backslash then str "\\\\"
  else if c = 0x08 then str "\\b"
  else if c = 0x09 then str "\\t"
  else if c = 0x0a then str "\\n"
  else if c = 0x0c then str "\\f"
  else if c = 0x0d then str "\\r"
  else [c]

/-- `spn_toml_edit_quoted`. -/
def quoted (value : Str) : Str := quote :: value.flatMap escaped ++ [quote]

/-- Whether a splice of so much there and another go together. -/
def Splice.conflicts (start remove : ℕ) (other : Splice) : Bool :=
  if remove ≠ 0 && other.remove ≠ 0 then
    start < other.start + other.remove && other.start < start + remove
  else if remove ≠ 0 then start < other.start && other.start < start + remove
  else if other.remove ≠ 0 then other.start < start && start < other.start + other.remove
  else false

/-- `spn_toml_edit_splice`. -/
def Edit.splice (edit : Edit) (start remove : ℕ) (insert : Str) : Option Edit :=
  if edit.splices.any (Splice.conflicts start remove) then none
  else some { edit with
    splices := edit.splices ++ [⟨start, remove, edit.splices.length, insert⟩] }

/-- `spn_toml_edit_site_t`, found. -/
structure Site where
  start : ℕ
  matched : ℕ

/-- Where a section takes an entry of the path, if it does: at its end when it is the table of the
path, or else after the last entry whose key goes on in that table. -/
def Section.site (parent : List Str) (s : Section) : Option Site :=
  if s.array = true ∨ ¬ s.path <+: parent then none
  else
    let rest := parent.drop s.path.length
    if rest = [] then some ⟨(s.entries.getLast?.map Entry.lineEnd).getD s.content, s.path.length⟩
    else
      (s.entries.reverse.find? fun e => rest <+: e.path ∧ rest.length < e.path.length).map
        fun e => ⟨e.lineEnd, s.path.length⟩

/-- `spn_toml_edit_find_site`: of the sites with the longest path the last. -/
def Edit.findSite (edit : Edit) (parent : List Str) : Option Site :=
  edit.sections.foldl (fun found s =>
    match s.site parent, found with
    | none, found => found
    | some site, none => some site
    | some site, some best => if site.matched < best.matched then some best else some site) none

/-- What stands before a section that is written at the end. -/
def Edit.separator (edit : Edit) : Str :=
  if edit.source = [] then []
  else if edit.source.getLast? ≠ some newline then edit.eol ++ edit.eol
  else
    let text := edit.source.dropLast
    let text := if 0 < text.length ∧ text.getLast? = some carriageReturn then text.dropLast else text
    if 0 < text.length ∧ text.getLast? ≠ some newline then edit.eol else []

/-- The containers of a path, the longest first. -/
def Edit.container (edit : Edit) (path : List Str) : ℕ → Option (ℕ × Entry)
  | 0 => none
  | len + 1 =>
    match edit.find (path.take (len + 1)) with
    | some entry => some (len + 1, entry)
    | none => edit.container path len

/-- What `spn_toml_edit_set_str` writes into a table that is a value. -/
def Edit.setInline (edit : Edit) (path : List Str) (len : ℕ) (container : Entry) (value : Str) :
    Option Edit :=
  match container.kind, container.entries with
  | .table, [] =>
    edit.splice container.value.start (container.value.stop - container.value.start)
      (str "\x7b " ++ keyPathText (path.drop len) ++ str " = " ++ quoted value ++ str " \x7d")
  | .table, first :: _ =>
    edit.splice first.key.start 0
      (keyPathText (path.drop len) ++ str " = " ++ quoted value ++ str ", ")
  | _, _ => none

/-- What `spn_toml_edit_set_str` writes at a site. -/
def Edit.setLine (edit : Edit) (path : List Str) (site : Site) (value : Str) : Option Edit :=
  let before := if 0 < site.start ∧ (edit.source[site.start - 1]?).getD 0 ≠ newline then edit.eol
    else []
  edit.splice site.start 0
    (before ++ keyPathText (path.drop site.matched) ++ str " = " ++ quoted value ++ edit.eol)

/-- What `spn_toml_edit_set_str` writes at the end of the text. -/
def Edit.setSection (edit : Edit) (path : List Str) (value : Str) : Option Edit :=
  if edit.sections.any fun s => s.array && s.path = path.dropLast then none
  else
    edit.splice edit.source.length 0
      (edit.separator ++ leftBracket :: keyPathText path.dropLast ++ [rightBracket] ++ edit.eol ++
        keyText (path.getLastD []) ++ str " = " ++ quoted value ++ edit.eol)

/-- `spn_toml_edit_set_str`. -/
def Edit.setStr (edit : Edit) (path : List Str) (value : Str) : Option Edit :=
  if path = [] then none
  else
    match edit.find path with
    | some entry =>
      edit.splice entry.value.start (entry.value.stop - entry.value.start) (quoted value)
    | none =>
      match edit.container path (path.length - 1) with
      | some (len, container) => edit.setInline path len container value
      | none =>
        match edit.findSite path.dropLast with
        | some site => edit.setLine path site value
        | none => edit.setSection path value

/-! ## Rendering -/

/-- `spn_toml_edit_splice_sort`. -/
def Splice.before (a b : Splice) : Bool :=
  a.start < b.start || (a.start = b.start && a.seq ≤ b.seq)

/-- The loop of `spn_toml_edit_render`, unless its assertion fails. -/
def renderFrom (source : Str) : ℕ → List Splice → Option Str
  | cursor, [] => some (source.drop cursor)
  | cursor, splice :: rest =>
    if splice.start < cursor then none
    else (renderFrom source (splice.start + splice.remove) rest).map fun text =>
      (source.drop cursor).take (splice.start - cursor) ++ splice.insert ++ text

/-- `spn_toml_edit_render`. -/
def Edit.render (edit : Edit) : Option Str :=
  renderFrom edit.source 0 (edit.splices.mergeSort Splice.before)

end Spn.Toml
