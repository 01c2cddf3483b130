import Spn.Paths

/-! # The symbol table of an archive

`compiler/toc.c`: the first member of an archive is read as a table of symbols, whose names
are then taken one after another. What is read of the member comes through a reader that
ends where the member does.
-/
namespace Spn.Compiler

/-- `spn_err_t`, as far as the parser reports it. -/
inductive TocErr
  | ok | magic | truncated | missing
  deriving DecidableEq, Repr

/-- `spn_toc_format_t`. -/
inductive TocFormat
  | none | gnu | bsd
  deriving DecidableEq, Repr

/-- `spn_toc_parser_t`: what the archive's reader has not given out yet, how much of it the
limit reader `body` still lets through, and the state of the iteration. -/
structure Toc where
  io : Str
  left : ℕ
  format : TocFormat
  err : TocErr
  count : ℕ
  remaining : ℕ
  deriving DecidableEq, Repr

/-- `SPN_TOC_SYMBOL_MAX`, the size of the reader's buffer. -/
def tocSymbolMax : ℕ := 8192

/-- `sp_io_read_all` on `body`. -/
def Toc.readAll (toc : Toc) (n : ℕ) : Str × Toc :=
  let got := (toc.io.take toc.left).take n
  (got, { toc with io := toc.io.drop got.length, left := toc.left - got.length })

/-- `sp_io_discard` on `body`: how much was there to be discarded. -/
def Toc.discard (toc : Toc) (n : ℕ) : ℕ × Toc := ((toc.readAll n).1.length, (toc.readAll n).2)

/-- `sp_io_peek_until` on `body`: the bytes up to the first one of this value and it, where it
is among those that fit into the buffer. -/
def Toc.peekUntil (toc : Toc) (c : UInt8) : Option Str :=
  let shown := (toc.io.take toc.left).take tocSymbolMax
  if c ∈ shown then some (shown.takeWhile (· ≠ c) ++ [c]) else none

/-- `sp_io_consume` on `body`. -/
def Toc.consume (toc : Toc) (n : ℕ) : Toc := (toc.readAll n).2

/-- `toc_u32be`. -/
def tocU32be (p : Str) : ℕ :=
  (p.getD 0 0).toNat * 2 ^ 24 + (p.getD 1 0).toNat * 2 ^ 16 + (p.getD 2 0).toNat * 2 ^ 8 +
    (p.getD 3 0).toNat

/-- `toc_u64be`. -/
def tocU64be (p : Str) : ℕ := tocU32be p * 2 ^ 32 + tocU32be (p.drop 4)

/-- `toc_u32le`. -/
def tocU32le (p : Str) : ℕ :=
  (p.getD 3 0).toNat * 2 ^ 24 + (p.getD 2 0).toNat * 2 ^ 16 + (p.getD 1 0).toNat * 2 ^ 8 +
    (p.getD 0 0).toNat

/-- `toc_field`. -/
def tocField (p : Str) : Str := p.rdropWhile fun c => c = 0x20 ∨ c = 0

/-- `toc_parse_u64`. -/
def tocParseU64 (field : Str) : Option ℕ :=
  if field = [] then none
  else field.foldl
    (fun result c => result.bind fun n =>
      if c < 0x30 ∨ 0x39 < c then none else some ((n * 10 + (c.toNat - 0x30)) % 2 ^ 64))
    (some 0)

/-- `toc_init_gnu`. -/
def tocInitGnu (toc : Toc) (bodyLen word : ℕ) : TocErr × Toc :=
  let field := toc.readAll word
  if field.1.length < word then (.truncated, field.2)
  else
    let count := if word = 8 then tocU64be field.1 else tocU32be field.1
    if count > bodyLen / word then (.truncated, field.2)
    else
      let discarded := field.2.discard (count * word)
      if discarded.1 < count * word then (.truncated, discarded.2)
      else (.ok, { discarded.2 with format := .gnu, count := count })

/-- `toc_init_bsd`. -/
def tocInitBsd (toc : Toc) (bodyLen : ℕ) : TocErr × Toc :=
  let field := toc.readAll 4
  if field.1.length < 4 then (.truncated, field.2)
  else
    let ranlibBytes := tocU32le field.1
    if bodyLen < 8 ∨ ranlibBytes > bodyLen - 8 then (.truncated, field.2)
    else
      let discarded := field.2.discard ranlibBytes
      if discarded.1 < ranlibBytes then (.truncated, discarded.2)
      else
        let size := discarded.2.readAll 4
        if size.1.length < 4 then (.truncated, size.2)
        else
          let strtabSize := tocU32le size.1
          if strtabSize > bodyLen - 8 - ranlibBytes then (.truncated, size.2)
          else (.ok, { size.2 with format := .bsd, remaining := strtabSize })

/-- The part of `spn_toc_init` that tells the layouts apart by the name of the member. -/
def tocInitLayout (toc : Toc) (name : Str) (bodyLen : ℕ) : TocErr × Toc :=
  if name = str "/" then tocInitGnu toc bodyLen 4
  else if name = str "/SYM64/" then tocInitGnu toc bodyLen 8
  else if str "__.SYMDEF" <+: name then tocInitBsd toc bodyLen
  else (.missing, toc)

/-- The part of `spn_toc_init` that is about the name of the member, which stands before the
body where the header gives its length. -/
def tocInitMember (toc : Toc) (name : Str) (size : ℕ) : TocErr × Toc :=
  if str "#1/" <+: name then
    match tocParseU64 (name.drop 3) with
    | none => (.truncated, toc)
    | some nameLen =>
      if nameLen > size then (.truncated, toc)
      else
        let readLen := min nameLen 64
        let longName := toc.readAll readLen
        if longName.1.length < readLen then (.truncated, longName.2)
        else
          let discarded := longName.2.discard (nameLen - readLen)
          if discarded.1 < nameLen - readLen then (.truncated, discarded.2)
          else tocInitLayout discarded.2 (tocField longName.1) (size - nameLen)
  else tocInitLayout toc name size

/-- `toc_set`. -/
def tocSet (result : TocErr × Toc) : Toc := { result.2 with err := result.1 }

/-- `spn_toc_init`, on an archive of these bytes. -/
def tocInit (io : Str) : Toc :=
  let magic := io.take 8
  let toc : Toc := ⟨io.drop 8, 0, .none, .ok, 0, 0⟩
  if magic ≠ str "!<arch>\n" ∧ magic ≠ str "!<thin>\n" then tocSet (.magic, toc)
  else
    let header := toc.io.take 60
    let toc : Toc := { toc with io := toc.io.drop 60 }
    if header = [] then toc
    else if header.length < 60 then tocSet (.truncated, toc)
    else if header.getD 58 0 ≠ 0x60 ∨ header.getD 59 0 ≠ 0x0a then tocSet (.truncated, toc)
    else
      match tocParseU64 (tocField ((header.drop 48).take 10)) with
      | none => tocSet (.truncated, toc)
      | some size =>
        tocSet (tocInitMember { toc with left := size } (tocField (header.take 16)) size)

/-- The loop of `spn_toc_next` over a BSD table, with a turn for each byte that remains. -/
def tocNextBsd : ℕ → Toc → Option Str × Toc
  | 0, toc => (none, toc)
  | turns + 1, toc =>
    if toc.remaining = 0 then (none, toc)
    else
      match toc.peekUntil 0 with
      | none => (none, { toc with err := .truncated })
      | some view =>
        if view.length > toc.remaining then (none, { toc with err := .truncated })
        else
          let next : Toc :=
            { toc.consume view.length with remaining := toc.remaining - view.length }
          if view.length = 1 then tocNextBsd turns next
          else (some view.dropLast, next)

/-- `spn_toc_next`: the symbol, and the parser after it. -/
def tocNext (toc : Toc) : Option Str × Toc :=
  if toc.err ≠ .ok then (none, toc)
  else
    match toc.format with
    | .none => (none, toc)
    | .gnu =>
      if toc.count = 0 then (none, toc)
      else
        match toc.peekUntil 0 with
        | none => (none, { toc with err := .truncated })
        | some view =>
          (some view.dropLast, { toc.consume view.length with count := toc.count - 1 })
    | .bsd => tocNextBsd toc.remaining toc

/-- `while (spn_toc_next(&toc, &symbol))`, for so many turns. -/
def tocSymbolsFrom : ℕ → Toc → List Str × Toc
  | 0, toc => ([], toc)
  | turns + 1, toc =>
    match tocNext toc with
    | (none, toc') => ([], toc')
    | (some symbol, toc') =>
      ((symbol :: (tocSymbolsFrom turns toc').1), (tocSymbolsFrom turns toc').2)

/-- The loop of `read_archive_symbols`. -/
def tocSymbols (toc : Toc) : List Str × Toc := tocSymbolsFrom (toc.count + toc.remaining + 1) toc

end Spn.Compiler
