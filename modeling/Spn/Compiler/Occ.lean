import Spn.Lib.Tokens
import Spn.Paths

/-! # Reading a depfile

`compiler/occ.c` and `spn_gnu_parse_depfile` of `compiler/gnu.c`. A read of the content
that is outside of it, and a loop that takes more turns than the content has characters,
have no result.
-/
namespace Spn.Compiler

open Spn.Lib

def lineFeed : UInt8 := 0x0a
def carriageReturn : UInt8 := 0x0d
def space : UInt8 := 0x20
def tab : UInt8 := 0x09
def colon : UInt8 := 0x3a
def slash : UInt8 := 0x2f
def hash : UInt8 := 0x23
def dollar : UInt8 := 0x24

/-- `occ_err_t`. -/
inductive OccErr
  | ok | missingColon | badContinuation | unterminatedQuote | prereqTooLong
  deriving DecidableEq, Repr

/-- `occ_parser_t`, without the buffer that a prerequisite is collected in. -/
structure OccParser where
  content : Str
  n : ℕ
  err : OccErr
  deriving DecidableEq, Repr

/-- `occ_is_sep`. -/
def occIsSep (c : UInt8) : Bool := c = slash || c = backslash

/-- `occ_is_eol`. -/
def occIsEol (c : UInt8) : Bool := c = carriageReturn || c = lineFeed

/-- `occ_is_hspace`. -/
def occIsHspace (c : UInt8) : Bool := c = space || c = tab

/-- `occ_is_whitespace`. -/
def occIsWhitespace (c : UInt8) : Bool := occIsHspace c || occIsEol c

/-- `p->content.data[index]`. -/
def OccParser.data (p : OccParser) (index : ℕ) : Option UInt8 := p.content[index]?

/-- `p->n += count`. -/
def OccParser.skip (p : OccParser) (count : ℕ) : OccParser := { p with n := p.n + count }

/-- `occ_is_valid`. -/
def occIsValid (p : OccParser) (index : ℕ) : Bool := index < p.content.length

/-- `occ_is_done`. -/
def occIsDone (p : OccParser) : Bool := !occIsValid p p.n

/-- `occ_peek`. -/
def occPeek (p : OccParser) : Option UInt8 := if occIsDone p then some 0 else p.data p.n

/-- `occ_look`. -/
def occLook (p : OccParser) (ahead : ℕ) : Option UInt8 :=
  if !occIsValid p (p.n + ahead) then some 0 else p.data (p.n + ahead)

/-- `occ_eat`. -/
def occEat (p : OccParser) : Option (UInt8 × OccParser) :=
  if occIsDone p then some (0, p)
  else do
    let c ← p.data p.n
    return (c, p.skip 1)

/-- `occ_match`. -/
def occMatch (p : OccParser) (c : UInt8) : Option Bool := do
  return (← occPeek p) = c

/-- `occ_match_eat`. -/
def occMatchEat (p : OccParser) (c : UInt8) : Option (Bool × OccParser) := do
  if ← occMatch p c then
    let (_, p) ← occEat p
    return (true, p)
  else return (false, p)

/-- `occ_match_sep`. -/
def occMatchSep (p : OccParser) : Option Bool := do
  return occIsSep (← occPeek p)

/-- `occ_match_eol`. -/
def occMatchEol (p : OccParser) : Option Bool :=
  if occIsDone p then some true
  else do return occIsEol (← occPeek p)

/-- `occ_match_hspace`. -/
def occMatchHspace (p : OccParser) : Option Bool := do
  return occIsHspace (← occPeek p)

/-- `occ_match_whitespace`. -/
def occMatchWhitespace (p : OccParser) : Option Bool :=
  if occIsDone p then some true
  else do return occIsWhitespace (← occPeek p)

/-- The turns a loop over the content can take. -/
def OccParser.turns (p : OccParser) : ℕ := p.content.length + 1

def eatHspaceLoop : ℕ → OccParser → Option OccParser
  | 0, _ => none
  | turns + 1, p => do
    if ← occMatchHspace p then
      let (_, p) ← occEat p
      eatHspaceLoop turns p
    else return p

/-- `occ_eat_hspace`. -/
def occEatHspace (p : OccParser) : Option (UInt8 × OccParser) := do
  let p ← eatHspaceLoop p.turns p
  return (← occPeek p, p)

def eatWhitespaceLoop : ℕ → OccParser → Option OccParser
  | 0, _ => none
  | turns + 1, p => do
    if !occIsDone p && (← occMatchWhitespace p) then
      let (_, p) ← occEat p
      eatWhitespaceLoop turns p
    else return p

/-- `occ_eat_whitespace`. -/
def occEatWhitespace (p : OccParser) : Option (UInt8 × OccParser) := do
  let p ← eatWhitespaceLoop p.turns p
  return (← occPeek p, p)

def parseTargetLoop : ℕ → OccParser → Option (OccErr × OccParser)
  | 0, _ => none
  | turns + 1, p => do
    if ← occMatchEol p then return (.missingColon, p)
    else
      let (found, p) ← occMatchEat p colon
      if found then
        -- a colon before a separator is that of a drive
        if ← occMatchSep p then parseTargetLoop turns p else return (.ok, p)
      else
        let (_, p) ← occEat p
        parseTargetLoop turns p

/-- `occ_parse_target`. -/
def occParseTarget (p : OccParser) : Option (OccErr × OccParser) := parseTargetLoop p.turns p

def seekLoop : ℕ → OccParser → Option (Bool × OccParser)
  | 0, _ => none
  | turns + 1, p => do
    let (c, p) ← occEatHspace p
    if c = 0 then return (false, p)
    else if ← occMatchEol p then
      let (c, p) ← occEatWhitespace p
      if c = 0 then return (false, p)
      else
        let (err, p) ← occParseTarget p
        let p := { p with err := err }
        if err ≠ .ok then return (false, p) else seekLoop turns p
    else if !(← occMatch p backslash) then return (true, p)
    else
      let next ← occLook p 1
      if next = 0 then
        let (_, p) ← occEat p
        return (false, p)
      else if next = lineFeed then seekLoop turns (p.skip 2)
      else if next = carriageReturn then
        if (← occLook p 2) = lineFeed then seekLoop turns (p.skip 3)
        else return (false, { p with err := .badContinuation })
      else return (true, p)

/-- `occ_seek`. -/
def occSeek (p : OccParser) : Option (Bool × OccParser) :=
  if p.err ≠ .ok then some (false, p) else seekLoop p.turns p

section

variable (pathMax : ℕ)

/-- `occ_push`, to what the buffer holds so far. -/
def occPush (out : Str) (c : UInt8) : Except OccErr Str :=
  if out.length ≥ pathMax then .error .prereqTooLong else .ok (out ++ [c])

/-- `count` backslashes are pushed. -/
def occPushSlashes : ℕ → Str → Except OccErr Str
  | 0, out => .ok out
  | count + 1, out => do occPushSlashes count (← occPush pathMax out backslash)

/-! After an error the position of the parser is not read any more. -/

def quotedLoop : ℕ → OccParser → Str → Option (Except OccErr (Str × OccParser))
  | 0, _, _ => none
  | turns + 1, p, out => do
    if (← occMatchEol p) || (← occMatch p doubleQuote) then return .ok (out, p)
    else
      let (c, p) ← occEat p
      match occPush pathMax out c with
      | .error err => return .error err
      | .ok out => quotedLoop turns p out

def countSlashesLoop (p : OccParser) : ℕ → ℕ → Option ℕ
  | 0, _ => none
  | turns + 1, slashes => do
    if (← occLook p slashes) = backslash then countSlashesLoop p turns (slashes + 1)
    else return slashes

/-- A turn of the loop over a prerequisite without quotes, for a character that is no
escape. -/
def plainTurn (p : OccParser) (out : Str) : Option (Except OccErr (Bool × Str × OccParser)) := do
  if (← occMatch p dollar) && (← occLook p 1) = dollar then
    return (occPush pathMax out dollar).map fun out => (false, out, p.skip 2)
  else
    let (c, p) ← occEat p
    return (occPush pathMax out c).map fun out => (false, out, p)

/-- A turn of the loop over a prerequisite without quotes, and whether it is the last. -/
def unquotedTurn (p : OccParser) (out : Str) : Option (Except OccErr (Bool × Str × OccParser)) := do
  if ← occMatch p backslash then
    let slashes ← countSlashesLoop p p.turns 0
    let next ← occLook p slashes
    if next = 0 then
      return (occPushSlashes pathMax (slashes - 1) out).map fun out => (true, out, p.skip slashes)
    else if occIsEol next then
      return (occPushSlashes pathMax (slashes - 1) out).map fun out =>
        (true, out, p.skip (slashes - 1))
    else if next = space ∨ next = tab then
      return (occPushSlashes pathMax (slashes / 2) out >>= (occPush pathMax · next)).map fun out =>
        (false, out, p.skip (slashes + 1))
    else if next = hash then
      return (occPushSlashes pathMax (slashes - 1) out >>= (occPush pathMax · hash)).map fun out =>
        (false, out, p.skip (slashes + 1))
    else plainTurn pathMax p out
  else plainTurn pathMax p out

def unquotedLoop : ℕ → OccParser → Str → Option (Except OccErr (Str × OccParser))
  | 0, _, _ => none
  | turns + 1, p, out => do
    if ← occMatchWhitespace p then return .ok (out, p)
    else
      match ← unquotedTurn pathMax p out with
      | .error err => return .error err
      | .ok (last, out, p) => if last then return .ok (out, p) else unquotedLoop turns p out

/-- `occ_parse_one`. -/
def occParseOne (p : OccParser) : Option (Except OccErr (Str × OccParser)) := do
  let (quoted, p) ← occMatchEat p doubleQuote
  if quoted then
    match ← quotedLoop pathMax p.turns p [] with
    | .error err => return .error err
    | .ok (out, p) =>
      let (closed, p) ← occMatchEat p doubleQuote
      if closed then return .ok (out, p) else return .error .unterminatedQuote
  else unquotedLoop pathMax p.turns p []

/-- `occ_init`. -/
def occInit (content : Str) : Option OccParser := do
  let (c, p) ← occEatWhitespace ⟨content, 0, .ok⟩
  if c = 0 then return p
  else
    let (err, p) ← occParseTarget p
    return { p with err := err }

/-- `occ_next`. -/
def occNext (p : OccParser) : Option (Option Str × OccParser) := do
  let (found, p) ← occSeek p
  if found then
    match ← occParseOne pathMax p with
    | .error err => return (none, { p with err := err })
    | .ok (prereq, p) => return (some prereq, { p with err := .ok })
  else return (none, p)

/-- The loop of `spn_gnu_parse_depfile`. -/
def prereqsLoop : ℕ → OccParser → Option (List Str × OccErr)
  | 0, _ => none
  | turns + 1, p => do
    match ← occNext pathMax p with
    | (none, p) => return ([], p.err)
    | (some prereq, p) =>
      let (prereqs, err) ← prereqsLoop turns p
      return (prereq :: prereqs, err)

/-- `spn_gnu_parse_depfile`: the prerequisites, and the error it ends with. -/
def gnuParseDepfile (content : Str) : Option (List Str × OccErr) := do
  let p ← occInit content
  if p.err ≠ .ok then return ([], p.err) else prereqsLoop pathMax p.turns p

end

end Spn.Compiler
