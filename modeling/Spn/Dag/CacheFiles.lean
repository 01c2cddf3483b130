import Spn.Dag.Types
import Spn.Lib.Decimal
import Spn.Lib.Reader

/-! # The files of the cache

The rows of `dag/store.c`: what an action put out, what it looked at, and the hints of the
file cache. Each row is written and read; a reader can reject, and negating the least signed
number overflows.
-/
namespace Spn.Dag.CacheFile

open Spn.Lib

/-! ## Reading rows -/

/-- How reading fails: the text is rejected, a signed number overflows, or the loop has not
ended after a turn for each byte. -/
inductive Fault
  | reject | overflow | endless
  deriving DecidableEq, Repr

/-- A function of the source that moves a cursor. -/
abbrev Row (α : Type) := Reader Fault UInt8 α

def newline : UInt8 := 0x0a
def space : UInt8 := 0x20
def colon : UInt8 := 0x3a
def minus : UInt8 := 0x2d

/-- `return false`. -/
def Row.reject {α : Type} : Row α := fun _ => .error .reject

/-- A check that rejects. -/
def Row.check (b : Bool) : Row Unit := fun s => if b then .ok ((), s) else .error .reject

/-- `row_lit`. -/
def rowLit (c : UInt8) : Row Unit
  | [] => .error .reject
  | d :: rest => if d = c then .ok ((), rest) else .error .reject

/-- The loop of `row_u64`: the value, which wraps, and the number of digits. -/
def u64From (value digits : ℕ) : Str → ℕ × ℕ × Str
  | [] => (value, digits, [])
  | c :: rest =>
    if isDigit c then u64From ((value * 10 + digit c) % 2 ^ 64) (digits + 1) rest
    else (value, digits, c :: rest)

/-- `row_u64`. -/
def rowU64 : Row ℕ := fun s =>
  let (value, digits, rest) := u64From 0 0 s
  if digits = 0 then .error .reject else .ok (value, rest)

/-- `(s64)value`. -/
def toS64 (value : ℕ) : ℤ := if value < 2 ^ 63 then value else value - 2 ^ 64

/-- `row_s64`. -/
def rowS64 : Row ℤ := fun s =>
  let negative := s.head? = some minus
  match rowU64 (if negative then s.tail else s) with
  | .error e => .error e
  | .ok (value, rest) =>
    if negative then if value = 2 ^ 63 then .error .overflow else .ok (-toS64 value, rest)
    else .ok (toS64 value, rest)

/-- `row_bytes`. -/
def rowBytes (len : ℕ) : Row Str := fun s =>
  if s.length < len then .error .reject else .ok (s.take len, s.drop len)

/-- `row_str`. -/
def rowStr : Row Str := do
  let len ← rowU64
  rowLit colon
  rowBytes len

/-- `spn_dag_digest_hex`. -/
def digestHex (d : Digest) : Str := hex d.bytes

/-- `spn_dag_digest_parse`. -/
def digestParse (text : Str) : Option Digest :=
  if text.length = 64 then
    match unhex text with
    | some bytes => if h : bytes.length = 32 then some ⟨bytes, h⟩ else none
    | none => none
  else none

/-- `row_digest`. -/
def rowDigest : Row Digest := do
  let text ← rowBytes 64
  match digestParse text with
  | some d => pure d
  | none => Row.reject

/-- `row_line`. -/
def rowLine : Row Str := fun s =>
  (do
    let line ← rowBytes (s.takeWhile (· ≠ newline)).length
    rowLit newline
    pure line : Row Str) s

/-- `row_header`. -/
def rowHeader (version : UInt8) : Row Unit := do
  rowLit version
  rowLit newline

/-- The loop over the rows of a file. -/
def rows {α : Type} (row : Row α) (s : Str) : Except Fault (List α) :=
  Reader.many row .endless s

/-! ## Outputs -/

/-- `spn_dag_action_output_t`. -/
@[ext] structure ActionOutput where
  digest : Digest
  name : Str
  deriving DecidableEq

/-- `write_row_str`. -/
def writeRowStr (s : Str) : Str := decimal s.length ++ colon :: s

/-- `write_output_row`. -/
def writeOutputRow (o : ActionOutput) : Str :=
  digestHex o.digest ++ space :: (writeRowStr o.name ++ [newline])

/-- `parse_output_row`. -/
def parseOutputRow : Row ActionOutput := do
  let digest ← rowDigest
  rowLit space
  let name ← rowStr
  rowLit newline
  pure ⟨digest, name⟩

def outputsVersion : UInt8 := 0x32

/-- `write_outputs`. -/
def writeOutputs (os : List ActionOutput) : Str :=
  outputsVersion :: newline :: os.flatMap writeOutputRow

/-- `parse_outputs`. -/
def parseOutputs (content : Str) : Except Fault (List ActionOutput) :=
  match rowHeader outputsVersion content with
  | .error e => .error e
  | .ok (_, rest) => rows parseOutputRow rest

/-! ## Path sets -/

/-- `spn_dag_pathset_t`. -/
@[ext] structure Pathset where
  pinned : Digest
  obs : List Obs
  deriving DecidableEq

/-- `format_obs_kind`. -/
def formatObsKind : ObsKind → UInt8
  | .file => 0x66
  | .absent => 0x61
  | .enumeration => 0x65

/-- `parse_obs_kind`. -/
def parseObsKind (c : UInt8) : Option ObsKind :=
  if c = 0x66 then some .file
  else if c = 0x61 then some .absent
  else if c = 0x65 then some .enumeration
  else none

/-- `(spn_path_root_t)root`, below `SPN_PATH_ROOT_COUNT`. -/
def rootOf (n : ℕ) : Option PathRoot := (.none :: Roots.opened)[n]?

/-- The text of a row. -/
def obsText (o : Obs) : Str :=
  formatObsKind o.kind :: space :: (decimal o.path.root.toNat ++ space ::
    ((if o.kind = .enumeration then writeRowStr o.filter ++ [space] else []) ++
      (o.path.sub ++ [newline])))

/-- `write_obs_row`; nothing for a path with a newline. -/
def writeObsRow (o : Obs) : Option Str := if newline ∈ o.path.sub then none else some (obsText o)

/-- The kind of a row. -/
def rowKind : Row ObsKind := do
  let kind ← rowBytes 1
  match kind.head?.bind parseObsKind with
  | some kind => pure kind
  | none => Row.reject

/-- The root of a row. -/
def rowRoot : Row PathRoot := do
  let root ← rowU64
  match rootOf root with
  | some root => pure root
  | none => Row.reject

/-- The filter of a row, which only enumerations have. -/
def rowFilter (kind : ObsKind) : Row Str :=
  if kind = .enumeration then do
    let filter ← rowStr
    rowLit space
    pure filter
  else pure []

section

variable (absolute : Str → Bool)

/-- The path at the end of a row; `sp_fs_is_absolute` is a parameter. -/
def rowPath (root : PathRoot) : Row Path := do
  let sub ← rowLine
  Row.check (root ≠ .none || absolute sub)
  pure ⟨root, sub⟩

/-- `parse_obs_row`. -/
def parseObsRow : Row Obs := do
  let kind ← rowKind
  rowLit space
  let root ← rowRoot
  rowLit space
  let filter ← rowFilter kind
  let path ← rowPath absolute root
  pure ⟨kind, path, filter⟩

def obsVersion : UInt8 := 0x37

/-- `write_obs`. -/
def writeObs (set : Pathset) : Option Str :=
  (set.obs.mapM writeObsRow).map fun rows =>
    obsVersion :: newline :: (digestHex set.pinned ++ newline :: rows.flatten)

/-- What comes before the rows. -/
def rowPinned : Row Digest := do
  rowHeader obsVersion
  let pinned ← rowDigest
  rowLit newline
  pure pinned

/-- `parse_obs`. -/
def parseObs (content : Str) : Except Fault Pathset :=
  match rowPinned content with
  | .error e => .error e
  | .ok (pinned, rest) => (rows (parseObsRow absolute) rest).map fun obs => ⟨pinned, obs⟩

/-! ## Hints -/

/-- `spn_dag_file_meta_t`. -/
@[ext] structure FileMeta where
  device : ℕ
  inode : ℕ
  sec : ℤ
  nsec : ℤ
  size : ℤ
  digest : Digest
  deriving DecidableEq

/-- A hint: what the file cache knows of a path. -/
abbrev Hint := Path × FileMeta

/-- `sp_fmt_int`. -/
def decimalInt (n : ℤ) : Str := if n < 0 then minus :: decimal n.natAbs else decimal n.natAbs

/-- `write_hint_row`. The device is not written. -/
def writeHintRow (h : Hint) : Str :=
  decimal h.2.inode ++ space :: (decimalInt h.2.sec ++ space :: (decimalInt h.2.nsec ++ space ::
    (decimalInt h.2.size ++ space :: (digestHex h.2.digest ++ space ::
      (decimal h.1.root.toNat ++ space :: (h.1.sub ++ [newline]))))))

/-- `parse_hint_row`. -/
def parseHintRow : Row Hint := do
  let inode ← rowU64
  rowLit space
  let sec ← rowS64
  rowLit space
  let nsec ← rowS64
  rowLit space
  let size ← rowS64
  rowLit space
  let digest ← rowDigest
  rowLit space
  let root ← rowRoot
  rowLit space
  let path ← rowPath absolute root
  pure (path, ⟨0, inode, sec, nsec, size, digest⟩)

def hintsVersion : UInt8 := 0x33

/-- The rows that `spn_dag_file_cache_flush` writes: paths with a newline are left out. -/
def written (hints : List Hint) : List Hint := hints.filter fun h => newline ∉ h.1.sub

/-- What `spn_dag_file_cache_flush` writes. -/
def writeHints (hints : List Hint) : Str :=
  hintsVersion :: newline :: (written hints).flatMap writeHintRow

/-- What `spn_dag_file_cache_load` reads. -/
def parseHints (content : Str) : Except Fault (List Hint) :=
  match rowHeader hintsVersion content with
  | .error e => .error e
  | .ok (_, rest) => rows (parseHintRow absolute) rest

end
end Spn.Dag.CacheFile
