import Mathlib

/-! # Documents of tables

The part of TOML that a document of flat tables needs: tables and arrays of tables at the
top, strings and arrays of strings in them. How strings are quoted and how a document is
parsed is given; a document is read when the parser yields it from its text.
-/
namespace Spn.Lib.Toml

/-- Texts are bytes. -/
abbrev Bytes := List UInt8

inductive Value
  | str (s : Bytes)
  | arr (values : List Bytes)
  deriving DecidableEq, Repr

/-- The fields of a table. -/
abbrev Fields := List (Bytes × Value)

/-- A document: its tables and its arrays of tables. -/
structure Doc where
  tables : List (Bytes × Fields)
  arrays : List (Bytes × List Fields)
  deriving DecidableEq, Repr

/-- A field by its key. -/
def Fields.get? (fields : Fields) (key : Bytes) : Option Value :=
  (fields.find? fun field => field.1 = key).map Prod.snd

/-- A value as a string. -/
def Value.str? : Value → Option Bytes
  | .str s => some s
  | .arr _ => none

/-- A value as an array. -/
def Value.arr? : Value → Option (List Bytes)
  | .str _ => none
  | .arr values => some values

/-- A string by its key. -/
def Fields.str? (fields : Fields) (key : Bytes) : Option Bytes := (fields.get? key).bind Value.str?

/-- An array by its key. -/
def Fields.arr? (fields : Fields) (key : Bytes) : Option (List Bytes) :=
  (fields.get? key).bind Value.arr?

/-- A table by its name. -/
def Doc.table? (doc : Doc) (name : Bytes) : Option Fields :=
  (doc.tables.find? fun table => table.1 = name).map Prod.snd

/-- An array of tables by its name. -/
def Doc.array? (doc : Doc) (name : Bytes) : Option (List Fields) :=
  (doc.arrays.find? fun array => array.1 = name).map Prod.snd

/-! ## The text of a document -/

/-- Quoting, as it is written, and the parser. -/
structure Syntax where
  quote : Bytes → Bytes
  parse : Bytes → Option Doc

section

variable (quote : Bytes → Bytes)

/-- The parts with the separator between them. -/
def joined (sep : Bytes) : List Bytes → Bytes
  | [] => []
  | [part] => part
  | part :: rest => part ++ (sep ++ joined sep rest)

/-- After the first part every other one follows a separator. -/
theorem joined_cons (sep part : Bytes) (rest : List Bytes) :
    joined sep (part :: rest) = part ++ rest.flatMap fun next => sep ++ next := by
  induction rest generalizing part with
  | nil => simp [joined]
  | cons next rest ih =>
    rw [joined, ih, List.flatMap_cons, List.append_assoc]
    exact List.cons_ne_nil _ _

/-- `"a"` and `["a", "b"]`. -/
def Value.text : Value → Bytes
  | .str s => quote s
  | .arr values => [0x5b] ++ (joined [0x2c, 0x20] (values.map quote) ++ [0x5d])

/-- `key = value`. -/
def fieldText (field : Bytes × Value) : Bytes :=
  field.1 ++ ([0x20, 0x3d, 0x20] ++ (field.2.text quote ++ [0x0a]))

/-- `[name]`, the fields and a blank line. -/
def tableText (table : Bytes × Fields) : Bytes :=
  [0x5b] ++ (table.1 ++ ([0x5d, 0x0a] ++ (table.2.flatMap (fieldText quote) ++ [0x0a])))

/-- `[[name]]` and the fields. -/
def elementText (name : Bytes) (fields : Fields) : Bytes :=
  [0x5b, 0x5b] ++ (name ++ ([0x5d, 0x5d, 0x0a] ++ fields.flatMap (fieldText quote)))

/-- The elements, with a blank line between them. -/
def arrayText (array : Bytes × List Fields) : Bytes :=
  joined [0x0a] (array.2.map (elementText quote array.1))

/-- The tables, then the arrays. -/
def Doc.text (doc : Doc) : Bytes :=
  doc.tables.flatMap (tableText quote) ++ (doc.arrays.flatMap (arrayText quote) ++ [0x0a])

end

/-- The parser yields the document from its text. -/
def Syntax.Reads (S : Syntax) (doc : Doc) : Prop := S.parse (doc.text S.quote) = some doc

/-! ## Fields that may be left out -/

/-- A field that is there only where it is present. -/
def Fields.opt (present : Bool) (key : Bytes) (value : Value) : Fields :=
  if present then [(key, value)] else []

variable {key k : Bytes} {value : Value} {rest : Fields}

theorem get?_cons_self : Fields.get? ((key, value) :: rest) key = some value := by
  simp [Fields.get?]

theorem get?_cons_ne (h : k ≠ key) :
    Fields.get? ((k, value) :: rest) key = Fields.get? rest key := by
  simp [Fields.get?, h]

theorem get?_opt_ne {present : Bool} (h : k ≠ key) :
    Fields.get? (Fields.opt present k value ++ rest) key = Fields.get? rest key := by
  cases present <;> simp [Fields.get?, Fields.opt, h]

theorem get?_opt_self {present : Bool} :
    Fields.get? (Fields.opt present key value ++ rest) key =
      if present then some value else Fields.get? rest key := by
  cases present <;> simp [Fields.get?, Fields.opt]

theorem get?_nil : Fields.get? [] key = none := rfl

/-- A string that may be left out, with what the reader takes for it then. -/
theorem getD_str? {present : Bool} {s default : Bytes} :
    ((if present then some (Value.str s) else none).bind Value.str?).getD default =
      if present then s else default := by
  cases present <;> rfl

theorem getD_arr? {present : Bool} {values default : List Bytes} :
    ((if present then some (Value.arr values) else none).bind Value.arr?).getD default =
      if present then values else default := by
  cases present <;> rfl

end Spn.Lib.Toml
