import Spn.Compiler.TocNames
import Spn.Lib.Decimal
import Spn.Lib.Words

/-! # Archives with a symbol table

The layouts of a symbol table that is the first member of an archive, and what the parser
takes from each. Tables of 32-bit words, and GNU tables of 64-bit words, give every name. A
BSD table of 64-bit words is read as one of 32-bit words.
-/
namespace Spn.Compiler

open Spn.Lib

/-! ## The layouts -/

/-- The bytes of a word. -/
def wordOf (wide : Bool) : ℕ := if wide then 8 else 4

/-- A symbol table: where its symbols are (what stands there is not looked at), and their
names. A GNU table has a name for each of them, and a BSD table has a string area. -/
inductive Table
  | gnu (wide : Bool) (refs : Str) (names : List Str) (padding : ℕ)
  | bsd (wide sorted : Bool) (ranlibs area slack : Str)

/-- The name of the member. -/
def Table.title : Table → Str
  | .gnu false _ _ _ => str "/"
  | .gnu true _ _ _ => str "/SYM64/"
  | .bsd false false _ _ _ => str "__.SYMDEF"
  | .bsd false true _ _ _ => str "__.SYMDEF SORTED"
  | .bsd true false _ _ _ => str "__.SYMDEF_64"
  | .bsd true true _ _ _ => str "__.SYMDEF_64 SORTED"

/-- The body of a BSD table with words of this length. -/
def bsdBody (word : ℕ) (ranlibs area slack : Str) : Str :=
  le word ranlibs.length ++ (ranlibs ++ (le word area.length ++ (area ++ slack)))

/-- The bytes of the table. -/
def Table.body : Table → Str
  | .gnu wide refs names padding =>
    be (wordOf wide) names.length ++ (refs ++ (terminated 0 names ++ List.replicate padding 0))
  | .bsd wide _ ranlibs area slack => bsdBody (wordOf wide) ranlibs area slack

/-- The string area. -/
def Table.area : Table → Str
  | .gnu _ _ names padding => terminated 0 names ++ List.replicate padding 0
  | .bsd _ _ _ area _ => area

/-- What fits into the words of the table, and has an entry for each symbol. -/
def Table.Formed : Table → Prop
  | .gnu wide refs names _ => (∀ name ∈ names, 0 ∉ name) ∧
      refs.length = names.length * wordOf wide ∧ names.length < 256 ^ wordOf wide
  | .bsd wide _ ranlibs area _ => 2 * wordOf wide ∣ ranlibs.length ∧
      ranlibs.length < 256 ^ wordOf wide ∧ area.length < 256 ^ wordOf wide

/-- The non-empty names of the string area. -/
def Table.names (table : Table) : List Str := between 0 table.area

/-- Where the name of the member stands: in the header, or before the table with so much
behind it. -/
inductive Placed
  | short | long (padding : ℕ)
  deriving DecidableEq, Repr

/-- What stands in the header for the name. -/
def Placed.label (title : Str) : Placed → Str
  | .short => title
  | .long padding => str "#1/" ++ decimal (title.length + padding)

/-- What stands before the table for the name. -/
def Placed.lead (title : Str) : Placed → Str
  | .short => []
  | .long padding => title ++ List.replicate padding 0

/-- A field of a header, with spaces behind what stands in it. -/
def padded (width : ℕ) (s : Str) : Str := s ++ List.replicate (width - s.length) 0x20

/-- An archive whose first member is a symbol table. -/
structure Archive where
  thin : Bool
  table : Table
  placed : Placed
  /-- The date, the owner and the mode of the member. -/
  stamps : Str
  /-- The members behind the table. -/
  members : Str
  formed : table.Formed
  title_le : placed = .short → table.title.length ≤ 16
  stamps_length : stamps.length = 32
  size_lt : (placed.lead table.title ++ table.body).length < 10 ^ 10

/-- The member's size. -/
def Archive.size (a : Archive) : ℕ := (a.placed.lead a.table.title ++ a.table.body).length

def Archive.magic (a : Archive) : Str := if a.thin then str "!<thin>\n" else str "!<arch>\n"

def Archive.header (a : Archive) : Str :=
  padded 16 (a.placed.label a.table.title) ++
    (a.stamps ++ (padded 10 (decimal a.size) ++ [0x60, 0x0a]))

def Archive.bytes (a : Archive) : Str :=
  a.magic ++ (a.header ++ (a.placed.lead a.table.title ++ (a.table.body ++ a.members)))

/-! ## Fields -/

theorem length_padded {width : ℕ} {s : Str} (h : s.length ≤ width) :
    (padded width s).length = width := by
  rw [padded, List.length_append, List.length_replicate]
  omega

/-- A text that does not end with what is stripped from a field. -/
def FieldEnd (s : Str) : Prop := ∀ c ∈ s.getLast?, c ≠ 0x20 ∧ c ≠ 0

theorem tocField_append {s pad : Str} (hs : FieldEnd s) (hpad : ∀ c ∈ pad, c = 0x20 ∨ c = 0) :
    tocField (s ++ pad) = s := by
  have hself : s.rdropWhile (fun c => decide (c = 0x20 ∨ c = 0)) = s := by
    refine List.rdropWhile_eq_self_iff.2 fun hne => ?_
    have hlast := hs _ (List.getLast?_eq_getLast_of_ne_nil hne)
    simpa using hlast
  have hpos : ∀ c ∈ pad.reverse, decide (c = 0x20 ∨ c = 0) = true := fun c hc => by
    simpa using hpad c (List.mem_reverse.1 hc)
  rw [tocField, List.rdropWhile, List.reverse_append, List.dropWhile_append_of_pos hpos]
  exact hself

theorem tocField_padded {width : ℕ} {s : Str} (hs : FieldEnd s) : tocField (padded width s) = s :=
  tocField_append hs fun _ hc => .inl (List.eq_of_mem_replicate hc)

theorem ends_title (table : Table) : FieldEnd table.title := by
  match table with
  | .gnu false _ _ _ | .gnu true _ _ _ | .bsd false false _ _ _ | .bsd false true _ _ _
  | .bsd true false _ _ _ | .bsd true true _ _ _ =>
    intro c hc
    cases hc
    decide

theorem title_lt (table : Table) : table.title.length < 64 := by
  match table with
  | .gnu false _ _ _ | .gnu true _ _ _ | .bsd false false _ _ _ | .bsd false true _ _ _
  | .bsd true false _ _ _ | .bsd true true _ _ _ => exact Nat.le_of_ble_eq_true rfl

theorem ends_digits {s : Str} (h : ∀ c ∈ s, isDigit c = true) : FieldEnd s := by
  intro c hc
  have hdigit := h c (List.mem_of_mem_getLast? hc)
  refine ⟨?_, ?_⟩
  · rintro rfl
    exact absurd hdigit (by decide)
  · rintro rfl
    exact absurd hdigit (by decide)

theorem tocParseU64_decimal {n : ℕ} (h : n < 2 ^ 64) : tocParseU64 (decimal n) = some n := by
  have hfold : ∀ (s : Str) (m : ℕ), (∀ c ∈ s, isDigit c = true) →
      s.foldl (fun result c => result.bind fun n =>
        if c < 0x30 ∨ 0x39 < c then none else some ((n * 10 + (c.toNat - 0x30)) % 2 ^ 64))
        (some (m % 2 ^ 64)) =
      some (s.foldl (fun n c => n * 10 + digit c) m % 2 ^ 64) := by
    intro s
    induction s with
    | nil => exact fun _ _ => rfl
    | cons c s ih =>
      intro m hs
      have hc := hs c List.mem_cons_self
      simp only [isDigit, decide_eq_true_eq, UInt8.le_iff_toNat_le] at hc
      have hnot : ¬ (c < 0x30 ∨ 0x39 < c) := by
        simp only [UInt8.lt_iff_toNat_lt]
        omega
      rw [List.foldl_cons, List.foldl_cons, Option.bind_some, if_neg hnot,
        ← ih _ fun d hd => hs d (List.mem_cons_of_mem _ hd), digit]
      congr 2
      omega
  obtain ⟨hne, hdigits⟩ := digits_decimal n
  have hvalue := hfold (decimal n) 0 hdigits
  rw [tocParseU64, if_neg hne]
  refine hvalue.trans (congrArg some ?_)
  rw [← numeral, numeral_decimal, Nat.mod_eq_of_lt h]

theorem length_decimal_le {n k : ℕ} (hk : 0 < k) (h : n < 10 ^ k) : (decimal n).length ≤ k := by
  rw [decimal, List.length_map]
  exact Nat.toDigits_length 10 n k hk h

/-! ## The header -/

theorem Archive.length_lead (a : Archive) :
    (a.placed.lead a.table.title).length ≤ a.size ∧ a.size < 10 ^ 10 := by
  refine ⟨?_, a.size_lt⟩
  rw [size, List.length_append]
  exact Nat.le_add_right _ _

theorem Archive.length_label (a : Archive) : (a.placed.label a.table.title).length ≤ 16 := by
  obtain ⟨hlead, hsize⟩ := a.length_lead
  cases hplaced : a.placed with
  | short => exact a.title_le hplaced
  | long padding =>
    rw [hplaced, Placed.lead, List.length_append, List.length_replicate] at hlead
    have hdecimal : (decimal (a.table.title.length + padding)).length ≤ 10 :=
      length_decimal_le (by decide) (Nat.lt_of_le_of_lt hlead hsize)
    have hmark : (str "#1/").length = 3 := rfl
    rw [Placed.label, List.length_append, hmark]
    omega

theorem Archive.length_name (a : Archive) :
    (padded 16 (a.placed.label a.table.title)).length = 16 := length_padded a.length_label

theorem Archive.length_digits (a : Archive) : (padded 10 (decimal a.size)).length = 10 :=
  length_padded (length_decimal_le (by decide) a.length_lead.2)

theorem Archive.length_header (a : Archive) : a.header.length = 60 := by
  rw [header, List.length_append, List.length_append, List.length_append, a.length_name,
    a.stamps_length, a.length_digits]
  rfl

theorem Archive.ends_label (a : Archive) : FieldEnd (a.placed.label a.table.title) := by
  cases a.placed with
  | short => exact ends_title a.table
  | long padding =>
    obtain ⟨hne, hdigits⟩ := digits_decimal (a.table.title.length + padding)
    intro c hc
    rw [Placed.label, List.getLast?_append_of_ne_nil _ hne] at hc
    exact ends_digits hdigits c hc

/-- The parser reads the header for what stands in it. -/
theorem Archive.tocInit_bytes (a : Archive) :
    tocInit a.bytes = tocSet (tocInitMember
      ⟨a.placed.lead a.table.title ++ (a.table.body ++ a.members), a.size, .none, .ok, 0, 0⟩
      (a.placed.label a.table.title) a.size) := by
  have hmagic : a.magic.length = 8 := by
    rw [magic]
    split <;> rfl
  have hknown : ¬ (a.magic ≠ str "!<arch>\n" ∧ a.magic ≠ str "!<thin>\n") := by
    rw [magic]
    split
    · exact fun h => h.2 rfl
    · exact fun h => h.1 rfl
  have hend : a.header = (padded 16 (a.placed.label a.table.title) ++ (a.stamps ++
      padded 10 (decimal a.size))) ++ [0x60, 0x0a] := by
    simp only [header, List.append_assoc]
  have hbefore : (padded 16 (a.placed.label a.table.title) ++ (a.stamps ++
      padded 10 (decimal a.size))).length = 58 := by
    rw [List.length_append, List.length_append, a.length_name, a.stamps_length, a.length_digits]
  have hfirst : a.header.getD 58 0 = 0x60 := by
    rw [hend, List.getD_append_right _ _ _ _ (Nat.le_of_eq hbefore), hbefore]
    rfl
  have hsecond : a.header.getD 59 0 = 0x0a := by
    rw [hend, List.getD_append_right _ _ _ _ (by omega), hbefore]
    rfl
  have hsize : (a.header.drop 48).take 10 = padded 10 (decimal a.size) := by
    have hheader : a.header = (padded 16 (a.placed.label a.table.title) ++ a.stamps) ++
        (padded 10 (decimal a.size) ++ [0x60, 0x0a]) := by rw [header, List.append_assoc]
    rw [hheader, List.drop_left' (by rw [List.length_append, a.length_name, a.stamps_length]),
      List.take_left' a.length_digits]
  have hname : a.header.take 16 = padded 16 (a.placed.label a.table.title) :=
    List.take_left' a.length_name
  have hparse : tocParseU64 (tocField (padded 10 (decimal a.size))) = some a.size := by
    rw [tocField_padded (ends_digits (digits_decimal a.size).2)]
    exact tocParseU64_decimal (Nat.lt_trans a.length_lead.2 (by decide))
  rw [tocInit, bytes, List.take_left' hmagic, List.drop_left' hmagic]
  dsimp only
  rw [if_neg hknown, List.take_left' a.length_header, List.drop_left' a.length_header,
    if_neg (List.ne_nil_of_length_eq_add_one a.length_header),
    if_neg (by rw [a.length_header]; exact Nat.lt_irrefl 60), hfirst, hsecond,
    if_neg (by decide), hsize, hparse, hname, tocField_padded a.ends_label]

/-- The member is told apart by its title, wherever that stands. -/
theorem Archive.tocInitMember_title (a : Archive) :
    tocInitMember
      ⟨a.placed.lead a.table.title ++ (a.table.body ++ a.members), a.size, .none, .ok, 0, 0⟩
      (a.placed.label a.table.title) a.size =
    tocInitLayout ⟨a.table.body ++ a.members, a.table.body.length, .none, .ok, 0, 0⟩
      a.table.title a.table.body.length := by
  have hlead := a.length_lead
  have hsize : a.size = (a.placed.lead a.table.title).length + a.table.body.length :=
    List.length_append
  cases hplaced : a.placed with
  | short =>
    have hno : ¬ str "#1/" <+: a.table.title := by
      match a.table with
      | .gnu false _ _ _ | .gnu true _ _ _ | .bsd false false _ _ _ | .bsd false true _ _ _
      | .bsd true false _ _ _ | .bsd true true _ _ _ => exact of_decide_eq_false rfl
    rw [hplaced, Placed.lead, List.length_nil, Nat.zero_add] at hsize
    rw [Placed.label, Placed.lead, tocInitMember, if_neg hno, hsize]
    rfl
  | long padding =>
    rw [hplaced] at hlead hsize
    have hlen : (Placed.lead a.table.title (.long padding)).length =
        a.table.title.length + padding := by
      rw [Placed.lead, List.length_append, List.length_replicate]
    have hparse : tocParseU64 ((Placed.label a.table.title (.long padding)).drop 3) =
        some (Placed.lead a.table.title (.long padding)).length := by
      rw [hlen]
      exact tocParseU64_decimal
        (Nat.lt_trans (Nat.lt_of_le_of_lt (hlen ▸ hlead.1) hlead.2) (by decide))
    have htitle := title_lt a.table
    generalize hlead' : Placed.lead a.table.title (.long padding) = lead at *
    obtain ⟨r, hr⟩ : ∃ r, r = min lead.length 64 := ⟨_, rfl⟩
    have hshort : (lead.take r).length = r := by rw [List.length_take]; omega
    have hbehind : (lead.drop r).length = lead.length - r := List.length_drop
    have hfield : tocField (lead.take r) = a.table.title := by
      rw [← hlead', Placed.lead, List.take_append, List.take_of_length_le (by omega)]
      exact tocField_append (ends_title a.table) fun c hc =>
        .inr (List.eq_of_mem_replicate (List.mem_of_mem_take hc))
    have hread := @Toc.readAll_append
      ⟨lead ++ (a.table.body ++ a.members), a.size, .none, .ok, 0, 0⟩
      (lead.drop r ++ (a.table.body ++ a.members)) (lead.take r)
      (by dsimp only; rw [← List.append_assoc (lead.take r), List.take_append_drop])
      (by dsimp only; omega)
    have hdiscard := @Toc.readAll_append
      ⟨lead.drop r ++ (a.table.body ++ a.members), a.size - r, .none, .ok, 0, 0⟩
      (a.table.body ++ a.members) (lead.drop r) rfl (by dsimp only; omega)
    rw [hshort] at hread
    rw [hbehind] at hdiscard
    have hmark : str "#1/" <+: Placed.label a.table.title (.long padding) := List.prefix_append _ _
    rw [tocInitMember, if_pos hmark, hparse]
    dsimp only
    rw [if_neg (by omega), ← hr, hread]
    dsimp only
    rw [if_neg (by omega), Toc.discard, hdiscard]
    dsimp only
    rw [if_neg (by omega), hfield]
    congr 2 <;> omega

/-! ## The words -/

theorem tocU32le_eq {p : Str} (h : p.length = 4) : tocU32le p = unle p := by
  obtain ⟨a, b, c, d, rfl⟩ : ∃ a b c d, p = [a, b, c, d] := by
    match p, h with
    | [a, b, c, d], _ => exact ⟨a, b, c, d, rfl⟩
  simp [tocU32le, unle]
  ring

theorem tocU32be_eq {p : Str} (h : p.length = 4) : tocU32be p = unbe p := by
  obtain ⟨a, b, c, d, rfl⟩ : ∃ a b c d, p = [a, b, c, d] := by
    match p, h with
    | [a, b, c, d], _ => exact ⟨a, b, c, d, rfl⟩
  simp [tocU32be, unbe, unle]
  ring

theorem tocU64be_eq {p : Str} (h : p.length = 8) : tocU64be p = unbe p := by
  obtain ⟨a, b, c, d, e, f, g, i, rfl⟩ : ∃ a b c d e f g i, p = [a, b, c, d, e, f, g, i] := by
    match p, h with
    | [a, b, c, d, e, f, g, i], _ => exact ⟨a, b, c, d, e, f, g, i, rfl⟩
  simp [tocU64be, tocU32be, unbe, unle]
  ring

/-! ## GNU tables -/

variable {rest : Str} {toc : Toc}

theorem wordOf_pos (wide : Bool) : 0 < wordOf wide := by cases wide <;> decide

theorem tocInitGnu_body {wide : Bool} {refs : Str} {names : List Str} {padding : ℕ}
    (hrefs : refs.length = names.length * wordOf wide) (hcount : names.length < 256 ^ wordOf wide) :
    let body := (Table.gnu wide refs names padding).body
    tocInitGnu ⟨body ++ rest, body.length, .none, .ok, 0, 0⟩ body.length (wordOf wide) =
      (.ok, ⟨terminated 0 names ++ (List.replicate padding 0 ++ rest),
        (terminated 0 names).length + padding, .gnu, .ok, names.length, 0⟩) := by
  intro body
  have hbody : body.length = wordOf wide + (names.length * wordOf wide +
      ((terminated 0 names).length + padding)) := by
    simp only [body, Table.body, List.length_append, length_be, hrefs, List.length_replicate]
  have hword : (be (wordOf wide) names.length).length = wordOf wide := length_be _ _
  have hfield := @Toc.readAll_append ⟨body ++ rest, body.length, .none, .ok, 0, 0⟩
    (refs ++ ((terminated 0 names ++ List.replicate padding 0) ++ rest))
    (be (wordOf wide) names.length) (by simp only [body, Table.body, List.append_assoc])
    (by dsimp only; omega)
  have hdiscard := @Toc.readAll_append
    ⟨refs ++ ((terminated 0 names ++ List.replicate padding 0) ++ rest), body.length - wordOf wide,
      .none, .ok, 0, 0⟩ _ refs rfl (by dsimp only; omega)
  have hvalue : (if wordOf wide = 8 then tocU64be (be (wordOf wide) names.length)
      else tocU32be (be (wordOf wide) names.length)) = names.length := by
    cases wide with
    | false => exact (tocU32be_eq (length_be _ _)).trans (unbe_be hcount)
    | true => exact (tocU64be_eq (length_be _ _)).trans (unbe_be hcount)
  have hfits : names.length ≤ body.length / wordOf wide :=
    (Nat.le_div_iff_mul_le (wordOf_pos wide)).2 (by omega)
  rw [hword] at hfield
  rw [hrefs] at hdiscard
  rw [tocInitGnu, hfield]
  dsimp only
  rw [if_neg (by omega), hvalue, if_neg (by omega), Toc.discard, hdiscard]
  dsimp only
  rw [if_neg (by omega), List.append_assoc]
  congr 2
  omega

/-! ## BSD tables -/

/-- The string area of a BSD table whose words have this length, where it fits. -/
def bsdArea (word : ℕ) (body : Str) : Option Str :=
  let ranlibs := unle (body.take word)
  if body.length < 2 * word ∨ ranlibs > body.length - 2 * word then none
  else
    let strtab := unle ((body.drop (word + ranlibs)).take word)
    if strtab > body.length - 2 * word - ranlibs then none
    else some ((body.drop (2 * word + ranlibs)).take strtab)

theorem bsdArea_bsdBody {word : ℕ} {ranlibs area slack : Str}
    (hranlibs : ranlibs.length < 256 ^ word) (harea : area.length < 256 ^ word) :
    bsdArea word (bsdBody word ranlibs area slack) = some area := by
  have hbody : (bsdBody word ranlibs area slack).length =
      word + (ranlibs.length + (word + (area.length + slack.length))) := by
    simp only [bsdBody, List.length_append, length_le]
  have hfirst : (bsdBody word ranlibs area slack).take word = le word ranlibs.length :=
    List.take_left' (length_le _ _)
  have hsecond : (bsdBody word ranlibs area slack).drop (word + ranlibs.length) =
      le word area.length ++ (area ++ slack) := by
    rw [bsdBody, ← List.append_assoc]
    exact List.drop_left' (by rw [List.length_append, length_le])
  have hthird : (bsdBody word ranlibs area slack).drop (2 * word + ranlibs.length) =
      area ++ slack := by
    rw [show 2 * word + ranlibs.length = word + ranlibs.length + word by omega, ← List.drop_drop,
      hsecond]
    exact List.drop_left' (length_le _ _)
  have hstrtab : unle ((le word area.length ++ (area ++ slack)).take word) = area.length := by
    rw [List.take_left' (length_le _ _), unle_le harea]
  rw [bsdArea, hfirst, unle_le hranlibs]
  dsimp only
  rw [if_neg (by omega), hsecond, hstrtab, if_neg (by omega), hthird, List.take_left' rfl]

/-- The parser reads what the body says in words of 32 bits. -/
theorem tocInitBsd_words {body : Str} {r n : ℕ} (hr : r = unle (body.take 4))
    (hn : n = unle ((body.drop (4 + r)).take 4)) (hlen : 8 ≤ body.length)
    (hranlibs : r ≤ body.length - 8) :
    let toc : Toc := ⟨body.drop (8 + r) ++ rest, body.length - 8 - r, .none, .ok, 0, 0⟩
    tocInitBsd ⟨body ++ rest, body.length, .none, .ok, 0, 0⟩ body.length =
      if n > body.length - 8 - r then (.truncated, toc)
      else (.ok, { toc with format := .bsd, remaining := n }) := by
  have hfour : (body.take 4).length = 4 := by
    rw [List.length_take]
    omega
  have hskip : ((body.drop 4).take r).length = r := by
    rw [List.length_take, List.length_drop]
    omega
  have hword : ((body.drop (4 + r)).take 4).length = 4 := by
    rw [List.length_take, List.length_drop]
    omega
  have hdrop : body.drop (8 + r) = (body.drop (4 + r)).drop 4 := by
    rw [List.drop_drop]
    congr 1
    omega
  have hfield := @Toc.readAll_append ⟨body ++ rest, body.length, .none, .ok, 0, 0⟩
    (body.drop 4 ++ rest) (body.take 4)
    (by dsimp only; rw [← List.append_assoc, List.take_append_drop]) (by dsimp only; omega)
  have hdiscard := @Toc.readAll_append ⟨body.drop 4 ++ rest, body.length - 4, .none, .ok, 0, 0⟩
    (body.drop (4 + r) ++ rest) ((body.drop 4).take r)
    (by dsimp only; rw [← List.append_assoc, ← List.drop_drop, List.take_append_drop])
    (by dsimp only; omega)
  have hsize := @Toc.readAll_append
    ⟨body.drop (4 + r) ++ rest, body.length - 4 - r, .none, .ok, 0, 0⟩
    (body.drop (8 + r) ++ rest) ((body.drop (4 + r)).take 4)
    (by dsimp only; rw [hdrop, ← List.append_assoc, List.take_append_drop]) (by dsimp only; omega)
  have hleft : body.length - 4 - r - 4 = body.length - 8 - r := by omega
  rw [hfour] at hfield
  rw [hskip] at hdiscard
  rw [hword] at hsize
  rw [tocInitBsd, hfield]
  dsimp only
  rw [if_neg (by omega), tocU32le_eq hfour, ← hr, if_neg (by omega), Toc.discard, hdiscard]
  dsimp only
  rw [if_neg (by omega), hsize]
  dsimp only
  rw [if_neg (by omega), tocU32le_eq hword, ← hn, hleft]

/-- What the parser takes for the string area is what it is for words of 32 bits. -/
theorem tocInitBsd_some {body area : Str} (h : bsdArea 4 body = some area) :
    ∃ slack left, area.length ≤ left ∧
      tocInitBsd ⟨body ++ rest, body.length, .none, .ok, 0, 0⟩ body.length =
        (.ok, ⟨area ++ slack, left, .bsd, .ok, 0, area.length⟩) := by
  obtain ⟨r, hr⟩ : ∃ r, r = unle (body.take 4) := ⟨_, rfl⟩
  obtain ⟨n, hn⟩ : ∃ n, n = unle ((body.drop (4 + r)).take 4) := ⟨_, rfl⟩
  rw [bsdArea, ← hr] at h
  dsimp only at h
  rw [← hn] at h
  split at h
  · cases h
  split at h
  · cases h
  replace h : some ((body.drop (8 + r)).take n) = some area := h
  obtain rfl := Option.some.inj h
  have harea : ((body.drop (8 + r)).take n).length = n := by
    rw [List.length_take, List.length_drop]
    omega
  refine ⟨(body.drop (8 + r)).drop n ++ rest, body.length - 8 - r, by omega, ?_⟩
  rw [tocInitBsd_words hr hn (by omega) (by omega), if_neg (by omega), harea, ← List.append_assoc,
    List.take_append_drop]

theorem tocInitBsd_none {body : Str} (h : bsdArea 4 body = none) :
    (tocInitBsd ⟨body ++ rest, body.length, .none, .ok, 0, 0⟩ body.length).1 = .truncated := by
  obtain ⟨r, hr⟩ : ∃ r, r = unle (body.take 4) := ⟨_, rfl⟩
  obtain ⟨n, hn⟩ : ∃ n, n = unle ((body.drop (4 + r)).take 4) := ⟨_, rfl⟩
  rw [bsdArea, ← hr] at h
  dsimp only at h
  rw [← hn] at h
  split at h
  · rename_i hout
    have hgot : ((Toc.mk (body ++ rest) body.length .none .ok 0 0).readAll 4).1 = body.take 4 :=
      congrArg (List.take 4) List.take_left
    rw [tocInitBsd, hgot]
    dsimp only
    split
    · rfl
    · rename_i hfield
      have hfour : (body.take 4).length = 4 := by
        rw [List.length_take] at hfield ⊢
        omega
      rw [tocU32le_eq hfour, ← hr, if_pos hout]
  · split at h
    · rename_i hover
      rw [tocInitBsd_words hr hn (by omega) (by omega), if_pos hover]
    · cases h

/-! ## What is told -/

/-- All the names in order, or an error. -/
def Archive.Told (a : Archive) : Prop :=
  let symbols := tocSymbols (tocInit a.bytes)
  symbols.2.err ≠ .ok ∨ symbols.1 = a.table.names

/-- The tables that the parser reads for what they are. -/
def Table.Legible : Table → Prop
  | .gnu _ _ names _ => (∀ name ∈ names, name ≠ []) ∨ ¬ Fits names
  | .bsd false _ _ _ _ => True
  | .bsd true _ ranlibs area slack => ∀ taken,
      bsdArea 4 (bsdBody 8 ranlibs area slack) = some taken →
        Closed taken → between 0 taken = between 0 area

/-- An archive is read by the layout of its table. -/
theorem Archive.tocInit_eq (a : Archive) : tocInit a.bytes = tocSet (tocInitLayout
    ⟨a.table.body ++ a.members, a.table.body.length, .none, .ok, 0, 0⟩ a.table.title
    a.table.body.length) := by rw [a.tocInit_bytes, a.tocInitMember_title]

theorem tocSymbols_error (h : toc.err ≠ .ok) : (tocSymbols toc).2.err ≠ .ok := by
  have hnext : tocNext toc = (none, toc) := by rw [tocNext, if_pos h]
  rw [tocSymbols_none hnext]
  exact h

theorem tocInitLayout_gnu {wide : Bool} {refs : Str} {names : List Str} {padding n : ℕ} :
    tocInitLayout toc (Table.gnu wide refs names padding).title n =
      tocInitGnu toc n (wordOf wide) := by
  cases wide with
  | false => exact if_pos rfl
  | true =>
    have hne : str "/SYM64/" ≠ str "/" := of_decide_eq_false rfl
    exact (if_neg hne).trans (if_pos rfl)

/-- The titles of all BSD tables begin alike. -/
theorem tocInitLayout_bsd {wide sorted : Bool} {ranlibs area slack : Str} {n : ℕ} :
    tocInitLayout toc (Table.bsd wide sorted ranlibs area slack).title n = tocInitBsd toc n := by
  have hgnu : (Table.bsd wide sorted ranlibs area slack).title ≠ str "/" := by
    cases wide <;> cases sorted <;> exact of_decide_eq_false rfl
  have hwide : (Table.bsd wide sorted ranlibs area slack).title ≠ str "/SYM64/" := by
    cases wide <;> cases sorted <;> exact of_decide_eq_false rfl
  have hbsd : str "__.SYMDEF" <+: (Table.bsd wide sorted ranlibs area slack).title := by
    cases wide <;> cases sorted <;> exact of_decide_eq_true rfl
  rw [tocInitLayout, if_neg hgnu, if_neg hwide, if_pos hbsd]

theorem Archive.told_gnu {a : Archive} {wide : Bool} {refs : Str} {names : List Str} {padding : ℕ}
    (h : a.table = .gnu wide refs names padding) : a.Told ↔ a.table.Legible := by
  obtain ⟨hnames, hrefs, hcount⟩ := h ▸ a.formed
  have hinit := a.tocInit_eq
  rw [h, tocInitLayout_gnu, tocInitGnu_body hrefs hcount] at hinit
  obtain ⟨hfits, hok⟩ := @tocSymbols_gnu (List.replicate padding 0 ++ a.members)
    ((terminated 0 names).length + padding) 0 names hnames (Nat.le_add_right _ _)
  have harea : between 0 (terminated 0 names ++ List.replicate padding 0) =
      names.filter (· ≠ []) := by rw [between_append hnames, between_replicate, List.append_nil]
  rw [Told, hinit, h, Table.names, Table.area, harea, Table.Legible]
  dsimp only [tocSet] at hfits hok ⊢
  refine ⟨fun htold => ?_, fun hlegible => ?_⟩
  · refine or_iff_not_imp_right.2 fun hfit => ?_
    obtain ⟨hall, herr⟩ := hfits (not_not.1 hfit)
    rcases htold with herr' | hsymbols
    · exact absurd herr herr'
    · rw [hall] at hsymbols
      exact fun name hname => by simpa using List.filter_eq_self.1 hsymbols.symm name hname
  · refine or_iff_not_imp_left.2 fun herr => ?_
    have hfit := hok (not_not.1 herr)
    rcases hlegible with hne | hlong
    · rw [(hfits hfit).1]
      exact (List.filter_eq_self.2 fun name hname => by simpa using hne name hname).symm
    · exact absurd hfit hlong

/-- What the parser makes of a BSD table is what its bytes are in words of 32 bits. -/
theorem Archive.told_bsd {a : Archive} {wide sorted : Bool} {ranlibs area slack : Str}
    (h : a.table = .bsd wide sorted ranlibs area slack) :
    a.Told ↔ ∀ taken, bsdArea 4 (bsdBody (wordOf wide) ranlibs area slack) = some taken →
      Closed taken → between 0 taken = between 0 area := by
  have hinit := a.tocInit_eq
  rw [h, tocInitLayout_bsd] at hinit
  rw [Told, hinit, h, Table.names, Table.area]
  cases htaken : bsdArea 4 (bsdBody (wordOf wide) ranlibs area slack) with
  | none =>
    refine ⟨fun _ => nofun, fun _ => .inl (tocSymbols_error fun hok => ?_)⟩
    cases (tocInitBsd_none htaken).symm.trans hok
  | some taken =>
    obtain ⟨behind, left, hleft, hread⟩ := @tocInitBsd_some a.members _ _ htaken
    have htable : (Table.bsd wide sorted ranlibs area slack).body =
      bsdBody (wordOf wide) ranlibs area slack := rfl
    rw [htable, hread]
    dsimp only [tocSet]
    refine ⟨fun htold taken' heq hclosed => ?_, fun hlegible => ?_⟩
    · obtain rfl := Option.some.inj heq
      obtain ⟨names, hnames, hfits, rfl⟩ := hclosed
      obtain ⟨hall, herr⟩ := @tocSymbols_bsd behind left 0 names hnames hfits hleft
      rcases htold with herr' | hsymbols
      · exact absurd herr herr'
      · rw [between_terminated hnames, ← hsymbols, hall]
    · refine or_iff_not_imp_left.2 fun herr => ?_
      have hclosed := closed_of_tocSymbols hleft (not_not.1 herr)
      obtain ⟨names, hnames, hfits, rfl⟩ := id hclosed
      rw [← hlegible _ rfl hclosed, between_terminated hnames]
      exact (tocSymbols_bsd hnames hfits hleft).1

theorem Archive.told_iff (a : Archive) : a.Told ↔ a.table.Legible := by
  cases h : a.table with
  | gnu wide refs names padding => rw [← h, told_gnu h]
  | bsd wide sorted ranlibs area slack =>
    rw [told_bsd h]
    cases wide with
    | true => exact Iff.rfl
    | false =>
      obtain ⟨-, hranlibs, harea⟩ := h ▸ a.formed
      refine ⟨fun _ => trivial, fun _ taken htaken _ => ?_⟩
      rw [Option.some.inj (htaken.symm.trans (@bsdArea_bsdBody 4 _ _ _ hranlibs harea))]

/-- The upper half of the last offset stands where words of 32 bits have the size of the string
area, and with all members below 4 GiB it is zero. -/
theorem bsdArea_wide {ranlibs area slack : Str} {offset : ℕ} (hoffset : offset < 2 ^ 32)
    (hranlibs : ranlibs.length + 8 < 2 ^ 32) :
    bsdArea 4 (bsdBody 8 (ranlibs ++ le 8 offset) area slack) = some [] := by
  obtain ⟨r, hr⟩ : ∃ r, r = (ranlibs ++ le 8 offset).length := ⟨_, rfl⟩
  obtain ⟨behind, hbehind⟩ : ∃ behind, behind = le 8 area.length ++ (area ++ slack) := ⟨_, rfl⟩
  have hlen : r = ranlibs.length + 8 := by rw [hr, List.length_append, length_le]
  have hbody : bsdBody 8 (ranlibs ++ le 8 offset) area slack =
      le 4 r ++ ((le 4 (r / 256 ^ 4) ++ (ranlibs ++ le 4 offset)) ++
        (le 4 (offset / 256 ^ 4) ++ behind)) := by
    rw [bsdBody, ← hr, ← hbehind, le_add 4 4 r, le_add 4 4 offset]
    simp only [List.append_assoc]
  have hmiddle : (le 4 (r / 256 ^ 4) ++ (ranlibs ++ le 4 offset)).length = r := by
    rw [List.length_append, List.length_append, length_le, length_le]
    omega
  have hhigh : offset / 256 ^ 4 = 0 := Nat.div_eq_of_lt hoffset
  have hword : unle ((le 4 (offset / 256 ^ 4) ++ behind).take 4) = 0 := by
    rw [List.take_left' (length_le _ _), hhigh]
    rfl
  rw [hbody, bsdArea, List.take_left' (length_le _ _), unle_le (by omega), ← List.drop_drop,
    List.drop_left' (length_le _ _), List.drop_left' hmiddle, hword]
  simp only [List.length_append, length_le]
  rw [if_neg (by omega), if_neg (by omega), List.take_zero]

/-- With all its members below 4 GiB, a BSD table of 64-bit words looks like an empty one. -/
theorem Archive.wide_vanishes {a : Archive} {sorted : Bool} {ranlibs area slack : Str} {offset : ℕ}
    (h : a.table = .bsd true sorted (ranlibs ++ le 8 offset) area slack) (hoffset : offset < 2 ^ 32)
    (hranlibs : ranlibs.length + 8 < 2 ^ 32) :
    (tocSymbols (tocInit a.bytes)).1 = [] ∧ (tocSymbols (tocInit a.bytes)).2.err = .ok := by
  have hinit := a.tocInit_eq
  obtain ⟨behind, left, hleft, hread⟩ := @tocInitBsd_some a.members _ _
    (@bsdArea_wide ranlibs area slack offset hoffset hranlibs)
  rw [h, tocInitLayout_bsd] at hinit
  have htable : (Table.bsd true sorted (ranlibs ++ le 8 offset) area slack).body =
    bsdBody 8 (ranlibs ++ le 8 offset) area slack := rfl
  rw [hinit, htable, hread]
  exact @tocSymbols_bsd behind left 0 [] (List.forall_mem_nil _) (List.forall_mem_nil _) hleft

/-! ## Any bytes -/

/-- The size that the header of the first member declares. -/
def memberSize (io : Str) : ℕ := (tocParseU64 (tocField (((io.drop 8).drop 48).take 10))).getD 0

theorem tocInitGnu_reaches (toc : Toc) (bodyLen word : ℕ) :
    toc.Reaches (tocInitGnu toc bodyLen word).2 := by
  have hfield := toc.reaches_readAll word
  have hcount (n : ℕ) := hfield.trans (Toc.reaches_readAll _ n)
  rw [tocInitGnu]
  dsimp only
  generalize (if word = 8 then tocU64be (toc.readAll word).1 else tocU32be (toc.readAll word).1) =
    count
  split
  · exact hfield
  · split
    · exact hfield
    · split
      · exact hcount _
      · exact hcount _

theorem tocInitBsd_reaches (toc : Toc) (bodyLen : ℕ) : toc.Reaches (tocInitBsd toc bodyLen).2 := by
  have hfield := toc.reaches_readAll 4
  have hskip (n : ℕ) := hfield.trans (Toc.reaches_readAll _ n)
  have hsize (n : ℕ) := (hskip n).trans (Toc.reaches_readAll _ 4)
  rw [tocInitBsd]
  dsimp only
  split
  · exact hfield
  · split
    · exact hfield
    · split
      · exact hskip _
      · split
        · exact hsize _
        · split
          · exact hsize _
          · exact hsize _

theorem tocInitLayout_reaches (toc : Toc) (name : Str) (bodyLen : ℕ) :
    toc.Reaches (tocInitLayout toc name bodyLen).2 := by
  rw [tocInitLayout]
  split
  · exact tocInitGnu_reaches toc bodyLen 4
  · split
    · exact tocInitGnu_reaches toc bodyLen 8
    · split
      · exact tocInitBsd_reaches toc bodyLen
      · exact .refl toc

theorem tocInitMember_reaches (toc : Toc) (name : Str) (size : ℕ) :
    toc.Reaches (tocInitMember toc name size).2 := by
  rw [tocInitMember]
  split
  · split
    · exact .refl toc
    · split
      · exact .refl toc
      · rename_i nameLen _ _
        have hread := toc.reaches_readAll (min nameLen 64)
        have hskip (n : ℕ) := hread.trans (Toc.reaches_readAll _ n)
        dsimp only
        split
        · exact hread
        · split
          · exact hskip _
          · exact (hskip _).trans (tocInitLayout_reaches _ _ _)
  · exact tocInitLayout_reaches toc name size

/-- What was read before the iteration begins lies within the member, and what the iteration can
still read as well. -/
theorem tocInit_reads (io : Str) :
    ∃ read, io = read ++ (tocInit io).io ∧
      read.length + (tocInit io).left ≤ 68 + memberSize io := by
  have height : io.take 8 ++ io.drop 8 = io := List.take_append_drop 8 io
  have hheader : io.take 8 ++ (io.drop 8).take 60 ++ (io.drop 8).drop 60 = io := by
    rw [List.append_assoc, List.take_append_drop, height]
  have hlen : (io.take 8 ++ (io.drop 8).take 60).length ≤ 68 := by
    rw [List.length_append, List.length_take, List.length_take]
    omega
  have hbefore : ∃ read, io = read ++ (io.drop 8).drop 60 ∧
      read.length + 0 ≤ 68 + memberSize io :=
    ⟨_, hheader.symm, Nat.le_trans hlen (Nat.le_add_right _ _)⟩
  rw [tocInit]
  dsimp only
  split
  · refine ⟨io.take 8, height.symm, ?_⟩
    rw [List.length_take]
    dsimp only [tocSet]
    omega
  · split
    · exact hbefore
    · split
      · exact hbefore
      · split
        · exact hbefore
        · rename_i hshort _
          have hfield : (((io.drop 8).take 60).drop 48).take 10 = ((io.drop 8).drop 48).take 10 := by
            rw [List.drop_take, List.take_take]
            rfl
          split
          · exact hbefore
          · rename_i size hsize
            have hmember : memberSize io = size := by rw [memberSize, ← hfield, hsize]; rfl
            obtain ⟨read, hio, hleft⟩ := tocInitMember_reaches
              ⟨(io.drop 8).drop 60, size, .none, .ok, 0, 0⟩
              (tocField (((io.drop 8).take 60).take 16)) size
            refine ⟨io.take 8 ++ (io.drop 8).take 60 ++ read, ?_, ?_⟩
            · conv_lhs => rw [← hheader]
              rw [List.append_assoc (_ ++ _) read]
              exact congrArg _ hio
            · rw [List.length_append, hmember]
              dsimp only [tocSet] at hleft ⊢
              omega

/-- A table is told in full or with an error exactly where it is legible, and on any bytes the
iteration ends, and no call of it reads beyond the size that the header declares. -/
theorem toc_told (a : Archive) (io : Str) :
    (a.Told ↔ a.table.Legible) ∧
    (tocNext (tocSymbols (tocInit io)).2).1 = none ∧
    ∀ n, ∃ read, io = read ++ (tocAfter n (tocInit io)).io ∧
      read.length ≤ 68 + memberSize io := by
  refine ⟨Archive.told_iff a, tocSymbols_ends _, fun n => ?_⟩
  obtain ⟨read, hio, hread⟩ := tocInit_reads io
  obtain ⟨read', hio', hread'⟩ := reaches_tocAfter n (tocInit io)
  refine ⟨read ++ read', by rw [List.append_assoc, ← hio', ← hio], ?_⟩
  rw [List.length_append]
  omega

/-- An archive with one symbol, in a BSD table of 64-bit words, and one empty member. -/
def oneSymbol : Archive where
  thin := false
  table := .bsd true false (le 8 0 ++ le 8 102) [0x61, 0] []
  placed := .short
  stamps := List.replicate 32 0x20
  members := padded 48 (str "a.o/") ++ (padded 10 (str "0") ++ [0x60, 0x0a])
  formed := ⟨by decide, by decide, by decide⟩
  title_le := by decide
  stamps_length := rfl
  size_lt := by decide

theorem one_symbol_lost : ¬ ∀ a : Archive, a.Told := by
  intro h
  obtain ⟨hnone, hok⟩ := @Archive.wide_vanishes oneSymbol _ _ _ _ _ rfl (by decide) (by decide)
  rcases h oneSymbol with herr | hsymbols
  · exact herr hok
  · rw [hnone] at hsymbols
    exact absurd hsymbols (by decide)

end Spn.Compiler
