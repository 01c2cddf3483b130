import Spn.Toml.Document

/-! # Documents as lines

A document is a list of lines. The scanner finds its sections in its text, and every text that the
scanner accepts is the text of a document.
-/
namespace Spn.Toml

variable {nested : Bool} {more rest u w r : Str} {c : UInt8}

/-- A line, or a blank character between lines. A comment is its text after the hash, and the
newline, which may be missing at the end of the text. -/
inductive Line
  | blank (c : UInt8)
  | comment (text stop : Str)
  | header (array : Bool) (path : List Str) (key tail : Str)
  | entry (head : Head) (value : Value) (tail : Str)

/-- The brackets of a header: two of an array of tables. -/
def bracket (array : Bool) (c : UInt8) : Str := if array then [c, c] else [c]

def Line.text : Line → Str
  | .blank c => [c]
  | .comment text stop => hash :: (text ++ stop)
  | .header array _ key tail =>
    bracket array leftBracket ++ (key ++ (bracket array rightBracket ++ tail))
  | .entry head value tail => head.text ++ (value.text ++ tail)

/-- The text of a document. -/
def textOf (doc : List Line) : Str := doc.flatMap Line.text

/-- The entry of a line that begins here. -/
def lineEntry (head : Head) (value : Value) (tail : Str) (at_ : ℕ) : Entry :=
  (head.entry at_ value.kind value.text.length (value.entries (at_ + head.text.length))).withLineEnd
    (at_ + (Line.entry head value tail).text.length)

/-- The entries up to the next header. -/
def entriesOf (at_ : ℕ) : List Line → List Entry
  | [] => []
  | .header .. :: _ => []
  | .entry head value tail :: rest =>
    lineEntry head value tail at_ ::
      entriesOf (at_ + (Line.entry head value tail).text.length) rest
  | .blank c :: rest => entriesOf (at_ + (Line.blank c).text.length) rest
  | .comment text stop :: rest => entriesOf (at_ + (Line.comment text stop).text.length) rest

/-- The sections from the next header on. -/
def sectionsOf (at_ : ℕ) : List Line → List Section
  | [] => []
  | .header array path key tail :: rest =>
    ⟨path, array, at_ + (Line.header array path key tail).text.length,
      entriesOf (at_ + (Line.header array path key tail).text.length) rest⟩ ::
      sectionsOf (at_ + (Line.header array path key tail).text.length) rest
  | .entry head value tail :: rest =>
    sectionsOf (at_ + (Line.entry head value tail).text.length) rest
  | .blank c :: rest => sectionsOf (at_ + (Line.blank c).text.length) rest
  | .comment text stop :: rest => sectionsOf (at_ + (Line.comment text stop).text.length) rest

/-- The sections of a document. -/
def sectionsIn (doc : List Line) : List Section :=
  ⟨[], false, 0, entriesOf 0 doc⟩ :: sectionsOf 0 doc

/-! ## Lines that fit -/

/-- A line is what it is taken for. -/
def Line.Fits : Line → Prop
  | .blank c => isBlank c = true
  | .comment text stop => newline ∉ text ∧ (stop = [newline] ∨ stop = [])
  | .header _ path key tail => Key path key ∧ (Ended tail ∨ Unended tail)
  | .entry head value tail =>
    head.lead = [] ∧ head.Fits ∧ value.Fits false ∧ (Ended tail ∨ Unended tail)

/-- A line after which another may stand. -/
def Line.Closed : Line → Prop
  | .blank _ => True
  | .comment _ stop => stop = [newline]
  | .header _ _ _ tail => Ended tail
  | .entry _ _ tail => Ended tail

/-- Every line fits, and only the last may lack its newline. -/
def LinesFit : List Line → Prop
  | [] => True
  | line :: rest => line.Fits ∧ (rest ≠ [] → line.Closed) ∧ LinesFit rest

theorem skipLineEnd_tail {tail : Str} (htail : Ended tail ∨ Unended tail) {doc : List Line}
    (hclosed : doc ≠ [] → Ended tail) : skipLineEnd (tail ++ textOf doc) = some (textOf doc) := by
  cases doc with
  | nil =>
    rcases htail with hended | hunended
    · exact hended.skip _
    · rw [textOf, List.flatMap_nil, List.append_nil]
      exact hunended.skip
  | cons line rest => exact (hclosed (List.cons_ne_nil _ _)).skip _

/-- A value is stopped by the end of its line. -/
theorem stops_lineEnd (h : skipLineEnd more = some r) : Stops false more := by
  intro c hc
  cases hspace : skipWhitespace more with
  | nil =>
    rw [hspace] at hc
    cases hc
  | cons d v =>
    rw [hspace] at hc
    obtain rfl : d = c := Option.some.inj hc
    by_cases hhash : d = hash
    · rw [hhash]
      rfl
    · have hplain : skipComment (skipWhitespace more) = d :: v := by
        rw [hspace, skipComment, peek_cons, if_neg hhash]
      rcases skipLineEnd_cases h with ⟨hnil, -⟩ | hnewline | hreturn
      · rw [hplain] at hnil
        cases hnil
      · rw [hplain] at hnewline
        rw [(List.cons.inj hnewline).1]
        rfl
      · rw [hplain] at hreturn
        rw [(List.cons.inj hreturn).1]
        rfl

/-! ## What is found in the text of a document -/

theorem parseEntry_text {head : Head} {value : Value} {tail : Str} (hlead : head.lead = [])
    (hhead : head.Fits) (hvalue : value.Fits false) (hskip : skipLineEnd (tail ++ rest) = some rest)
    (at_ : ℕ) :
    parseEntry at_ ((Line.entry head value tail).text ++ rest) =
      some (lineEntry head value tail at_, rest) := by
  have htext : (Line.entry head value tail).text ++ rest =
      head.key ++ equals :: (head.gap ++ (value.text ++ (tail ++ rest))) := by
    simp [Line.text, Head.text, hlead]
  obtain ⟨s, left, hmore, hs, hscan⟩ :=
    (scan_text (((Line.entry head value tail).text ++ rest).length + 1)).1 false value
      (tail ++ rest) (at_ + head.text.length) hvalue (stops_lineEnd hskip) (by
        simp only [Line.text, List.length_append]
        omega)
  have hpair := hhead.pair hvalue hscan
  rw [hlead, List.length_nil, Nat.add_zero at_] at hpair
  have hleft : skipLineEnd left = some rest := by
    rw [skipLineEnd, ← skipWhitespace_append hs left, ← hmore, ← skipLineEnd]
    exact hskip
  rw [htext] at hpair ⊢
  rw [parseEntry, hpair, Option.bind_some]
  simp only [hleft, Option.map_some]
  have hend : after at_ (head.key ++ equals :: (head.gap ++ (value.text ++ (tail ++ rest)))) rest =
      at_ + (Line.entry head value tail).text.length := by
    rw [← htext, after_append]
  rw [hend]
  rfl

theorem parseHeader_text {array : Bool} {path : List Str} {key tail : Str}
    (hfits : (Line.header array path key tail).Fits)
    (hskip : skipLineEnd (tail ++ rest) = some rest)
    (at_ : ℕ) :
    parseHeader at_ ((Line.header array path key tail).text ++ rest) =
      some (⟨path, array, at_ + (Line.header array path key tail).text.length, []⟩, rest) := by
  obtain ⟨hkey, -⟩ := hfits
  have hafter : after at_ ((Line.header array path key tail).text ++ rest) rest =
      at_ + (Line.header array path key tail).text.length := after_append _ _ _
  have hclose : skipWhitespace (rightBracket :: (tail ++ rest)) = rightBracket :: (tail ++ rest) :=
    rfl
  cases array with
  | false =>
    have htext : (Line.header false path key tail).text ++ rest =
        leftBracket :: (key ++ rightBracket :: (tail ++ rest)) := by
      simp [Line.text, bracket]
    have hpeek : peek (key ++ rightBracket :: (tail ++ rest)) ≠ leftBracket := by
      rw [peek_append hkey.text_ne]
      exact hkey.plain
    have hparse := hkey.parse (endsKey_rightBracket (tail ++ rest))
    rw [htext] at hafter ⊢
    simp only [parseHeader, List.tail_cons, hpeek, if_false, hparse, Option.bind_some, hclose,
      accept_cons, hskip, Option.map_some, hafter, decide_false]
  | true =>
    have htext : (Line.header true path key tail).text ++ rest =
        leftBracket :: leftBracket :: (key ++ rightBracket :: rightBracket :: (tail ++ rest)) := by
      simp [Line.text, bracket]
    have hclose : ∀ v, skipWhitespace (rightBracket :: v) = rightBracket :: v := fun _ => rfl
    have hparse := hkey.parse (endsKey_rightBracket (rightBracket :: (tail ++ rest)))
    rw [htext] at hafter ⊢
    simp only [parseHeader, List.tail_cons, peek_cons, if_true, hparse, Option.bind_some, hclose,
      accept_cons, hskip, Option.map_some, hafter, decide_true]

theorem initFrom_blank {fuel at_ : ℕ} {sections : List Section} {last : Section}
    (hc : isBlank c = true) (u : Str) :
    initFrom fuel sections last at_ (c :: u) = initFrom fuel sections last (at_ + 1) u := by
  cases fuel with
  | zero => rw [initFrom, initFrom]
  | succ fuel =>
    obtain ⟨w, hw, -⟩ := skipBlank_split u
    have hskip : skipBlank (c :: u) = skipBlank u := List.dropWhile_cons_of_pos hc
    have hafter : after at_ (c :: u) (skipBlank u) = after (at_ + 1) u (skipBlank u) := by
      rw [after_eq hw, after_eq (show c :: u = (c :: w) ++ skipBlank u from congrArg (c :: ·) hw),
        List.length_cons, Nat.add_assoc, Nat.add_comm 1]
    rw [initFrom, initFrom, hskip]
    cases hrest : skipBlank u with
    | nil => rfl
    | cons d v =>
      rw [hrest] at hafter
      simp only [hafter]

theorem after_self (at_ : ℕ) (u : Str) : after at_ u u = at_ := by
  rw [after, Nat.sub_self, Nat.add_zero]

theorem initFrom_comment {fuel at_ : ℕ} {sections : List Section} {last : Section} (u : Str) :
    initFrom (fuel + 1) sections last at_ (hash :: u) =
      initFrom fuel sections last (after at_ (hash :: u) (skipComment (hash :: u)))
        (skipComment (hash :: u)) := by
  have hskip : skipBlank (hash :: u) = hash :: u := skipBlank_cons (by decide) u
  rw [initFrom, hskip]
  simp only [after_self, if_true]

theorem initFrom_header {fuel at_ : ℕ} {sections : List Section} {last s : Section}
    {left : Str} (h : parseHeader at_ (leftBracket :: u) = some (s, left)) :
    initFrom (fuel + 1) sections last at_ (leftBracket :: u) =
      initFrom fuel (sections ++ [last]) s (after at_ (leftBracket :: u) left) left := by
  have hskip : skipBlank (leftBracket :: u) = leftBracket :: u := skipBlank_cons (by decide) u
  have hhash : leftBracket ≠ hash := by decide
  rw [initFrom, hskip]
  simp only [after_self, if_neg hhash, if_true, h, Option.bind_some]

theorem initFrom_entry {fuel at_ : ℕ} {sections : List Section} {last : Section} {entry : Entry}
    {left : Str} (hc : startsKey c = true) (h : parseEntry at_ (c :: u) = some (entry, left)) :
    initFrom (fuel + 1) sections last at_ (c :: u) =
      initFrom fuel sections (last.push entry) (after at_ (c :: u) left) left := by
  obtain ⟨hblank, hhash, hbracket, -⟩ := startsKey_plain hc
  rw [initFrom, skipBlank_cons hblank]
  simp only [after_self, if_neg hhash, if_neg hbracket, h, Option.bind_some]

theorem text_cons (line : Line) (doc : List Line) :
    textOf (line :: doc) = line.text ++ textOf doc := rfl

/-- What the scanner finds in the text of a document: the entries of the lines up to the next header
are those of the last section, and then come the sections of the other lines. -/
theorem initFrom_text {doc : List Line} (h : LinesFit doc) {fuel at_ : ℕ} {sections : List Section}
    {last : Section} (hfuel : (textOf doc).length < fuel) :
    initFrom fuel sections last at_ (textOf doc) =
      some (sections ++ { last with entries := last.entries ++ entriesOf at_ doc } ::
        sectionsOf at_ doc) := by
  induction doc generalizing fuel at_ sections last with
  | nil =>
    obtain ⟨fuel, rfl⟩ := Nat.exists_eq_add_of_le' (show 1 ≤ fuel from hfuel)
    rw [show textOf [] = [] from rfl, initFrom]
    simp [skipBlank, entriesOf, sectionsOf]
  | cons line rest ih =>
    obtain ⟨hline, hclosed, hrest⟩ := h
    rw [text_cons, List.length_append] at hfuel
    obtain ⟨fuel, rfl⟩ := Nat.exists_eq_add_of_le' (Nat.le_trans (by omega : 1 ≤ _) hfuel)
    rw [text_cons]
    cases line with
    | blank c =>
      rw [show (Line.blank c).text ++ textOf rest = c :: textOf rest from rfl, initFrom_blank hline]
      exact ih hrest (Nat.lt_of_le_of_lt (Nat.le_add_left _ _) hfuel)
    | comment text stop =>
      obtain ⟨htext, hstop⟩ := hline
      have hinside : ∀ d ∈ text, decide (d ≠ newline) = true := fun d hd =>
        decide_eq_true fun heq => htext (heq ▸ hd)
      have hline : (Line.comment text stop).text ++ textOf rest =
          hash :: (text ++ (stop ++ textOf rest)) := by simp [Line.text]
      have hskip : skipComment (hash :: (text ++ (stop ++ textOf rest))) = stop ++ textOf rest := by
        rw [skipComment_hash, List.dropWhile_append_of_pos hinside]
        rcases hstop with rfl | rfl
        · rfl
        · cases rest with
          | nil => rfl
          | cons next rest => exact absurd (hclosed (List.cons_ne_nil _ _)) (by simp [Line.Closed])
      have hafter : after at_ (hash :: (text ++ (stop ++ textOf rest))) (stop ++ textOf rest) =
          at_ + (text.length + 1) := by
        simp only [after, List.length_cons, List.length_append]
        omega
      rw [hline, initFrom_comment, hskip, hafter]
      have hlength : (textOf rest).length < fuel := by
        simp only [Line.text, List.length_cons] at hfuel
        omega
      rcases hstop with rfl | rfl
      · rw [List.singleton_append, initFrom_blank (by decide), ih hrest hlength]
        simp only [entriesOf, sectionsOf, Line.text, List.length_cons, List.length_append,
          List.length_nil, Nat.zero_add, Nat.add_assoc]
      · rw [List.nil_append, ih hrest hlength]
        simp only [entriesOf, sectionsOf, Line.text, List.append_nil, List.length_cons]
    | header array path key tail =>
      have hskip := skipLineEnd_tail hline.2 hclosed
      have hparse := parseHeader_text hline hskip at_
      have hafter :
          after at_ ((Line.header array path key tail).text ++ textOf rest) (textOf rest) =
            at_ + (Line.header array path key tail).text.length := after_append _ _ _
      obtain ⟨t, ht⟩ : ∃ t, (Line.header array path key tail).text ++ textOf rest =
          leftBracket :: t := by
        cases array <;> exact ⟨_, rfl⟩
      have hlength : (textOf rest).length < fuel := by
        have : 1 ≤ (Line.header array path key tail).text.length := by
          cases array <;> exact Nat.succ_pos _
        omega
      rw [ht] at hparse hafter ⊢
      rw [initFrom_header hparse, hafter, ih hrest hlength]
      simp [entriesOf, sectionsOf]
    | entry head value tail =>
      obtain ⟨hlead, hhead, hvalue, htail⟩ := hline
      have hskip := skipLineEnd_tail htail hclosed
      have hparse := parseEntry_text hlead hhead hvalue hskip at_
      have hafter : after at_ ((Line.entry head value tail).text ++ textOf rest) (textOf rest) =
          at_ + (Line.entry head value tail).text.length := after_append _ _ _
      obtain ⟨c, k, hkey, hstart⟩ := hhead.cons
      obtain ⟨t, ht⟩ : ∃ t, (Line.entry head value tail).text ++ textOf rest = c :: t := by
        refine ⟨k ++ equals :: (head.gap ++ (value.text ++ (tail ++ textOf rest))), ?_⟩
        simp [Line.text, Head.text, hlead, hkey]
      have hlength : (textOf rest).length < fuel := by
        have := hhead.length_pos
        simp only [Line.text, List.length_append] at hfuel
        omega
      rw [ht] at hparse hafter ⊢
      rw [initFrom_entry hstart hparse, hafter, ih hrest hlength]
      simp [entriesOf, sectionsOf, Section.push]

/-- The scanner finds the sections of a document in its text. -/
theorem init_text {doc : List Line} (h : LinesFit doc) :
    init (textOf doc) = some ⟨textOf doc, sectionsIn doc, []⟩ := by
  rw [init, initFrom_text h (Nat.lt_succ_self _), Option.map_some]
  rfl

end Spn.Toml
