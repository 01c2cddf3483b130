import Spn.Toml.Ranges
import Spn.Toml.Strings

/-! # Documents

A text that the editor reads is a document: values, pairs in braces and lines, each with all of the
characters it stands in the text with. A document is written as its pieces one after another, and
what the scanner finds in that text are the entries of the document at the places of the pieces.
-/
namespace Spn.Toml

/-- A key and its equals sign, with what stands before and after them: `key` is the text of the key
and of the white space after it. -/
structure Head where
  lead : Str
  path : List Str
  key : Str
  gap : Str

mutual

/-- A value. -/
inductive Value
  | leaf (kind : Kind) (text : Str)
  | empty (gap : Str)
  | table (pairs : Pairs)

/-- The pairs of an inline table, of which there is one at least. -/
inductive Pairs
  | one (head : Head) (value : Value) (trail : Str)
  | more (head : Head) (value : Value) (trail : Str) (rest : Pairs)

end

/-! ## Texts -/

/-- The text up to the value. -/
def Head.text (h : Head) : Str := h.lead ++ (h.key ++ equals :: h.gap)

mutual

def Value.text : Value → Str
  | .leaf _ text => text
  | .empty gap => leftBrace :: (gap ++ [rightBrace])
  | .table pairs => leftBrace :: pairs.text

/-- The text of pairs, with the brace after them. -/
def Pairs.text : Pairs → Str
  | .one head value trail => head.text ++ (value.text ++ (trail ++ [rightBrace]))
  | .more head value trail rest =>
    head.text ++ (value.text ++ (trail ++ comma :: rest.text))

end

/-! ## Entries -/

def Value.kind : Value → Kind
  | .leaf kind _ => kind
  | .empty _ => .table
  | .table _ => .table

/-- The entry of a pair that begins here. -/
def Head.entry (h : Head) (at_ : ℕ) (kind : Kind) (length : ℕ) (entries : List Entry) : Entry :=
  .mk h.path kind ⟨at_ + h.lead.length, at_ + h.lead.length + h.key.length⟩
    ⟨at_ + h.text.length, at_ + h.text.length + length⟩ 0 entries

mutual

def Value.entries (at_ : ℕ) : Value → List Entry
  | .leaf _ _ => []
  | .empty _ => []
  | .table pairs => pairs.entries (at_ + 1)

def Pairs.entries (at_ : ℕ) : Pairs → List Entry
  | .one head value _ =>
    [head.entry at_ value.kind value.text.length (value.entries (at_ + head.text.length))]
  | .more head value trail rest =>
    head.entry at_ value.kind value.text.length (value.entries (at_ + head.text.length)) ::
      rest.entries (at_ + (head.text.length + (value.text.length + (trail.length + 1))))

end

/-! ## Pieces that fit -/

/-- A character that begins a key. -/
def startsKey (c : UInt8) : Bool := c = quote || c = apostrophe || isBare c

/-- A character that begins a scalar. -/
def startsScalar (c : UInt8) : Bool :=
  c ≠ quote && c ≠ apostrophe && c ≠ leftBracket && c ≠ leftBrace && !isWhitespace c

/-- A value that is no table. -/
inductive Leaf (nested : Bool) : Kind → Str → Prop
  | scalar {c : UInt8} {text : Str} (start : startsScalar c = true)
      (inside : ∀ d ∈ c :: text, endsScalar nested d = false)
      (last : ∀ d ∈ (c :: text).getLast?, isWhitespace d = false) : Leaf nested .scalar (c :: text)
  | string {mark : UInt8} {text : Str} (hmark : IsMark mark) (h : StringText mark text) :
      Leaf nested .string text
  | array {items : Str} (h : Items items) :
      Leaf nested .array (leftBracket :: (items ++ [rightBracket]))

/-- A key that begins with its first segment, and what stands before and after it. -/
structure Head.Fits (h : Head) : Prop where
  lead : ∀ c ∈ h.lead, isBlank c = true
  start : isWhitespace (peek h.key) = false
  key : Key h.path h.key
  gap : Space h.gap

mutual

/-- The pieces of a value are what they are taken for. -/
def Value.Fits (nested : Bool) : Value → Prop
  | .leaf kind text => Leaf nested kind text
  | .empty gap => ∀ c ∈ gap, isBlank c = true
  | .table pairs => pairs.Fits

def Pairs.Fits : Pairs → Prop
  | .one head value trail => head.Fits ∧ value.Fits true ∧ ∀ c ∈ trail, isBlank c = true
  | .more head value trail rest =>
    head.Fits ∧ value.Fits true ∧ (∀ c ∈ trail, isBlank c = true) ∧ rest.Fits

end

/-- What follows a value: white space, and then the end of a scalar. -/
def Stops (nested : Bool) (more : Str) : Prop :=
  ∀ c ∈ (skipWhitespace more).head?, endsScalar nested c = true

/-! ## Reading the pieces -/

variable {nested : Bool} {more rest u w : Str} {c : UInt8}

theorem startsKey_plain (h : startsKey c = true) :
    isBlank c = false ∧ c ≠ hash ∧ c ≠ leftBracket ∧ c ≠ rightBrace := by
  rw [startsKey, Bool.or_eq_true, Bool.or_eq_true, decide_eq_true_iff, decide_eq_true_iff] at h
  rcases h with (rfl | rfl) | hbare
  · decide
  · decide
  · refine ⟨?_, ?_, ?_, ?_⟩
    · by_contra hblank
      simp only [Bool.not_eq_false, isBlank, isWhitespace, Bool.or_eq_true,
        decide_eq_true_iff] at hblank
      rcases hblank with ((rfl | rfl) | rfl) | rfl <;> exact absurd hbare (by decide)
    all_goals
      rintro rfl
      exact absurd hbare (by decide)

theorem isWhitespace_cases (h : isWhitespace c = true) : c = 0x20 ∨ c = 0x09 := by
  simpa [isWhitespace] using h

theorem isBlank_of_isWhitespace (h : isWhitespace c = true) : isBlank c = true := by
  rw [isBlank, h]
  rfl

theorem endsScalar_isWhitespace (h : isWhitespace c = true) : endsScalar nested c = false := by
  obtain rfl | rfl := isWhitespace_cases h <;> cases nested <;> rfl

theorem Segment.startsKey {key text : Str} (h : Segment key text) :
    startsKey (peek text) = true := by
  cases h with
  | bare hne hbare =>
    obtain ⟨c, key, rfl⟩ := List.exists_cons_of_ne_nil hne
    rw [Toml.startsKey, peek_cons, hbare c List.mem_cons_self, Bool.or_true]
  | literal => rfl
  | basic => rfl

/-- A key begins with white space or with its first segment. -/
theorem Key.start {path : List Str} (h : Key path w) :
    isWhitespace (peek w) = true ∨ startsKey (peek w) = true := by
  have hfirst : ∀ {key lead text rest : Str}, Space lead → Segment key text →
      isWhitespace (peek (lead ++ (text ++ rest))) = true ∨
        startsKey (peek (lead ++ (text ++ rest))) = true := by
    intro key lead text rest hlead hsegment
    cases lead with
    | nil =>
      rw [List.nil_append, peek_append hsegment.start.1]
      exact .inr hsegment.startsKey
    | cons c lead => exact .inl (hlead c List.mem_cons_self)
  cases h with
  | last hlead hsegment => exact hfirst hlead hsegment
  | dotted hlead hsegment => exact hfirst hlead hsegment

theorem Key.plain {path : List Str} (h : Key path w) : peek w ≠ leftBracket := by
  intro heq
  rcases h.start with hspace | hstart
  · rw [heq] at hspace
    cases hspace
  · exact (startsKey_plain hstart).2.2.1 heq

theorem skipWhitespace_append (hw : ∀ c ∈ w, isWhitespace c = true) (u : Str) :
    skipWhitespace (w ++ u) = skipWhitespace u := List.dropWhile_append_of_pos hw

theorem skipBlank_append (hw : ∀ c ∈ w, isBlank c = true) (u : Str) :
    skipBlank (w ++ u) = skipBlank u := List.dropWhile_append_of_pos hw

theorem skipWhitespace_cons (h : isWhitespace c = false) (u : Str) :
    skipWhitespace (c :: u) = c :: u := List.dropWhile_cons_of_neg (by simp [h])

theorem skipBlank_cons (h : isBlank c = false) (u : Str) : skipBlank (c :: u) = c :: u :=
  List.dropWhile_cons_of_neg (by simp [h])

@[simp] theorem after_append (at_ : ℕ) (w u : Str) : after at_ (w ++ u) u = at_ + w.length := by
  rw [after, List.length_append, Nat.add_sub_cancel_right]

/-- What follows a value in braces ends it. -/
theorem Stops.trail {trail : Str} (htrail : ∀ c ∈ trail, isBlank c = true)
    (hc : c = comma ∨ c = rightBrace) (more : Str) : Stops true (trail ++ c :: more) := by
  intro d hd
  obtain ⟨w, hw, hspace⟩ := skipWhitespace_split trail
  rw [hw, List.append_assoc, skipWhitespace_append hspace] at hd
  cases hrest : skipWhitespace trail with
  | nil =>
    rw [hrest, List.nil_append] at hd
    rcases hc with rfl | rfl
    · obtain rfl : comma = d := Option.some.inj hd
      rfl
    · obtain rfl : rightBrace = d := Option.some.inj hd
      rfl
  | cons e left =>
    have he : isWhitespace e = false := head?_dropWhile (u := trail) (p := isWhitespace) (by
      rw [show trail.dropWhile isWhitespace = e :: left from hrest]
      rfl)
    rw [hrest, List.cons_append, skipWhitespace_cons he] at hd
    obtain rfl : e = d := Option.some.inj hd
    have hblank : isBlank e = true := htrail e (by
      rw [hw, hrest]
      exact List.mem_append_right _ List.mem_cons_self)
    rw [isBlank, he, Bool.false_or, Bool.or_eq_true, decide_eq_true_iff,
      decide_eq_true_iff] at hblank
    rcases hblank with rfl | rfl <;> rfl

/-- Where a value stops no mark of a string follows. -/
theorem Stops.peek (h : Stops nested more) (hc : IsMark c) : peek more ≠ c := by
  intro hpeek
  cases more with
  | nil =>
    rcases hc with rfl | rfl <;> cases hpeek
  | cons d more =>
    obtain rfl : d = c := hpeek
    have hspace : isWhitespace d = false := by rcases hc with rfl | rfl <;> rfl
    have hends := h d (by rw [skipWhitespace_cons hspace]; rfl)
    rcases hc with rfl | rfl <;> cases nested <;> cases hends

/-- The white space after a value, and what is left then. -/
theorem Stops.split (h : Stops nested more) :
    ∃ s left, more = s ++ left ∧ (∀ c ∈ s, isWhitespace c = true) ∧
      ∀ c ∈ left.head?, endsScalar nested c = true := by
  obtain ⟨s, hs, hspace⟩ := skipWhitespace_split more
  exact ⟨s, _, hs, hspace, h⟩

theorem rdropWhile_space {text s : Str} (hlast : ∀ d ∈ text.getLast?, isWhitespace d = false)
    (hs : ∀ c ∈ s, isWhitespace c = true) : (text ++ s).rdropWhile isWhitespace = text := by
  rw [List.rdropWhile, List.reverse_append,
    List.dropWhile_append_of_pos fun c hc => hs c (List.mem_reverse.1 hc)]
  cases hrev : text.reverse with
  | nil => rw [List.reverse_eq_nil_iff.1 hrev]; rfl
  | cons d front =>
    have hd : isWhitespace d = false := hlast d (by
      rw [← List.head?_reverse, hrev]
      rfl)
    rw [List.dropWhile_cons_of_neg (by simp [hd]), ← hrev, List.reverse_reverse]

/-- A value that is no table is found in front of what stops it. -/
theorem Leaf.scan {kind : Kind} {text : Str} (h : Leaf nested kind text) (hstop : Stops nested more)
    (fuel at_ : ℕ) :
    ∃ s left, more = s ++ left ∧ (∀ c ∈ s, isWhitespace c = true) ∧
      scanValue nested (fuel + 1) at_ (text ++ more) =
        some ⟨kind, [], at_ + text.length, left⟩ := by
  cases h with
  | @scalar c text start inside last =>
    obtain ⟨s, left, rfl, hs, hends⟩ := hstop.split
    refine ⟨s, left, rfl, hs, ?_⟩
    simp only [startsScalar, Bool.and_eq_true, decide_eq_true_iff, ne_eq,
      Bool.not_eq_true'] at start
    obtain ⟨⟨⟨⟨hquote, happ⟩, hbracket⟩, hbrace⟩, -⟩ := start
    have hinside : ∀ d ∈ c :: text ++ s, (!endsScalar nested d) = true := by
      intro d hd
      rw [Bool.not_eq_true']
      rcases List.mem_append.1 hd with hd | hd
      · exact inside d hd
      · exact endsScalar_isWhitespace (hs d hd)
    have hleft : ∀ d ∈ left.head?, (!endsScalar nested d) = false := fun d hd => by
      rw [hends d hd]
      rfl
    obtain ⟨htake, hdrop⟩ := span_append hinside hleft
    rw [scanValue, ← List.append_assoc]
    have hpeek : peek (c :: text ++ s ++ left) = c := rfl
    simp only [hpeek, hquote, happ, hbracket, hbrace, decide_false, Bool.or_self,
      Bool.false_eq_true, if_false]
    rw [scanScalar, htake, hdrop, rdropWhile_space last hs]
    exact if_neg (List.cons_ne_nil _ _)
  | @string mark _ hmark htext =>
    refine ⟨[], more, rfl, fun c hc => absurd hc List.not_mem_nil, ?_⟩
    have hscan := htext.scan hmark fun _ => hstop.peek hmark
    obtain ⟨rest, rfl⟩ := htext.cons
    rw [scanValue, List.cons_append, peek_cons, if_pos (isMark_iff.2 hmark), ← List.cons_append,
      hscan, Option.map_some, after_append]
  | @array items hitems =>
    refine ⟨[], more, rfl, fun c hc => absurd hc List.not_mem_nil, ?_⟩
    have htext : leftBracket :: (items ++ [rightBracket]) ++ more =
        leftBracket :: (items ++ rightBracket :: more) := by simp
    have hscan : scanArray ((leftBracket :: (items ++ rightBracket :: more)).length + 1) 0
        (leftBracket :: (items ++ rightBracket :: more)) = some more :=
      hitems.array_scan (by simp) more
    rw [scanValue, htext, peek_cons, if_neg (by decide), if_pos rfl, hscan, Option.map_some,
      ← htext, after_append]

theorem Leaf.start {kind : Kind} {text : Str} (h : Leaf nested kind text) :
    ∃ c t, text = c :: t ∧ isWhitespace c = false := by
  cases h with
  | @scalar c text start =>
    rw [startsScalar, Bool.and_eq_true, Bool.not_eq_true'] at start
    exact ⟨c, text, rfl, start.2⟩
  | @string mark _ hmark htext =>
    obtain ⟨rest, rfl⟩ := htext.cons
    exact ⟨mark, rest, rfl, by rcases hmark with rfl | rfl <;> rfl⟩
  | array => exact ⟨leftBracket, _, rfl, rfl⟩

theorem Value.start {v : Value} (h : v.Fits nested) :
    ∃ c t, v.text = c :: t ∧ isWhitespace c = false := by
  cases v with
  | leaf kind text => exact Leaf.start h
  | empty gap => exact ⟨leftBrace, _, rfl, rfl⟩
  | table pairs => exact ⟨leftBrace, _, rfl, rfl⟩

theorem Head.Fits.cons {h : Head} (hh : h.Fits) :
    ∃ c t, h.key = c :: t ∧ startsKey c = true := by
  obtain ⟨c, t, hkey⟩ := List.exists_cons_of_ne_nil hh.key.text_ne
  refine ⟨c, t, hkey, ?_⟩
  have hfirst := hh.key.start.resolve_left (by rw [hh.start]; exact Bool.false_ne_true)
  rwa [hkey] at hfirst

/-- Blanks before a key are skipped. -/
theorem Head.Fits.skip {h : Head} (hh : h.Fits) (u : Str) :
    skipBlank (h.text ++ u) = h.key ++ equals :: (h.gap ++ u) := by
  obtain ⟨c, t, hkey, hstart⟩ := hh.cons
  rw [Head.text, List.append_assoc, skipBlank_append hh.lead, List.append_assoc, List.cons_append,
    hkey, List.cons_append, skipBlank_cons (startsKey_plain hstart).1]

/-- A pair is found where its value is. -/
theorem Head.Fits.pair {h : Head} (hh : h.Fits) {v : Value} (hv : v.Fits nested)
    {scan : ℕ → Str → Option Scanned} {at_ : ℕ} {left : Str}
    (hscan : scan (at_ + h.text.length) (v.text ++ more) =
      some ⟨v.kind, v.entries (at_ + h.text.length), at_ + h.text.length + v.text.length, left⟩) :
    scanPair scan (at_ + h.lead.length) (h.key ++ equals :: (h.gap ++ (v.text ++ more))) =
      some (h.entry at_ v.kind v.text.length (v.entries (at_ + h.text.length)), left) := by
  obtain ⟨c, t, hc, hspace⟩ := Value.start hv
  have hvalue : skipWhitespace (h.gap ++ (v.text ++ more)) = v.text ++ more := by
    rw [skipWhitespace_append hh.gap, hc, List.cons_append, skipWhitespace_cons hspace]
  have hkey : after (at_ + h.lead.length) (h.key ++ equals :: (h.gap ++ (v.text ++ more)))
      (equals :: (h.gap ++ (v.text ++ more))) = at_ + h.lead.length + h.key.length :=
    after_append _ _ _
  have hstart : after (at_ + h.lead.length) (h.key ++ equals :: (h.gap ++ (v.text ++ more)))
      (v.text ++ more) = at_ + h.text.length := by
    have htext : h.key ++ equals :: (h.gap ++ (v.text ++ more)) =
        (h.key ++ equals :: h.gap) ++ (v.text ++ more) := by simp
    rw [htext, after_append, Nat.add_assoc]
    simp only [Head.text, List.length_append, List.length_cons]
  rw [scanPair, hh.key.parse (endsKey_equals _), Option.bind_some]
  dsimp only
  rw [skipWhitespace_cons (show isWhitespace equals = false from rfl), accept_cons,
    Option.bind_some, hvalue, hstart, hkey, hscan, Option.map_some]
  rfl

theorem accept_ne (h : peek u ≠ c) : accept c u = none := if_neg h

/-- A pair in braces is found, and then what follows its value. -/
theorem Head.Fits.inside {h : Head} (hh : h.Fits) {v : Value} (hv : v.Fits true)
    {trail : Str} (htrail : ∀ d ∈ trail, isBlank d = true) {fuel at_ : ℕ}
    (hc : c = comma ∨ c = rightBrace)
    (hscan : ∃ s left, trail ++ c :: more = s ++ left ∧ (∀ d ∈ s, isWhitespace d = true) ∧
      scanValue true fuel (at_ + h.text.length) (v.text ++ (trail ++ c :: more)) =
        some ⟨v.kind, v.entries (at_ + h.text.length), at_ + h.text.length + v.text.length, left⟩) :
    ∃ left, scanPair (scanValue true fuel)
        (after at_ (h.text ++ (v.text ++ (trail ++ c :: more)))
          (skipBlank (h.text ++ (v.text ++ (trail ++ c :: more)))))
        (skipBlank (h.text ++ (v.text ++ (trail ++ c :: more)))) =
          some (h.entry at_ v.kind v.text.length (v.entries (at_ + h.text.length)), left) ∧
      skipBlank left = c :: more := by
  obtain ⟨s, left, hmore, hs, hscan⟩ := hscan
  have hlead : after at_ (h.text ++ (v.text ++ (trail ++ c :: more)))
      (h.key ++ equals :: (h.gap ++ (v.text ++ (trail ++ c :: more)))) = at_ + h.lead.length := by
    have htext : h.text ++ (v.text ++ (trail ++ c :: more)) =
        h.lead ++ (h.key ++ equals :: (h.gap ++ (v.text ++ (trail ++ c :: more)))) := by
      simp [Head.text]
    rw [htext, after_append]
  have hblank : isBlank c = false := by rcases hc with rfl | rfl <;> rfl
  refine ⟨left, ?_, ?_⟩
  · rw [hh.skip, hlead, hh.pair hv hscan]
  · rw [← skipBlank_append (fun d hd => isBlank_of_isWhitespace (hs d hd)) left, ← hmore,
      skipBlank_append htrail, skipBlank_cons hblank]

/-- The pairs without the blanks before the first of them. -/
def Pairs.bare : Pairs → Pairs
  | .one head value trail => .one { head with lead := [] } value trail
  | .more head value trail rest => .more { head with lead := [] } value trail rest

def Pairs.lead : Pairs → Str
  | .one head _ _ => head.lead
  | .more head _ _ _ => head.lead

theorem Pairs.text_eq (p : Pairs) : p.text = p.lead ++ p.bare.text := by
  cases p with
  | one head value trail => simp only [Pairs.text, Pairs.lead, Pairs.bare, Head.text,
      List.append_assoc, List.nil_append]
  | more head value trail rest => simp only [Pairs.text, Pairs.lead, Pairs.bare, Head.text,
      List.append_assoc, List.nil_append]

theorem Head.Fits.bare {h : Head} (hh : h.Fits) : Head.Fits { h with lead := [] } :=
  ⟨fun _ hc => absurd hc List.not_mem_nil, hh.start, hh.key, hh.gap⟩

theorem Pairs.Fits.bare {p : Pairs} (h : p.Fits) : p.bare.Fits := by
  cases p with
  | one head value trail => exact ⟨h.1.bare, h.2⟩
  | more head value trail rest => exact ⟨h.1.bare, h.2⟩

theorem Pairs.Fits.lead {p : Pairs} (h : p.Fits) : ∀ c ∈ p.lead, isBlank c = true := by
  cases p with
  | one head value trail => exact h.1.lead
  | more head value trail rest => exact h.1.lead

theorem Pairs.Fits.start {p : Pairs} (h : p.Fits) :
    ∃ c t, p.bare.text = c :: t ∧ startsKey c = true := by
  cases p with
  | one head value trail =>
    obtain ⟨c, t, hkey, hstart⟩ := h.1.cons
    exact ⟨c, _, by rw [Pairs.bare, Pairs.text, Head.text, List.nil_append, hkey]; rfl, hstart⟩
  | more head value trail rest =>
    obtain ⟨c, t, hkey, hstart⟩ := h.1.cons
    exact ⟨c, _, by rw [Pairs.bare, Pairs.text, Head.text, List.nil_append, hkey]; rfl, hstart⟩

theorem Head.length_text (h : Head) :
    h.text.length = h.lead.length + (h.key.length + (h.gap.length + 1)) := by
  simp only [Head.text, List.length_append, List.length_cons]

theorem Head.entry_bare (h : Head) (at_ : ℕ) (kind : Kind) (length : ℕ) (entries : List Entry) :
    Head.entry { h with lead := [] } (at_ + h.lead.length) kind length entries =
      h.entry at_ kind length entries := by
  simp only [Head.entry, Head.length_text, List.length_nil, Nat.add_zero, Nat.zero_add,
    Nat.add_assoc]

theorem Pairs.entries_bare (p : Pairs) (at_ : ℕ) :
    p.bare.entries (at_ + p.lead.length) = p.entries at_ := by
  cases p with
  | one head value trail =>
    have hstart : at_ + head.lead.length + (Head.text { head with lead := [] }).length =
        at_ + head.text.length := by
      simp only [Head.length_text, List.length_nil]
      omega
    simp only [Pairs.bare, Pairs.lead, Pairs.entries, Head.entry_bare, hstart]
  | more head value trail rest =>
    have hstart : at_ + head.lead.length + (Head.text { head with lead := [] }).length =
        at_ + head.text.length := by
      simp only [Head.length_text, List.length_nil]
      omega
    have hrest : ∀ n, at_ + head.lead.length + ((Head.text { head with lead := [] }).length + n) =
        at_ + (head.text.length + n) := fun n => by
      rw [← Nat.add_assoc, hstart, Nat.add_assoc]
    simp only [Pairs.bare, Pairs.lead, Pairs.entries, Head.entry_bare, hstart, hrest]

theorem Head.Fits.length_pos {h : Head} (hh : h.Fits) : 2 ≤ h.text.length := by
  obtain ⟨c, t, hkey, -⟩ := hh.cons
  rw [h.length_text, hkey, List.length_cons]
  omega

theorem scanValue_empty {fuel at_ : ℕ} {left : Str}
    (h : accept rightBrace (skipBlank u) = some left) :
    scanValue nested (fuel + 1) at_ (leftBrace :: u) =
      some ⟨.table, [], after at_ (leftBrace :: u) left, left⟩ := by
  rw [scanValue, peek_cons, if_neg (by decide), if_neg (by decide), if_pos rfl]
  simp only [List.tail_cons, h]

theorem scanValue_table {fuel at_ : ℕ} (h : accept rightBrace (skipBlank u) = none) :
    scanValue nested (fuel + 1) at_ (leftBrace :: u) =
      (scanPairs fuel (after at_ (leftBrace :: u) (skipBlank u)) (skipBlank u)).map fun p =>
        ⟨.table, p.1, after at_ (leftBrace :: u) p.2, p.2⟩ := by
  rw [scanValue, peek_cons, if_neg (by decide), if_neg (by decide), if_pos rfl]
  simp only [List.tail_cons, h]

/-- What the scanner finds in the text of a value, and in the text of pairs. -/
theorem scan_text (fuel : ℕ) :
    (∀ nested v more at_, Value.Fits nested v → Stops nested more → v.text.length < fuel →
      ∃ s left, more = s ++ left ∧ (∀ c ∈ s, isWhitespace c = true) ∧
        scanValue nested fuel at_ (v.text ++ more) =
          some ⟨v.kind, v.entries at_, at_ + v.text.length, left⟩) ∧
      ∀ p more at_, Pairs.Fits p → p.text.length ≤ fuel →
        scanPairs fuel at_ (p.text ++ more) = some (p.entries at_, more) := by
  induction fuel with
  | zero =>
    refine ⟨fun nested v more at_ _ _ hfuel => absurd hfuel (Nat.not_lt_zero _),
      fun p more at_ hp hfuel => ?_⟩
    obtain ⟨c, t, ht, -⟩ := hp.start
    rw [p.text_eq, ht, List.length_append, List.length_cons] at hfuel
    omega
  | succ fuel ih =>
    obtain ⟨ihValue, ihPairs⟩ := ih
    refine ⟨fun nested v more at_ hv hstop hfuel => ?_, fun p more at_ hp hfuel => ?_⟩
    · cases v with
      | leaf kind text => exact Leaf.scan hv hstop fuel at_
      | empty gap =>
        refine ⟨[], more, rfl, fun c hc => absurd hc List.not_mem_nil, ?_⟩
        have htext : Value.text (.empty gap) ++ more = (leftBrace :: gap ++ [rightBrace]) ++ more :=
          rfl
        have hskip : skipBlank (gap ++ [rightBrace] ++ more) = rightBrace :: more := by
          rw [List.append_assoc, skipBlank_append hv]
          rfl
        rw [htext, List.cons_append, List.cons_append,
          scanValue_empty (show accept rightBrace _ = some more by rw [hskip, accept_cons])]
        have hafter : after at_ (leftBrace :: (gap ++ [rightBrace] ++ more)) more =
            at_ + (Value.text (.empty gap)).length :=
          after_append at_ (Value.text (.empty gap)) more
        rw [hafter]
        rfl
      | table p =>
        have hp : p.Fits := hv
        obtain ⟨c, t, ht, hc⟩ := hp.start
        have hfits := startsKey_plain hc
        have hskip : skipBlank (p.text ++ more) = p.bare.text ++ more := by
          rw [p.text_eq, List.append_assoc, skipBlank_append hp.lead, ht, List.cons_append,
            skipBlank_cons hfits.1]
        have hbrace : accept rightBrace (p.bare.text ++ more) = none := by
          rw [ht]
          exact accept_ne hfits.2.2.2
        have hfirst : after at_ (leftBrace :: (p.text ++ more)) (p.bare.text ++ more) =
            at_ + 1 + p.lead.length := by
          rw [p.text_eq]
          simp only [after, List.length_cons, List.length_append]
          omega
        have hlength : p.bare.text.length ≤ fuel := by
          have : p.text.length + 1 < fuel + 1 := hfuel
          rw [p.text_eq, List.length_append] at this
          omega
        refine ⟨[], more, rfl, fun c hc => absurd hc List.not_mem_nil, ?_⟩
        have htext : Value.text (.table p) ++ more = leftBrace :: (p.text ++ more) := rfl
        have hafter : after at_ (leftBrace :: (p.text ++ more)) more =
            at_ + (Value.text (.table p)).length :=
          after_append at_ (Value.text (.table p)) more
        rw [htext, scanValue_table (by rw [hskip, hbrace]), hskip, hfirst,
          ihPairs _ more _ hp.bare hlength, p.entries_bare, Option.map_some, hafter]
        rfl
    · cases p with
      | one head v trail =>
        obtain ⟨hhead, hv, htrail⟩ := hp
        have hlength := hhead.length_pos
        simp only [Pairs.text, List.length_append, List.length_singleton] at hfuel
        obtain ⟨left, hpair, hleft⟩ := hhead.inside hv htrail (.inr rfl)
          (ihValue true v (trail ++ rightBrace :: more) (at_ + head.text.length) hv
            (Stops.trail htrail (.inr rfl) more) (by omega))
        have htext : (Pairs.one head v trail).text ++ more =
            head.text ++ (v.text ++ (trail ++ rightBrace :: more)) := by
          simp [Pairs.text]
        have hcomma : rightBrace ≠ comma := by decide
        rw [htext, scanPairs]
        simp only [hpair, Option.bind_some, hleft, accept_cons,
          accept_ne (show peek (rightBrace :: more) ≠ comma from hcomma)]
        rfl
      | more head v trail rest =>
        obtain ⟨hhead, hv, htrail, hrest⟩ := hp
        have hlength := hhead.length_pos
        simp only [Pairs.text, List.length_append, List.length_cons] at hfuel
        obtain ⟨left, hpair, hleft⟩ := hhead.inside hv htrail (.inl rfl)
          (ihValue true v (trail ++ comma :: (rest.text ++ more)) (at_ + head.text.length) hv
            (Stops.trail htrail (.inl rfl) _) (by omega))
        have htext : (Pairs.more head v trail rest).text ++ more =
            head.text ++ (v.text ++ (trail ++ comma :: (rest.text ++ more))) := by
          simp [Pairs.text]
        have hnext : after at_ (head.text ++ (v.text ++ (trail ++ comma :: (rest.text ++ more))))
            (rest.text ++ more) =
              at_ + (head.text.length + (v.text.length + (trail.length + 1))) := by
          simp only [after, List.length_append, List.length_cons]
          omega
        rw [htext, scanPairs]
        simp only [hpair, Option.bind_some, hleft, accept_cons, hnext,
          ihPairs rest more _ hrest (by omega)]
        rfl

end Spn.Toml
