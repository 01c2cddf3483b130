import Spn.Toml.Sections

/-! # Every accepted text is a document

The other direction: what the scanner takes is cut into the pieces of a document, which has the text
it was cut from.
-/
namespace Spn.Toml

variable {nested : Bool} {u r : Str} {c : UInt8} {at_ : ℕ}

/-! ## Keys -/

theorem skipWhitespace_idem (u : Str) : skipWhitespace (skipWhitespace u) = skipWhitespace u :=
  List.dropWhile_idempotent isWhitespace u

/-- White space after a key is part of it. -/
theorem parseKeyFrom_stop {fuel : ℕ} {path : List Str} (h : parseKeyFrom fuel u = some (path, r)) :
    skipWhitespace r = r := by
  induction fuel generalizing u path with
  | zero => cases h
  | succ fuel ih =>
    rw [parseKeyFrom] at h
    obtain ⟨⟨segment, left⟩, -, hrest⟩ := Option.bind_eq_some_iff.1 h
    dsimp only at hrest
    split at hrest
    · obtain ⟨⟨others, last⟩, hothers, heq⟩ := Option.map_eq_some_iff.1 hrest
      obtain ⟨rfl, rfl⟩ := Prod.mk.inj heq
      exact ih hothers
    · obtain ⟨rfl, rfl⟩ := Prod.mk.inj (Option.some.inj hrest)
      exact skipWhitespace_idem left

/-! ## Values -/

/-- The pairs with blanks before the first of them. -/
def Pairs.after (w : Str) : Pairs → Pairs
  | .one head value trail => .one { head with lead := w ++ head.lead } value trail
  | .more head value trail rest => .more { head with lead := w ++ head.lead } value trail rest

theorem Pairs.after_text (w : Str) (p : Pairs) : (p.after w).text = w ++ p.text := by
  cases p with
  | one head value trail => simp only [Pairs.after, Pairs.text, Head.text, List.append_assoc]
  | more head value trail rest => simp only [Pairs.after, Pairs.text, Head.text, List.append_assoc]

theorem Head.Fits.after {h : Head} (hh : h.Fits) {w : Str} (hw : ∀ c ∈ w, isBlank c = true) :
    Head.Fits { h with lead := w ++ h.lead } :=
  ⟨fun c hc => (List.mem_append.1 hc).elim (hw c) (hh.lead c), hh.start, hh.key, hh.gap⟩

theorem Pairs.Fits.after {p : Pairs} (h : p.Fits) {w : Str} (hw : ∀ c ∈ w, isBlank c = true) :
    (p.after w).Fits := by
  cases p with
  | one head value trail => exact ⟨h.1.after hw, h.2⟩
  | more head value trail rest => exact ⟨h.1.after hw, h.2⟩

/-- What a scanner takes as a value is one. -/
def Takes (nested : Bool) (scan : ℕ → Str → Option Scanned) : Prop :=
  ∀ at_ u found, isWhitespace (peek u) = false → scan at_ u = some found →
    ∃ v s, Value.Fits nested v ∧ u = v.text ++ (s ++ found.rest) ∧
      ∀ c ∈ s, isWhitespace c = true

theorem scanPair_takes {scan : ℕ → Str → Option Scanned} (hscan : Takes nested scan)
    (hu : isBlank (peek u) = false) {entry : Entry} (h : scanPair scan at_ u = some (entry, r)) :
    ∃ head v s, head.lead = [] ∧ Head.Fits head ∧ Value.Fits nested v ∧
      u = head.text ++ (v.text ++ (s ++ r)) ∧ ∀ c ∈ s, isWhitespace c = true := by
  obtain ⟨⟨path, afterKey⟩, hkey, hrest⟩ := Option.bind_eq_some_iff.1 h
  obtain ⟨afterEquals, hequals, hvalue⟩ := Option.bind_eq_some_iff.1 hrest
  obtain ⟨found, hfound, heq⟩ := Option.map_eq_some_iff.1 hvalue
  obtain ⟨-, rfl⟩ := Prod.mk.inj heq
  have hafter : afterKey = equals :: afterEquals := by
    rw [← parseKeyFrom_stop hkey]
    exact accept_some hequals (by decide)
  obtain ⟨wKey, huKey, hwKey⟩ := key_of_parse hkey
  obtain ⟨wGap, huGap, hgap⟩ := skipWhitespace_split afterEquals
  have hfirst : isWhitespace (peek (skipWhitespace afterEquals)) = false := peek_dropWhile rfl _
  obtain ⟨v, s, hv, huValue, hs⟩ := hscan _ _ _ hfirst hfound
  have hstart : isWhitespace (peek wKey) = false := by
    rw [huKey, peek_append hwKey.text_ne, isBlank, Bool.or_assoc, Bool.or_eq_false_iff] at hu
    exact hu.1
  refine ⟨⟨[], path, wKey, wGap⟩, v, s, rfl,
    ⟨fun c hc => absurd hc List.not_mem_nil, hstart, hwKey, hgap⟩, hv, ?_, hs⟩
  rw [huKey, hafter, huGap, huValue]
  simp [Head.text]

theorem rdropWhile_split (p : UInt8 → Bool) (l : Str) :
    ∃ s, l = l.rdropWhile p ++ s ∧ ∀ c ∈ s, p c = true := by
  refine ⟨(l.reverse.takeWhile p).reverse, ?_, fun c hc =>
    List.mem_takeWhile_imp (List.mem_reverse.1 hc)⟩
  rw [List.rdropWhile, ← List.reverse_append, List.takeWhile_append_dropWhile,
    List.reverse_reverse]

theorem scanScalar_takes (hu : isWhitespace (peek u) = false) {found : Scanned}
    (hplain : peek u ≠ quote ∧ peek u ≠ apostrophe ∧ peek u ≠ leftBracket ∧ peek u ≠ leftBrace)
    (h : scanScalar nested at_ u = some found) :
    ∃ v s, Value.Fits nested v ∧ u = v.text ++ (s ++ found.rest) ∧
      ∀ c ∈ s, isWhitespace c = true := by
  rw [scanScalar] at h
  split_ifs at h with hnil
  obtain rfl := Option.some.inj h
  set inside := u.takeWhile fun c => !endsScalar nested c with hinside
  obtain ⟨s, hs, hspace⟩ := rdropWhile_split isWhitespace inside
  obtain ⟨c, t, hc⟩ := List.exists_cons_of_ne_nil hnil
  have hall : u = inside.rdropWhile isWhitespace ++
      (s ++ u.dropWhile fun c => !endsScalar nested c) := by
    rw [← List.append_assoc, ← hs, hinside, List.takeWhile_append_dropWhile]
  have hpeek : peek u = c := by
    rw [hall, hc]
    rfl
  rw [hpeek] at hu hplain
  refine ⟨.leaf .scalar (inside.rdropWhile isWhitespace), s, ?_, hall, ?_⟩
  · show Leaf nested .scalar (inside.rdropWhile isWhitespace)
    rw [hc]
    refine .scalar ?_ (fun d hd => ?_) fun d hd => ?_
    · simp [startsScalar, hplain, hu]
    · have hmem : d ∈ inside := by
        rw [hs, hc]
        exact List.mem_append_left _ hd
      simpa using List.mem_takeWhile_imp hmem
    · rw [← hc, List.getLast?_eq_some_getLast hnil] at hd
      obtain rfl := Option.some.inj hd
      simpa using List.rdropWhile_last_not isWhitespace inside hnil
  · exact hspace

theorem scan_takes (fuel : ℕ) :
    (∀ nested, Takes nested (scanValue nested fuel)) ∧
      ∀ at_ u entries r, scanPairs fuel at_ u = some (entries, r) →
        ∃ p, Pairs.Fits p ∧ u = p.text ++ r := by
  induction fuel with
  | zero =>
    refine ⟨fun nested at_ u found _ h => ?_, fun at_ u entries r h => ?_⟩
    · rw [scanValue] at h
      cases h
    · rw [scanPairs] at h
      cases h
  | succ fuel ih =>
    obtain ⟨ihValue, ihPairs⟩ := ih
    refine ⟨fun nested at_ u found hu h => ?_, fun at_ u entries r h => ?_⟩
    · rw [scanValue] at h
      split_ifs at h with hstring harray htable
      · obtain ⟨left, hleft, rfl⟩ := Option.map_eq_some_iff.1 h
        have hmark : IsMark (peek u) := isMark_iff.1 hstring
        obtain ⟨w, hw, htext, -⟩ := string_of_scan hmark hleft
        exact ⟨.leaf .string w, [], .string hmark htext, hw, fun d hd => absurd hd List.not_mem_nil⟩
      · obtain ⟨left, hleft, rfl⟩ := Option.map_eq_some_iff.1 h
        cases u with
        | nil => cases harray
        | cons c u =>
          obtain rfl : c = leftBracket := harray
          obtain ⟨items, hitems, hu⟩ := array_of_scan hleft
          refine ⟨.leaf .array (leftBracket :: (items ++ [rightBracket])), [], .array hitems, ?_,
            fun d hd => absurd hd List.not_mem_nil⟩
          rw [hu]
          simp [Value.text]
      · cases u with
        | nil => cases htable
        | cons c u =>
          obtain rfl : c = leftBrace := htable
          obtain ⟨wBlank, huBlank, hblank⟩ := skipBlank_split u
          dsimp only [List.tail_cons] at h
          split at h
          · rename_i left hclose
            obtain rfl := Option.some.inj h
            refine ⟨.empty wBlank, [], hblank, ?_, fun d hd => absurd hd List.not_mem_nil⟩
            conv_lhs => rw [huBlank, accept_some hclose (by decide)]
            simp [Value.text]
          · obtain ⟨⟨entries, left⟩, hpairs, rfl⟩ := Option.map_eq_some_iff.1 h
            obtain ⟨p, hp, htext⟩ := ihPairs _ _ _ _ hpairs
            refine ⟨.table (p.after wBlank), [], hp.after hblank, ?_,
              fun d hd => absurd hd List.not_mem_nil⟩
            conv_lhs => rw [huBlank, htext]
            simp [Value.text, Pairs.after_text]
      · rw [Bool.not_eq_true, Bool.or_eq_false_iff, decide_eq_false_iff_not,
          decide_eq_false_iff_not] at hstring
        exact scanScalar_takes hu ⟨hstring.1, hstring.2, harray, htable⟩ h
    · rw [scanPairs] at h
      obtain ⟨⟨entry, left⟩, hpair, hrest⟩ := Option.bind_eq_some_iff.1 h
      obtain ⟨wBlank, huBlank, hblank⟩ := skipBlank_split u
      have hpeek : isBlank (peek (skipBlank u)) = false := peek_dropWhile rfl u
      obtain ⟨head, v, s, hlead, hhead, hv, htext, hs⟩ :=
        scanPair_takes (ihValue true) hpeek hpair
      obtain ⟨wTrail, huTrail, htrail⟩ := skipBlank_split left
      have hspace : ∀ d ∈ s ++ wTrail, isBlank d = true := fun d hd =>
        (List.mem_append.1 hd).elim (fun hd => isBlank_of_isWhitespace (hs d hd)) (htrail d)
      have hu : u = Head.text { head with lead := wBlank ++ head.lead } ++
          (v.text ++ (s ++ wTrail ++ skipBlank left)) := by
        conv_lhs => rw [huBlank, htext, huTrail]
        simp only [Head.text, List.append_assoc]
      dsimp only at hrest
      split at hrest
      · rename_i next hcomma
        obtain ⟨⟨others, last⟩, hothers, heq⟩ := Option.map_eq_some_iff.1 hrest
        obtain ⟨-, rfl⟩ := Prod.mk.inj heq
        obtain ⟨p, hp, hptext⟩ := ihPairs _ _ _ _ hothers
        refine ⟨.more { head with lead := wBlank ++ head.lead } v (s ++ wTrail) p,
          ⟨hhead.after hblank, hv, hspace, hp⟩, ?_⟩
        rw [hu, accept_some hcomma (by decide), hptext]
        simp [Pairs.text]
      · obtain ⟨last, hlast, heq⟩ := Option.map_eq_some_iff.1 hrest
        obtain ⟨-, rfl⟩ := Prod.mk.inj heq
        refine ⟨.one { head with lead := wBlank ++ head.lead } v (s ++ wTrail),
          ⟨hhead.after hblank, hv, hspace⟩, ?_⟩
        rw [hu, accept_some hlast (by decide)]
        simp [Pairs.text]

/-! ## Lines -/

theorem lineEnd_takes {x left : Str} (h : skipLineEnd x = some left) :
    ∃ tail, x = tail ++ left ∧ (Ended tail ∨ Unended tail) ∧ (left ≠ [] → Ended tail) := by
  obtain ⟨tail, htail, hended | ⟨hnil, hunended⟩⟩ := lineEnd_of_skip h
  · exact ⟨tail, htail, .inl hended, fun _ => hended⟩
  · exact ⟨tail, htail, .inr hunended, fun hne => absurd hnil hne⟩

theorem parseEntry_takes {entry : Entry} {left : Str} (hu : isBlank (peek u) = false)
    (h : parseEntry at_ u = some (entry, left)) :
    ∃ line : Line, line.Fits ∧ u = line.text ++ left ∧ (left ≠ [] → line.Closed) := by
  obtain ⟨⟨found, r⟩, hpair, hrest⟩ := Option.bind_eq_some_iff.1 h
  obtain ⟨last, hlast, heq⟩ := Option.map_eq_some_iff.1 hrest
  obtain ⟨-, rfl⟩ := Prod.mk.inj heq
  obtain ⟨head, v, s, hlead, hhead, hv, htext, hs⟩ :=
    scanPair_takes ((scan_takes _).1 false) hu hpair
  have hskip : skipLineEnd (s ++ r) = some last := by
    rw [skipLineEnd, skipWhitespace_append hs, ← skipLineEnd]
    exact hlast
  obtain ⟨tail, htail, hfits, hclosed⟩ := lineEnd_takes hskip
  refine ⟨.entry head v tail, ⟨hlead, hhead, hv, hfits⟩, ?_, hclosed⟩
  rw [htext, htail]
  simp [Line.text]

/-- The key of a header, with the bracket after it. -/
theorem headerKey_takes {path : List Str} {one : Str} (h : parseKey u = some (path, r))
    (hone : accept rightBracket (skipWhitespace r) = some one) :
    ∃ key, u = key ++ rightBracket :: one ∧ Key path key := by
  have hr : r = rightBracket :: one := by
    rw [← parseKeyFrom_stop h]
    exact accept_some hone (by decide)
  obtain ⟨key, hu, hkey⟩ := key_of_parse h
  exact ⟨key, by rw [hu, hr], hkey⟩

theorem parseHeader_takes {s : Section} {left : Str}
    (h : parseHeader at_ (leftBracket :: u) = some (s, left)) :
    ∃ line : Line, line.Fits ∧ leftBracket :: u = line.text ++ left ∧
      (left ≠ [] → line.Closed) := by
  obtain ⟨⟨path, r⟩, hkey, hrest⟩ := Option.bind_eq_some_iff.1 h
  obtain ⟨one, hone, hrest⟩ := Option.bind_eq_some_iff.1 hrest
  obtain ⟨two, htwo, hrest⟩ := Option.bind_eq_some_iff.1 hrest
  obtain ⟨last, hlast, heq⟩ := Option.map_eq_some_iff.1 hrest
  obtain ⟨-, rfl⟩ := Prod.mk.inj heq
  rw [List.tail_cons] at hkey htwo
  obtain ⟨key, hinner, hheader⟩ := headerKey_takes hkey hone
  obtain ⟨tail, htail, hfits, hclosed⟩ := lineEnd_takes hlast
  by_cases harray : peek u = leftBracket
  · rw [if_pos harray] at hinner
    simp only [harray, if_true] at htwo
    refine ⟨.header true path key tail, ⟨hheader, hfits⟩, ?_, hclosed⟩
    have hu : u = leftBracket :: u.tail := by
      cases u with
      | nil => cases harray
      | cons c u => exact congrArg (· :: u) harray
    rw [hu, hinner, accept_some htwo (by decide), htail]
    simp [Line.text, bracket]
  · rw [if_neg harray] at hinner
    simp only [harray, if_false] at htwo
    obtain rfl := Option.some.inj htwo
    refine ⟨.header false path key tail, ⟨hheader, hfits⟩, ?_, hclosed⟩
    rw [hinner, htail]
    simp [Line.text, bracket]

/-- Blank characters before a document. -/
theorem linesFit_blanks {w : Str} (hw : ∀ c ∈ w, isBlank c = true) {doc : List Line}
    (h : LinesFit doc) :
    LinesFit (w.map Line.blank ++ doc) ∧ textOf (w.map Line.blank ++ doc) = w ++ textOf doc := by
  induction w with
  | nil => exact ⟨h, rfl⟩
  | cons c w ih =>
    obtain ⟨hfit, htext⟩ := ih fun d hd => hw d (List.mem_cons_of_mem c hd)
    refine ⟨⟨hw c List.mem_cons_self, fun _ => trivial, hfit⟩, ?_⟩
    rw [List.map_cons, List.cons_append, text_cons, htext]
    rfl

/-- A document whose text begins with a newline begins with it. -/
theorem newline_first {doc : List Line} (h : LinesFit doc) {t : Str}
    (htext : textOf doc = newline :: t) :
    ∃ rest, doc = .blank newline :: rest ∧ LinesFit rest ∧ textOf rest = t := by
  cases doc with
  | nil => cases htext
  | cons line rest =>
    rw [text_cons] at htext
    cases line with
    | blank c =>
      obtain ⟨rfl, ht⟩ := List.cons.inj htext
      exact ⟨rest, rfl, h.2.2, ht⟩
    | comment text stop => exact absurd (List.cons.inj htext).1 (by decide)
    | header array path key tail =>
      cases array <;> exact absurd (List.cons.inj htext).1 (by decide)
    | entry head value tail =>
      obtain ⟨hlead, hhead, -⟩ := h.1
      obtain ⟨c, k, hkey, hstart⟩ := hhead.cons
      have htext : c :: (k ++ equals :: head.gap ++ (value.text ++ tail) ++ textOf rest) =
          newline :: t := by
        rw [← htext]
        simp [Line.text, Head.text, hlead, hkey]
      have hblank := (startsKey_plain hstart).1
      rw [(List.cons.inj htext).1] at hblank
      cases hblank

theorem line_ne_nil {line : Line} (h : line.Fits) : line.text ≠ [] := by
  cases line with
  | blank c => exact List.cons_ne_nil _ _
  | comment text stop => exact List.cons_ne_nil _ _
  | header array path key tail => cases array <;> exact List.cons_ne_nil _ _
  | entry head value tail =>
    have := h.2.1.length_pos
    refine List.ne_nil_of_length_pos ?_
    rw [Line.text, List.length_append]
    omega

theorem linesFit_nil {doc : List Line} (h : LinesFit doc) (htext : textOf doc = []) : doc = [] := by
  cases doc with
  | nil => rfl
  | cons line rest =>
    rw [text_cons] at htext
    exact absurd (List.append_eq_nil_iff.1 htext).1 (line_ne_nil h.1)

/-- A line in front of a document. -/
theorem linesFit_cons {line : Line} {doc : List Line} (hline : line.Fits) (hdoc : LinesFit doc)
    (hclosed : textOf doc ≠ [] → line.Closed) : LinesFit (line :: doc) :=
  ⟨hline, fun hne => hclosed fun htext => hne (linesFit_nil hdoc htext), hdoc⟩

theorem initFrom_takes {fuel : ℕ} {sections result : List Section} {last : Section}
    (h : initFrom fuel sections last at_ u = some result) :
    ∃ doc, LinesFit doc ∧ textOf doc = u := by
  induction fuel generalizing sections last at_ u with
  | zero => cases h
  | succ fuel ih =>
    obtain ⟨wBlank, huBlank, hblank⟩ := skipBlank_split u
    -- it is enough to find what comes after the blanks
    suffices hdoc : ∃ doc, LinesFit doc ∧ textOf doc = skipBlank u by
      obtain ⟨doc, hfit, htext⟩ := hdoc
      obtain ⟨hfit, hall⟩ := linesFit_blanks hblank hfit
      exact ⟨_, hfit, by rw [hall, htext, ← huBlank]⟩
    rw [initFrom] at h
    split at h
    · rename_i hnil
      exact ⟨[], trivial, hnil.symm⟩
    · rename_i c tail hrest
      have hc : isBlank c = false := head?_dropWhile (u := u) (p := isBlank) (by
        rw [show u.dropWhile isBlank = c :: tail from hrest]
        rfl)
      rw [hrest]
      dsimp only at h
      split_ifs at h with hhash hbracket
      · subst hhash
        obtain ⟨doc, hfit, htext⟩ := ih h
        rw [skipComment_hash] at htext
        have hinside : newline ∉ tail.takeWhile (· ≠ newline) := fun hmem => by
          simpa using List.mem_takeWhile_imp hmem
        cases hleft : tail.dropWhile (· ≠ newline) with
        | nil =>
          refine ⟨[.comment (tail.takeWhile (· ≠ newline)) []],
            ⟨⟨hinside, .inr rfl⟩, fun hne => absurd rfl hne, trivial⟩, ?_⟩
          have hwhole := List.takeWhile_append_dropWhile (p := (· ≠ newline)) (l := tail)
          rw [hleft] at hwhole
          simp only [textOf, Line.text, List.flatMap_cons, List.flatMap_nil, List.append_nil] at *
          rw [hwhole]
        | cons d left =>
          have hd : d = newline := by
            have := head?_dropWhile (u := tail) (p := (· ≠ newline)) (c := d) (by rw [hleft]; rfl)
            simpa using this
          subst hd
          rw [hleft] at htext
          obtain ⟨rest, -, hfitRest, htextRest⟩ := newline_first hfit htext
          refine ⟨.comment (tail.takeWhile (· ≠ newline)) [newline] :: rest,
            ⟨⟨hinside, .inl rfl⟩, fun _ => rfl, hfitRest⟩, ?_⟩
          have hwhole := List.takeWhile_append_dropWhile (p := (· ≠ newline)) (l := tail)
          rw [hleft] at hwhole
          rw [text_cons, htextRest, Line.text, List.cons_append, List.append_assoc,
            List.singleton_append, hwhole]
      · subst hbracket
        obtain ⟨⟨s, left⟩, hheader, hsections⟩ := Option.bind_eq_some_iff.1 h
        obtain ⟨line, hline, htext, hclosed⟩ := parseHeader_takes hheader
        obtain ⟨doc, hfit, hdoc⟩ := ih hsections
        exact ⟨line :: doc, linesFit_cons hline hfit (by rw [hdoc]; exact hclosed),
          by rw [text_cons, hdoc, ← htext]⟩
      · obtain ⟨⟨entry, left⟩, hentry, hsections⟩ := Option.bind_eq_some_iff.1 h
        obtain ⟨line, hline, htext, hclosed⟩ :=
          parseEntry_takes (by rw [peek_cons]; exact hc) hentry
        obtain ⟨doc, hfit, hdoc⟩ := ih hsections
        exact ⟨line :: doc, linesFit_cons hline hfit (by rw [hdoc]; exact hclosed),
          by rw [text_cons, hdoc, ← htext]⟩

/-- A text that is accepted is that of a document. -/
theorem init_document {source : Str} {edit : Edit} (h : init source = some edit) :
    ∃ doc, LinesFit doc ∧ textOf doc = source ∧ edit = ⟨source, sectionsIn doc, []⟩ := by
  obtain ⟨result, hresult, -⟩ := Option.map_eq_some_iff.1 h
  obtain ⟨doc, hfit, rfl⟩ := initFrom_takes hresult
  refine ⟨doc, hfit, rfl, ?_⟩
  rw [init_text hfit] at h
  exact (Option.some.inj h).symm

/-- The texts that the scanner accepts are those of documents, and what it finds is what the
document says. -/
theorem init_iff {source : Str} {edit : Edit} :
    init source = some edit ↔
      ∃ doc, LinesFit doc ∧ textOf doc = source ∧ edit = ⟨source, sectionsIn doc, []⟩ := by
  constructor
  · exact init_document
  · intro h
    obtain ⟨doc, hfit, rfl, rfl⟩ := h
    exact init_text hfit

end Spn.Toml
