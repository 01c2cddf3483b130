import Spn.Toml.Inline

/-! # Documents with one more line

A line is put into a document after another one. What the others say stays, and the new line is
read where nothing was found before. At a place where the editor writes there is room for a line:
the line before it is closed, or is closed first.
-/
namespace Spn.Toml

variable {path q own : List Str} {head : Head} {v : Value} {tail eol u r : Str} {line : Line}
  {A B : List Line} {at_ x : ℕ} {c : UInt8}

/-! ## New lines -/

/-- The path of the section that lines lead to. -/
def ownerIn (own : List Str) : List Line → List Str
  | [] => own
  | .header _ path _ _ :: rest => ownerIn path rest
  | .entry _ _ _ :: rest => ownerIn own rest
  | .blank _ :: rest => ownerIn own rest
  | .comment _ _ :: rest => ownerIn own rest

/-- A section is the same after one more entry when it was the same without. -/
theorem sectionAt_entry {X Y : List Line} (head : Head) (v : Value) (tail : Str)
    (h : sectionAt own q X = sectionAt own q Y) :
    sectionAt own q (.entry head v tail :: X) = sectionAt own q (.entry head v tail :: Y) := by
  rw [sectionAt, sectionAt] at h ⊢
  split_ifs with hin
  · rw [if_pos hin, if_pos hin] at h
    rw [entryAt, entryAt, h]
  · rfl

/-- What is on the new line is not seen by a path that is not for it. -/
theorem insert_missed (h : ownerIn own A <+: q → (ownerIn own A).length ≠ q.length →
      v.under head.path (q.drop (ownerIn own A).length) = none) :
    sectionsAt q (A ++ .entry head v tail :: B) = sectionsAt q (A ++ B) ∧
      sectionAt own q (A ++ .entry head v tail :: B) = sectionAt own q (A ++ B) := by
  induction A generalizing own with
  | nil =>
    refine ⟨rfl, ?_⟩
    rw [List.nil_append, List.nil_append, sectionAt, sectionAt]
    split_ifs with hin
    · rw [entryAt]
      exact (congrArg (Option.or · _) (h hin.1 hin.2)).trans Option.none_or
    · rfl
  | cons line A ih =>
    cases line with
    | blank c => exact ih h
    | comment text stop => exact ih h
    | header array inner key stop =>
      obtain ⟨hsections, hsection⟩ := @ih inner h
      refine ⟨?_, rfl⟩
      rw [List.cons_append, List.cons_append, sectionsAt, sectionsAt, hsections, hsection]
    | entry other w stop =>
      obtain ⟨hsections, hsection⟩ := ih h
      exact ⟨hsections, sectionAt_entry other w stop hsection⟩

/-- What is on the new line is found at its path, when nothing was found there before. -/
theorem insert_found (hsections : sectionsAt path (A ++ B) = none)
    (hsection : sectionAt own path (A ++ B) = none) (hunder : ownerIn own A <+: path)
    (hlength : (ownerIn own A).length ≠ path.length)
    (hhead : head.path = path.drop (ownerIn own A).length) :
    (sectionsAt path (A ++ .entry head v tail :: B)).or
      (sectionAt own path (A ++ .entry head v tail :: B)) = some v := by
  induction A generalizing own with
  | nil =>
    have hnone : sectionsAt path (Line.entry head v tail :: B) = none := hsections
    rw [List.nil_append, hnone, Option.none_or, sectionAt, if_pos ⟨hunder, hlength⟩, entryAt,
      hhead]
    exact (congrArg (Option.or · _) v.under_self).trans Option.some_or
  | cons line A ih =>
    cases line with
    | blank c => exact ih hsections hsection hunder hlength hhead
    | comment text stop => exact ih hsections hsection hunder hlength hhead
    | header array inner key stop =>
      obtain ⟨hinner, hown⟩ := Option.or_eq_none_iff.1 hsections
      have hfound := @ih inner hinner hown hunder hlength hhead
      have hlast : sectionAt own path (Line.header array inner key stop ::
          (A ++ .entry head v tail :: B)) = none := by
        rw [sectionAt]
        split_ifs <;> rfl
      rw [List.cons_append, hlast, Option.or_none, sectionsAt, hfound]
    | entry other w stop =>
      have hrest : sectionAt own path (A ++ B) = none := by
        rw [List.cons_append, sectionAt] at hsection
        rw [sectionAt]
        split_ifs with hin
        · rw [if_pos hin, entryAt] at hsection
          exact (Option.or_eq_none_iff.1 hsection).2
        · rfl
      have hfound := ih hsections hrest hunder hlength hhead
      have hsame : sectionAt own path (Line.entry other w stop ::
          (A ++ .entry head v tail :: B)) = sectionAt own path (A ++ .entry head v tail :: B) := by
        rw [sectionAt, sectionAt]
        rw [List.cons_append, sectionAt] at hsection
        split_ifs with hin
        · rw [if_pos hin, entryAt] at hsection
          rw [entryAt, (Option.or_eq_none_iff.1 hsection).1, Option.none_or]
        · rfl
      rw [List.cons_append, hsame]
      exact hfound

/-! ## Lines that are closed -/

/-- The line with a line end after it. -/
def Line.close (eol : Str) : Line → Line
  | .blank c => .blank c
  | .comment text stop => .comment text stop
  | .header array path key tail => .header array path key (tail ++ eol)
  | .entry head value tail => .entry head value (tail ++ eol)

/-- Lines that say the same, after others. -/
theorem append_same {L L' : List Line}
    (h : ∀ own, sectionsAt q L = sectionsAt q L' ∧ sectionAt own q L = sectionAt own q L')
    (A : List Line) (own : List Str) :
    sectionsAt q (A ++ L) = sectionsAt q (A ++ L') ∧
      sectionAt own q (A ++ L) = sectionAt own q (A ++ L') := by
  induction A generalizing own with
  | nil => exact h own
  | cons other A ih =>
    cases other with
    | blank c => exact ih own
    | comment text stop => exact ih own
    | header array inner key stop =>
      refine ⟨?_, rfl⟩
      rw [List.cons_append, List.cons_append, sectionsAt, sectionsAt, (ih inner).1, (ih inner).2]
    | entry other w stop => exact ⟨(ih own).1, sectionAt_entry other w stop (ih own).2⟩

theorem close_same (line : Line) (eol : Str) (q own : List Str) :
    sectionsAt q (A ++ line.close eol :: B) = sectionsAt q (A ++ line :: B) ∧
      sectionAt own q (A ++ line.close eol :: B) = sectionAt own q (A ++ line :: B) := by
  refine append_same (fun own => ?_) A own
  cases line <;> exact ⟨rfl, rfl⟩

theorem ownerIn_append (own : List Str) (A B : List Line) :
    ownerIn own (A ++ B) = ownerIn (ownerIn own A) B := by
  induction A generalizing own with
  | nil => rfl
  | cons line A ih => cases line <;> exact ih _

/-! ## The last character of a value -/

theorem Inside.last {mark : UInt8} {multiline : Bool} (h : Inside mark multiline u) :
    [mark] <:+ u := by
  induction h with
  | close => exact List.suffix_rfl
  | @closes n hfew =>
    obtain ⟨n, rfl⟩ := Nat.exists_eq_add_of_le' (Nat.le_trans (by omega : 1 ≤ 3) hfew)
    rw [List.replicate_succ']
    exact List.suffix_append _ _
  | plain _ _ _ _ ih => exact ih.trans (List.suffix_cons _ _)
  | escape _ _ _ ih => exact ih.trans ((List.suffix_append _ _).trans (List.suffix_cons _ _))
  | marks _ _ _ _ ih => exact ih.trans (List.suffix_append _ _)

/-- A string ends with its mark. -/
theorem StringText.last {mark : UInt8} (h : StringText mark u) : [mark] <:+ u := by
  cases h with
  | line hrest => exact hrest.last.trans (List.suffix_cons _ _)
  | lines hrest => exact hrest.last.trans (List.suffix_append [mark, mark, mark] _)

theorem getLast_of_suffix (h : [c] <:+ u) : u.getLast? = some c := by
  obtain ⟨w, rfl⟩ := h
  exact List.getLast?_concat

theorem Pairs.last (p : Pairs) : [rightBrace] <:+ p.text := by
  cases p with
  | one head value trail =>
    exact ⟨head.text ++ (value.text ++ trail), by simp [Pairs.text]⟩
  | more head value trail rest =>
    refine rest.last.trans ⟨head.text ++ (value.text ++ (trail ++ [comma])), ?_⟩
    simp [Pairs.text]

theorem Value.Fits.last {v : Value} {nested : Bool} (h : v.Fits nested) :
    ∃ c, [c] <:+ v.text ∧ c ≠ newline := by
  match v with
  | .leaf kind text =>
    cases h with
    | scalar hstart hinside hlast =>
      rename_i d t
      refine ⟨(d :: t).getLast (List.cons_ne_nil d t),
        ⟨(d :: t).dropLast, List.dropLast_append_getLast _⟩, fun hnewline => ?_⟩
      have hends := hinside _ (List.getLast_mem (List.cons_ne_nil d t))
      rw [hnewline] at hends
      cases nested <;> cases hends
    | string hmark htext => exact ⟨_, htext.last, hmark.ne_newline⟩
    | array => exact ⟨rightBracket, List.suffix_append (leftBracket :: _) _, by decide⟩
  | .empty gap => exact ⟨rightBrace, ⟨leftBrace :: gap, rfl⟩, by decide⟩
  | .table pairs => exact ⟨rightBrace, pairs.last.trans (List.suffix_cons _ _), by decide⟩

/-! ## Where lines end -/

/-- A line that has a line end of its own to write. -/
def Line.Opens : Line → Prop
  | .blank _ => False
  | .comment _ _ => False
  | .header _ _ _ _ => True
  | .entry _ _ _ => True

/-- A document cut after a line, at a place and in a section. -/
def Cut (doc : List Line) (own : List Str) (at_ : ℕ) (path : List Str) (x : ℕ) : Prop :=
  ∃ A line B, doc = A ++ line :: B ∧ line.Opens ∧ x = at_ + (textOf (A ++ [line])).length ∧
    ownerIn own (A ++ [line]) = path

theorem Cut.cons {doc : List Line} {own path : List Str} (line : Line)
    (h : Cut doc (ownerIn own [line]) (at_ + line.text.length) path x) :
    Cut (line :: doc) own at_ path x := by
  obtain ⟨A, last, B, rfl, hopens, rfl, howner⟩ := h
  refine ⟨line :: A, last, B, rfl, hopens, ?_, ?_⟩
  · rw [List.cons_append, text_cons, List.length_append, Nat.add_assoc]
  · rw [← howner, ← ownerIn_append]
    rfl

theorem Cut.here (line : Line) (doc : List Line) (own : List Str) (at_ : ℕ) (h : line.Opens) :
    Cut (line :: doc) own at_ (ownerIn own [line]) (at_ + line.text.length) :=
  ⟨[], line, doc, rfl, h, by simp [textOf], rfl⟩

theorem entriesOf_cut {doc : List Line} (own : List Str) {entry : Entry}
    (h : entry ∈ entriesOf at_ doc) : Cut doc own at_ own entry.lineEnd := by
  induction doc generalizing at_ with
  | nil => cases h
  | cons line rest ih =>
    cases line with
    | blank c => exact (ih h).cons (.blank c)
    | comment text stop => exact (ih h).cons (.comment text stop)
    | header array path key tail => cases h
    | entry head value tail =>
      rcases List.mem_cons.1 h with rfl | hrest
      · exact .here (.entry head value tail) rest own at_ trivial
      · exact (ih hrest).cons (.entry head value tail)

/-- Where an entry or the content of a section ends a line. -/
theorem sectionsOf_cut {doc : List Line} (own : List Str) {s : Section}
    (h : s ∈ sectionsOf at_ doc) :
    Cut doc own at_ s.path s.content ∧
      ∀ entry ∈ s.entries, Cut doc own at_ s.path entry.lineEnd := by
  induction doc generalizing at_ own with
  | nil => cases h
  | cons line rest ih =>
    cases line with
    | blank c =>
      obtain ⟨hcontent, hentries⟩ := ih own h
      exact ⟨hcontent.cons (.blank c), fun e he => (hentries e he).cons (.blank c)⟩
    | comment text stop =>
      obtain ⟨hcontent, hentries⟩ := ih own h
      exact ⟨hcontent.cons (.comment text stop),
        fun e he => (hentries e he).cons (.comment text stop)⟩
    | entry head value tail =>
      obtain ⟨hcontent, hentries⟩ := ih own h
      exact ⟨hcontent.cons (.entry head value tail),
        fun e he => (hentries e he).cons (.entry head value tail)⟩
    | header array path key tail =>
      rcases List.mem_cons.1 h with rfl | hrest
      · exact ⟨.here (.header array path key tail) rest own at_ trivial,
          fun e he => (entriesOf_cut path he).cons (.header array path key tail)⟩
      · obtain ⟨hcontent, hentries⟩ := ih path hrest
        exact ⟨hcontent.cons (.header array path key tail),
          fun e he => (hentries e he).cons (.header array path key tail)⟩

/-! ## Room for a line -/

theorem getLast_append_tail {u tail : Str} {c : UInt8} (h : tail.getLast? = some c) :
    (u ++ tail).getLast? = some c := by
  rw [List.getLast?_append, h, Option.some_or]

theorem Line.last_closed (hopens : line.Opens) (h : line.Closed) :
    line.text.getLast? = some newline := by
  cases line with
  | blank c => cases hopens
  | comment text stop => cases hopens
  | header array path key tail =>
    exact getLast_append_tail (getLast_append_tail (getLast_append_tail h.newline))
  | entry head value tail => exact getLast_append_tail (getLast_append_tail h.newline)

/-- The last character of an open line, its tail being no line end. -/
theorem tail_last {u tail : Str} {c : UInt8} (hu : u.getLast? = some c) (hc : c ≠ newline)
    (htail : tail.getLast? ≠ some newline) :
    ∃ d, (u ++ tail).getLast? = some d ∧ d ≠ newline := by
  cases hlast : tail.getLast? with
  | none =>
    rw [List.getLast?_eq_none_iff] at hlast
    rw [hlast, List.append_nil]
    exact ⟨c, hu, hc⟩
  | some d =>
    refine ⟨d, getLast_append_tail hlast, ?_⟩
    rintro rfl
    exact htail hlast

theorem Line.last_open (hfits : line.Fits) (hopens : line.Opens) (h : ¬ line.Closed) :
    ∃ c, line.text.getLast? = some c ∧ c ≠ newline := by
  cases line with
  | blank c => cases hopens
  | comment text stop => cases hopens
  | header array path key tail =>
    have htail := hfits.2.resolve_left h
    have hbracket : (bracket array leftBracket ++ (key ++ bracket array rightBracket)).getLast? =
        some rightBracket := by
      refine getLast_append_tail (getLast_append_tail ?_)
      cases array <;> rfl
    have hlast := tail_last hbracket (by decide) htail.newline
    rwa [List.append_assoc, List.append_assoc] at hlast
  | entry head value tail =>
    have htail := hfits.2.2.2.resolve_left h
    obtain ⟨c, hsuffix, hc⟩ := hfits.2.2.1.last
    have hlast := tail_last (u := head.text ++ value.text)
      (getLast_append_tail (getLast_of_suffix hsuffix)) hc htail.newline
    rwa [List.append_assoc] at hlast

theorem Line.close_fits (hfits : line.Fits) (hopens : line.Opens) (h : ¬ line.Closed)
    (heol : IsEol eol) :
    (line.close eol).Fits ∧ (line.close eol).Closed ∧
      (line.close eol).text = line.text ++ eol := by
  cases line with
  | blank c => cases hopens
  | comment text stop => cases hopens
  | header array path key tail =>
    have hclosed := (hfits.2.resolve_left h).close heol
    exact ⟨⟨hfits.1, .inl hclosed⟩, hclosed, by simp [Line.close, Line.text]⟩
  | entry head value tail =>
    have hclosed := (hfits.2.2.2.resolve_left h).close heol
    exact ⟨⟨hfits.1, hfits.2.1, hfits.2.2.1, .inl hclosed⟩, hclosed,
      by simp [Line.close, Line.text]⟩

theorem linesFit_mid (h : LinesFit (A ++ line :: B)) : line.Fits := by
  induction A with
  | nil => exact h.1
  | cons other A ih => exact ih h.2.2

theorem linesFit_insert {line' new : Line} (h : LinesFit (A ++ line :: B)) (hfits : line'.Fits)
    (hclosed : line'.Closed) (hnew : new.Fits) (hend : new.Closed) :
    LinesFit (A ++ line' :: new :: B) := by
  induction A with
  | nil => exact ⟨hfits, fun _ => hclosed, hnew, fun _ => hend, h.2.2⟩
  | cons other A ih => exact ⟨h.1, fun _ => h.2.1 (by simp), ih h.2.2⟩

theorem textOf_append (A B : List Line) : textOf (A ++ B) = textOf A ++ textOf B :=
  List.flatMap_append

theorem textOf_singleton (line : Line) : textOf [line] = line.text := List.append_nil line.text

/-- What is written before a line at a place. -/
def before (source eol : Str) (start : ℕ) : Str :=
  if 0 < start ∧ (source[start - 1]?).getD 0 ≠ newline then eol else []

/-- A document with room for a line at a place of its text, in the section of the place. -/
structure Room (doc : List Line) (own : List Str) (start : ℕ) (eol : Str) (A B : List Line) :
    Prop where
  owner : ownerIn [] A = own
  sections : ∀ q, sectionsAt q (A ++ B) = sectionsAt q doc
  section_ : ∀ q, sectionAt [] q (A ++ B) = sectionAt [] q doc
  fits : ∀ new : Line, new.Fits → new.Closed → LinesFit (A ++ new :: B)
  front : textOf A = (textOf doc).take start ++ before (textOf doc) eol start
  back : textOf B = (textOf doc).drop start

theorem room_start {doc : List Line} (h : LinesFit doc) (eol : Str) : Room doc [] 0 eol [] doc where
  owner := rfl
  sections _ := rfl
  section_ _ := rfl
  fits _ hnew hend := ⟨hnew, fun _ => hend, h⟩
  front := by simp [textOf, before]
  back := rfl

theorem room_cut {doc : List Line} {own : List Str} {start : ℕ} (h : LinesFit doc)
    (hcut : Cut doc [] 0 own start) (heol : IsEol eol) :
    ∃ A B, Room doc own start eol A B := by
  obtain ⟨A, line, B, rfl, hopens, hstart, howner⟩ := hcut
  have hfits := linesFit_mid h
  have hdoc : textOf (A ++ line :: B) = textOf (A ++ [line]) ++ textOf B := by
    rw [← textOf_append, List.append_assoc]
    rfl
  rw [Nat.zero_add] at hstart
  have htake : (textOf (A ++ line :: B)).take start = textOf (A ++ [line]) := by
    rw [hdoc, hstart, List.take_left]
  have hdrop : textOf B = (textOf (A ++ line :: B)).drop start := by
    rw [hdoc, hstart, List.drop_left]
  have hone : textOf (A ++ [line]) = textOf A ++ line.text := by
    rw [textOf_append, textOf_singleton]
  have hlast : ∀ c, line.text.getLast? = some c →
      0 < start ∧ ((textOf (A ++ line :: B))[start - 1]?).getD 0 = c := by
    intro c hc
    have hend : (textOf (A ++ [line])).getLast? = some c := by
      rw [hone]
      exact getLast_append_tail hc
    have hne : textOf (A ++ [line]) ≠ [] := by
      intro hnil
      rw [hnil] at hend
      cases hend
    have hpos := List.length_pos_of_ne_nil hne
    refine ⟨by omega, ?_⟩
    rw [hdoc, List.getElem?_append_left (by omega), hstart, ← List.getLast?_eq_getElem?, hend]
    rfl
  by_cases hclosed : line.Closed
  · obtain ⟨-, hnewline⟩ := hlast newline (line.last_closed hopens hclosed)
    refine ⟨A ++ [line], B, howner, fun q => ?_, fun q => ?_, fun new hnew hend => ?_, ?_, hdrop⟩
    · rw [List.append_assoc, List.singleton_append]
    · rw [List.append_assoc, List.singleton_append]
    · rw [List.append_assoc, List.singleton_append]
      exact linesFit_insert h hfits hclosed hnew hend
    · rw [htake, before, if_neg fun hif => hif.2 hnewline, List.append_nil]
  · obtain ⟨c, hc, hne⟩ := Line.last_open hfits hopens hclosed
    obtain ⟨hpos, hget⟩ := hlast c hc
    obtain ⟨hfits', hclosed', htext⟩ := Line.close_fits hfits hopens hclosed heol
    refine ⟨A ++ [line.close eol], B, ?_, fun q => ?_, fun q => ?_, fun new hnew hend => ?_, ?_,
      hdrop⟩
    · rw [← howner, ownerIn_append, ownerIn_append]
      cases line <;> rfl
    · rw [List.append_assoc, List.singleton_append]
      exact (close_same line eol q []).1
    · rw [List.append_assoc, List.singleton_append]
      exact (close_same line eol q []).2
    · rw [List.append_assoc, List.singleton_append]
      exact linesFit_insert h hfits' hclosed' hnew hend
    · rw [htake, before, if_pos ⟨hpos, by rw [hget]; exact hne⟩, hone, textOf_append,
        textOf_singleton, htext, List.append_assoc]

end Spn.Toml
