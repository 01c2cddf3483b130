import Spn.Toml.Line

/-! # A key that was set is read back

A key that no section of a text is the place for is set in a section of its own at the end. This is
the last of the ways in which a key is set, and in all of them it is read back.
-/
namespace Spn.Toml

variable {path q own : List Str} {eol : Str} {A B doc : List Line} {line : Line}

/-! ## The end of a text -/

/-- A document to which other lines can be added at the end, and that says the same as another. -/
structure Closes (doc D : List Line) (added : Str) : Prop where
  text : textOf D = textOf doc ++ added
  fits : ∀ X, LinesFit X → LinesFit (D ++ X)
  same : ∀ q own, sectionsAt q D = sectionsAt q doc ∧ sectionAt own q D = sectionAt own q doc

theorem linesFit_append {L X : List Line} (h : LinesFit (A ++ [line]))
    (hL : ∀ X, LinesFit X → LinesFit (L ++ X)) (hX : LinesFit X) : LinesFit (A ++ L ++ X) := by
  induction A with
  | nil => exact hL X hX
  | cons other A ih => exact ⟨h.1, fun _ => h.2.1 (by simp), ih h.2.2⟩

theorem blanks_same (w : Str) (q own : List Str) :
    sectionsAt q (w.map Line.blank) = none ∧ sectionAt own q (w.map Line.blank) = none := by
  induction w with
  | nil => exact ⟨rfl, by rw [sectionAt]; split_ifs <;> rfl⟩
  | cons c w ih => exact ih

theorem textOf_blanks (w : Str) : textOf (w.map Line.blank) = w := by
  induction w with
  | nil => rfl
  | cons c w ih => rw [List.map_cons, text_cons, ih]; rfl

theorem eol_blank (heol : IsEol eol) :
    ∀ c ∈ eol, isBlank c = true := by
  intro c hc
  have hcases : c = newline ∨ c = carriageReturn := by
    rcases heol with rfl | rfl
    · exact .inl (List.mem_singleton.1 hc)
    · exact (List.mem_cons.1 hc).symm.imp List.mem_singleton.1 id
  rcases hcases with rfl | rfl <;> rfl

/-- Blank characters after a document. -/
theorem Closes.blanks {D : List Line} {added w : Str} (h : Closes doc D added)
    (hw : ∀ c ∈ w, isBlank c = true) : Closes doc (D ++ w.map Line.blank) (added ++ w) where
  text := by rw [textOf_append, textOf_blanks, h.text, List.append_assoc]
  fits X hX := by
    rw [List.append_assoc]
    exact h.fits _ (linesFit_blanks hw hX).1
  same q own := by
    have hnil : ∀ own, sectionAt own q [] = none := fun own => by
      rw [sectionAt]
      split_ifs <;> rfl
    have hsame : sectionsAt q (D ++ w.map Line.blank) = sectionsAt q (D ++ []) ∧
        sectionAt own q (D ++ w.map Line.blank) = sectionAt own q (D ++ []) :=
      append_same (fun own => ⟨(blanks_same w q own).1,
        (blanks_same w q own).2.trans (hnil own).symm⟩) D own
    rw [List.append_nil] at hsame
    exact ⟨hsame.1.trans (h.same q own).1, hsame.2.trans (h.same q own).2⟩

theorem closes_last {L : List Line} {added : Str} (h : LinesFit (A ++ [line]))
    (hL : ∀ X, LinesFit X → LinesFit (L ++ X))
    (htext : textOf L = line.text ++ added)
    (hsame : ∀ q own, sectionsAt q L = sectionsAt q [line] ∧
      sectionAt own q L = sectionAt own q [line]) :
    Closes (A ++ [line]) (A ++ L) added where
  text := by rw [textOf_append, textOf_append, htext, textOf_singleton, List.append_assoc]
  fits X hX := linesFit_append h hL hX
  same q own := append_same (hsame q) A own

theorem fits_one (hfits : line.Fits) (hclosed : line.Closed) (X : List Line) (hX : LinesFit X) :
    LinesFit ([line] ++ X) := ⟨hfits, fun _ => hclosed, hX⟩

/-- The last line of a text that ends in a newline is closed. -/
theorem closes_ended (h : LinesFit (A ++ [line])) (hlast : line.text.getLast? = some newline) :
    Closes (A ++ [line]) (A ++ [line]) [] := by
  have hfits := linesFit_mid h
  have hclosed : line.Closed := by
    by_contra hopen
    have hcases : line.Opens ∨ ¬ line.Opens := Classical.em _
    rcases hcases with hopens | hcomment
    · obtain ⟨c, hc, hne⟩ := Line.last_open hfits hopens hopen
      rw [hc] at hlast
      exact hne (Option.some.inj hlast)
    · cases line with
      | blank c => exact hopen trivial
      | comment text stop =>
        obtain rfl : stop = [] := hfits.2.resolve_left hopen
        rw [Line.text, List.append_nil] at hlast
        rcases List.mem_cons.1 (List.mem_of_getLast? hlast) with heq | hmem
        · cases heq
        · exact hfits.1 hmem
      | header array path key tail => exact hcomment trivial
      | entry head value tail => exact hcomment trivial
  exact closes_last h (fits_one hfits hclosed)
    (by rw [textOf_singleton, List.append_nil]) fun _ _ => ⟨rfl, rfl⟩

/-- A line end after a text that has none at its end. -/
theorem closes_unended (h : LinesFit (A ++ [line])) (hlast : line.text.getLast? ≠ some newline)
    (heol : IsEol eol) :
    ∃ D, Closes (A ++ [line]) D eol := by
  have hfits := linesFit_mid h
  have hopen : ∀ hopens : line.Opens, ∃ D, Closes (A ++ [line]) D eol := by
    intro hopens
    have hclosed : ¬ line.Closed := fun hclosed => hlast (line.last_closed hopens hclosed)
    obtain ⟨hfits', hclosed', htext⟩ := Line.close_fits hfits hopens hclosed heol
    refine ⟨_, closes_last h (fits_one hfits' hclosed')
      (by rw [textOf_singleton, htext]) fun q own => ?_⟩
    cases line <;> exact ⟨rfl, rfl⟩
  cases line with
  | blank c =>
    have hself := closes_last h (fits_one hfits trivial)
      (show textOf [.blank c] = (Line.blank c).text ++ [] from rfl) fun _ _ => ⟨rfl, rfl⟩
    exact ⟨_, hself.blanks (eol_blank heol)⟩
  | comment text stop =>
    obtain rfl : stop = [] := by
      refine hfits.2.resolve_left fun hstop => hlast ?_
      rw [hstop]
      exact getLast_append_tail (u := hash :: text) rfl
    have hcomment : ∀ w, newline ∉ text ++ w →
        Closes (A ++ [.comment text []]) (A ++ [.comment (text ++ w) [newline]])
          (w ++ [newline]) := fun w hw =>
      closes_last h (fits_one ⟨hw, .inl rfl⟩ rfl)
        (by simp [textOf_singleton, Line.text]) fun _ _ => ⟨rfl, rfl⟩
    rcases heol with rfl | rfl
    · exact ⟨_, hcomment [] (by rw [List.append_nil]; exact hfits.1)⟩
    · refine ⟨_, hcomment [carriageReturn] fun hmem => ?_⟩
      rcases List.mem_append.1 hmem with htext | hreturn
      · exact hfits.1 htext
      · cases List.mem_singleton.1 hreturn
  | header array path key tail => exact hopen trivial
  | entry head value tail => exact hopen trivial

/-- What the editor writes before a section at the end closes the text. -/
theorem closes_separator (h : LinesFit doc) :
    ∃ D, Closes doc D (editOf doc).separator := by
  have heol := Edit.eol_cases (editOf doc)
  generalize heq : (editOf doc).eol = eol at heol
  have hsource : (editOf doc).source = textOf doc := rfl
  rw [Edit.separator, heq, hsource]
  dsimp only
  rcases List.eq_nil_or_concat doc with rfl | ⟨A, line, hdoc⟩
  · exact ⟨[], rfl, fun X hX => hX, fun _ _ => ⟨rfl, rfl⟩⟩
  · obtain rfl : doc = A ++ [line] := by rw [hdoc, List.concat_eq_append]
    have htext : textOf (A ++ [line]) = textOf A ++ line.text := by
      rw [textOf_append, textOf_singleton]
    have hne : line.text ≠ [] := line_ne_nil (linesFit_mid h)
    have hlast : (textOf (A ++ [line])).getLast? = line.text.getLast? := by
      rw [htext, List.getLast?_append_of_ne_nil _ hne]
    have hfull : textOf (A ++ [line]) ≠ [] := by
      rw [htext]
      exact List.append_ne_nil_of_right_ne_nil _ hne
    rw [if_neg hfull, hlast]
    by_cases hended : line.text.getLast? = some newline
    · rw [if_neg (not_not.2 hended)]
      have hcloses := closes_ended h hended
      have hblank : ∀ (p : Prop) [Decidable p],
          ∃ D, Closes (A ++ [line]) D (if p then eol else []) := by
        intro p _
        split_ifs
        · exact ⟨_, hcloses.blanks (eol_blank heol)⟩
        · exact ⟨_, hcloses⟩
      exact hblank _
    · rw [if_pos hended]
      obtain ⟨D, hD⟩ := closes_unended h hended heol
      exact ⟨_, hD.blanks (eol_blank heol)⟩

/-! ## A section at the end -/

/-- What a document has with a section at the end. -/
theorem append_section (array : Bool) (path : List Str) (key stop : Str) (A B : List Line)
    (own q : List Str) :
    sectionsAt q (A ++ .header array path key stop :: B) =
        (sectionsAt q (.header array path key stop :: B)).or (sectionsAt q A) ∧
      sectionAt own q (A ++ .header array path key stop :: B) = sectionAt own q A := by
  induction A generalizing own with
  | nil => exact ⟨Option.or_none.symm, rfl⟩
  | cons other A ih =>
    cases other with
    | blank c => exact ih own
    | comment text stop => exact ih own
    | header array inner key stop =>
      refine ⟨?_, rfl⟩
      rw [List.cons_append, sectionsAt, (ih inner).1, (ih inner).2, Option.or_assoc, ← sectionsAt]
    | entry other w stop => exact ⟨(ih own).1, sectionAt_entry other w stop (ih own).2⟩

/-- The header that is written. -/
def writtenHeader (path : List Str) (eol : Str) : Line := .header false path (keyPathText path) eol

theorem writtenHeader_fits (heol : IsEol eol)
    (hpath : path ≠ []) (hkeys : ∀ key ∈ path, newline ∉ key) :
    (writtenHeader path eol).Fits := by
  have hkey := key_keyPathText hpath hkeys space_nil
  rw [List.append_nil] at hkey
  exact ⟨hkey, .inl heol.ended⟩

theorem foldl_site_none (parent : List Str) (sections : List Section) (found : Option Site)
    (h : sections.foldl (fun found s =>
      match s.site parent, found with
      | none, found => found
      | some site, none => some site
      | some site, some best => if site.matched < best.matched then some best else some site)
      found = none) : found = none ∧ ∀ s ∈ sections, s.site parent = none := by
  induction sections generalizing found with
  | nil => exact ⟨h, fun _ hs => absurd hs List.not_mem_nil⟩
  | cons s rest ih =>
    obtain ⟨hfirst, hrest⟩ := ih _ h
    cases hs : s.site parent with
    | none =>
      simp only [hs] at hfirst
      exact ⟨hfirst, fun t ht => (List.mem_cons.1 ht).elim (fun heq => heq ▸ hs) (hrest t)⟩
    | some other =>
      cases found with
      | none => simp only [hs] at hfirst; cases hfirst
      | some best =>
        simp only [hs] at hfirst
        split_ifs at hfirst

/-- A document with a section of one entry at its end. -/
theorem section_values {D : List Line} {added value : Str} (h : Closes doc D added)
    (hpath : path ≠ []) :
    valueAt path (D ++ [writtenHeader path.dropLast eol,
        writtenEntry (path.drop path.dropLast.length) value eol]) =
        some (.leaf .string (quoted value)) ∧
      ∀ q, Apart q path → valueAt q (D ++ [writtenHeader path.dropLast eol,
        writtenEntry (path.drop path.dropLast.length) value eol]) = valueAt q doc := by
  have hpos := List.length_pos_of_ne_nil hpath
  have hall : ∀ q, valueAt q (D ++ [writtenHeader path.dropLast eol,
      writtenEntry (path.drop path.dropLast.length) value eol]) =
      (sectionAt path.dropLast q [writtenEntry (path.drop path.dropLast.length) value eol]).or
        (valueAt q doc) := by
    intro q
    have happend := append_section false path.dropLast (keyPathText path.dropLast) eol D
      [writtenEntry (path.drop path.dropLast.length) value eol] [] q
    rw [valueAt, writtenHeader, happend.1, happend.2, (h.same q []).1, (h.same q []).2,
      Option.or_assoc, ← valueAt]
    rfl
  refine ⟨?_, fun q hq => ?_⟩
  · rw [hall, sectionAt, if_pos ⟨List.dropLast_prefix path, by rw [List.length_dropLast]; omega⟩,
      writtenEntry, entryAt, writtenHead, Value.under_self, Option.some_or, Option.some_or]
  · rw [hall, sectionAt]
    split_ifs with hin
    · have hmissed := Value.under_missed (.leaf .string (quoted value))
        (hq.drop hin.1 (List.dropLast_prefix path)).2
      rw [writtenEntry, entryAt, writtenHead, hmissed]
      rfl
    · exact Option.none_or

/-- A key of an accepted text that is not found, and that no table in braces and no section is the
place for, is set in a section of its own at the end, unless the section is an array of tables: the
rendered text is accepted again, the key has the value, and what every path finds that is apart from
the key's is as it was. -/
theorem set_section {source : Str} {edit : Edit} (h : init source = some edit) (hpath : path ≠ [])
    (hfind : edit.find path = none) (hcontainer : edit.container path (path.length - 1) = none)
    (hsite : edit.findSite path.dropLast = none)
    (harray : (edit.sections.any fun s => s.array && s.path = path.dropLast) = false)
    (hkeys : ∀ key ∈ path, newline ∉ key) (value : Str) :
    ∃ edited again text, edit.setStr path value = some edited ∧ edited.render = some text ∧
      init text = some again ∧
      (∃ found, again.find path = some found ∧ found.kind = .string ∧
        again.entryStr found = value) ∧
      ∀ q, Apart q path → again.look q = edit.look q := by
  obtain ⟨doc, hfits, rfl, rfl⟩ := init_document h
  have heol := Edit.eol_cases (editOf doc)
  obtain ⟨D, hD⟩ := closes_separator hfits
  have hparent : path.dropLast ≠ [] := by
    intro hnil
    have hroot := (foldl_site_none _ _ _ hsite).2 _ List.mem_cons_self
    rw [hnil] at hroot
    cases hroot
  have hlast : path.drop path.dropLast.length = [path.getLast hpath] := by
    rw [List.length_dropLast, List.drop_length_sub_one hpath]
  have habsent := valueAt_none hfind
  obtain ⟨hvalue, hapart⟩ := @section_values path (editOf doc).eol doc D _ value hD hpath
  have hentry : (writtenEntry (path.drop path.dropLast.length) value (editOf doc).eol).Fits :=
    writtenEntry_fits heol (by rw [hlast]; exact List.cons_ne_nil _ _)
      (fun key hkey => hkeys key (List.mem_of_mem_drop hkey)) value
  have hnew := hD.fits [writtenHeader path.dropLast (editOf doc).eol, _]
    ⟨writtenHeader_fits heol hparent fun key hkey => hkeys key (List.mem_of_mem_dropLast hkey),
      fun _ => heol.ended, hentry, fun _ => heol.ended, trivial⟩
  have hrender := render_one (textOf doc) (sectionsIn doc) (textOf doc).length (textOf doc).length
    ((editOf doc).separator ++ textOf [writtenHeader path.dropLast (editOf doc).eol,
      writtenEntry (path.drop path.dropLast.length) value (editOf doc).eol]) le_rfl
  rw [Nat.sub_self, List.take_length, List.drop_length, List.append_nil, ← List.append_assoc,
    ← hD.text, ← textOf_append] at hrender
  refine ⟨_, editOf _, _, ?_, hrender, init_text hnew, find_quoted hnew hvalue, fun q hq => ?_⟩
  · rw [Edit.setStr, if_neg hpath, hfind]
    simp only [hcontainer, hsite]
    have hkey : keyText (path.getLastD []) = keyPathText [path.getLast hpath] := by
      rw [List.getLastD_eq_getLast?, List.getLast?_eq_some_getLast hpath]
      rfl
    rw [Edit.setSection, harray, if_neg Bool.false_ne_true, splice_first rfl, text_cons,
      textOf_singleton, writtenEntry_text, hlast, writtenLine, hkey]
    simp only [writtenHeader, Line.text, bracket, Bool.false_eq_true, if_false, List.append_assoc,
      List.cons_append, List.nil_append]
    rfl
  · rw [look_editOf, hapart q hq, ← look_editOf]
    rfl

/-! ## All of the ways -/

/-- What is never set in a text: no key at all, a key in a value that is no table in braces, and a
key of a section that would be one more of an array of tables. -/
inductive Edit.Refuses (edit : Edit) (path : List Str) : Prop
  | empty (path_nil : path = [])
  | value {len : ℕ} {entry : Entry} (find : edit.find path = none)
      (container : edit.container path (path.length - 1) = some (len, entry))
      (kind : entry.kind ≠ .table)
  | array (find : edit.find path = none)
      (container : edit.container path (path.length - 1) = none)
      (site : edit.findSite path.dropLast = none)
      (sections : (edit.sections.any fun s => s.array && s.path = path.dropLast) = true)

theorem Edit.Refuses.setStr {edit : Edit} (h : edit.Refuses path) (value : Str) :
    edit.setStr path value = none := by
  cases h with
  | empty hnil => exact if_pos hnil
  | value hfind hcontainer hkind =>
    rw [Edit.setStr, hfind]
    split_ifs
    · rfl
    · simp only [hcontainer, Edit.setInline]
      split
      · exact absurd ‹_› hkind
      · exact absurd ‹_› hkind
      · rfl
  | array hfind hcontainer hsite hsections =>
    rw [Edit.setStr, hfind]
    split_ifs
    · rfl
    · simp only [hcontainer, hsite]
      rw [Edit.setSection, if_pos hsections]

/-- A key is set in an accepted text and read back, unless it is refused: the rendered text is
accepted again, the key has the value, and what every path finds that is apart from the key's is as
it was. -/
theorem set_read_back {source : Str} {edit : Edit} (h : init source = some edit)
    (hkeys : ∀ key ∈ path, newline ∉ key) (value : Str) :
    (edit.Refuses path ∧ edit.setStr path value = none) ∨
      ∃ edited again text, edit.setStr path value = some edited ∧ edited.render = some text ∧
        init text = some again ∧
        (∃ found, again.find path = some found ∧ found.kind = .string ∧
          again.entryStr found = value) ∧
        ∀ q, Apart q path → again.look q = edit.look q := by
  have hdrop : ∀ n, ∀ key ∈ path.drop n, newline ∉ key := fun n key hkey =>
    hkeys key (List.mem_of_mem_drop hkey)
  have hrefused : edit.Refuses path → edit.Refuses path ∧ edit.setStr path value = none :=
    fun hrefuses => ⟨hrefuses, hrefuses.setStr value⟩
  by_cases hpath : path = []
  · exact .inl (hrefused (.empty hpath))
  cases hfind : edit.find path with
  | some entry =>
    obtain ⟨edited, again, text, hset, hrender, -, hread⟩ := set_present h hfind value
    exact .inr ⟨edited, again, text, hset, hrender, hread⟩
  | none =>
    cases hcontainer : edit.container path (path.length - 1) with
    | some found =>
      by_cases hkind : found.2.kind = .table
      · exact .inr (set_inline h hfind hcontainer hkind (hdrop _) value)
      · exact .inl (hrefused (.value hfind hcontainer hkind))
    | none =>
      cases hsite : edit.findSite path.dropLast with
      | some site => exact .inr (set_line h hpath hfind hcontainer hsite (hdrop _) value)
      | none =>
        cases harray : edit.sections.any fun s => s.array && s.path = path.dropLast with
        | true => exact .inl (hrefused (.array hfind hcontainer hsite harray))
        | false =>
          exact .inr (set_section h hpath hfind hcontainer hsite harray hkeys value)

theorem set_read_back_line :
    ∃ edit again, init (str "[a]\nb = 1") = some edit ∧
      init (str "[a]\nb = 1\nc = \"2\"\n") = some again ∧
      (∃ found, again.find [str "a", str "c"] = some found ∧ found.kind = .string ∧
        again.entryStr found = str "2") ∧
      again.look [str "a", str "b"] = edit.look [str "a", str "b"] := by
  obtain ⟨edited, hsome⟩ := Option.isSome_iff_exists.1
    (show ((init (str "[a]\nb = 1")).bind fun edit =>
      edit.setStr [str "a", str "c"] (str "2")).isSome = true by decide +kernel)
  obtain ⟨edit, hedit, hset⟩ := Option.bind_eq_some_iff.1 hsome
  have hspliced : ((init (str "[a]\nb = 1")).bind fun edit =>
      edit.setStr [str "a", str "c"] (str "2")).map (fun edited =>
        (edited.source, edited.splices)) =
      some (str "[a]\nb = 1", [⟨9, 0, 0, str "\nc = \"2\"\n"⟩]) := by decide +kernel
  rw [hsome, Option.map_some] at hspliced
  obtain ⟨hsource, hsplices⟩ := Prod.mk.inj (Option.some.inj hspliced)
  have hkeys : ∀ key ∈ [str "a", str "c"], newline ∉ key := by decide
  rcases set_read_back hedit hkeys (str "2") with ⟨-, hnone⟩ |
    ⟨edited', again, text, hset', hrender, hagain, hread, hapart⟩
  · rw [hnone] at hset
    cases hset
  · obtain rfl := Option.some.inj (hset.symm.trans hset')
    have htext : renderFrom (str "[a]\nb = 1") 0 [⟨9, 0, 0, str "\nc = \"2\"\n"⟩] =
        some (str "[a]\nb = 1\nc = \"2\"\n") := by decide +kernel
    rw [Edit.render, hsource, hsplices, List.mergeSort_singleton, htext] at hrender
    obtain rfl := Option.some.inj hrender
    exact ⟨edit, again, hedit, hagain, hread, hapart _ ⟨by decide, by decide⟩⟩

end Spn.Toml
