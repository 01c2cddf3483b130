import Spn.Toml.Insert
import Spn.Toml.Splices

/-! # Setting a key on a new line

A key that a text lacks, and for which a section of the text is the place, is set on a line of its
own.
-/
namespace Spn.Toml

variable {path own : List Str} {A B : List Line}

/-! ## Sites -/

theorem foldl_site_mem (parent : List Str) {edit : Edit} {site : Site}
    (h : edit.findSite parent = some site) : ∃ s ∈ edit.sections, s.site parent = some site := by
  rcases foldl_site parent _ _ _ h with hnone | hfound
  · cases hnone
  · exact hfound

theorem site_cases {s : Section} {parent : List Str} {site : Site}
    (h : s.site parent = some site) :
    s.path <+: parent ∧ site.matched = s.path.length ∧
      (site.start = s.content ∨ ∃ entry ∈ s.entries, site.start = entry.lineEnd) := by
  rw [Section.site] at h
  dsimp only at h
  split_ifs at h with harray hrest
  · rw [not_or, not_not] at harray
    obtain rfl := Option.some.inj h
    refine ⟨harray.2, rfl, ?_⟩
    cases hlast : s.entries.getLast? with
    | none => exact .inl rfl
    | some entry => exact .inr ⟨entry, List.mem_of_getLast? hlast, rfl⟩
  · rw [not_or, not_not] at harray
    obtain ⟨entry, hentry, rfl⟩ := Option.map_eq_some_iff.1 h
    exact ⟨harray.2, rfl, .inr ⟨entry, List.mem_reverse.1 (List.mem_of_find?_eq_some hentry), rfl⟩⟩

/-- The place of a site has room for a line. -/
theorem site_room {doc : List Line} (h : LinesFit doc) {parent : List Str} {site : Site} {eol : Str}
    (heol : IsEol eol)
    (hsite : (editOf doc).findSite parent = some site) :
    ∃ own A B, own <+: parent ∧ site.matched = own.length ∧ Room doc own site.start eol A B := by
  obtain ⟨s, hs, hfound⟩ := foldl_site_mem parent hsite
  obtain ⟨hunder, hmatched, hstart⟩ := site_cases hfound
  refine ⟨s.path, ?_⟩
  have hplace : (site.start = 0 ∧ s.path = []) ∨ Cut doc [] 0 s.path site.start := by
    rcases List.mem_cons.1 hs with rfl | hrest
    · rcases hstart with hcontent | ⟨entry, hentry, hline⟩
      · exact .inl ⟨hcontent, rfl⟩
      · exact .inr (hline ▸ entriesOf_cut [] hentry)
    · obtain ⟨hcontent, hentries⟩ := sectionsOf_cut [] hrest
      rcases hstart with heq | ⟨entry, hentry, hline⟩
      · exact .inr (heq ▸ hcontent)
      · exact .inr (hline ▸ hentries entry hentry)
  rcases hplace with ⟨hzero, hroot⟩ | hcut
  · refine ⟨[], doc, hunder, hmatched, ?_⟩
    rw [hzero, hroot]
    exact room_start h eol
  · obtain ⟨A, B, hroom⟩ := room_cut h hcut heol
    exact ⟨A, B, hunder, hmatched, hroom⟩

/-- The line that is written. -/
def writtenEntry (path : List Str) (value eol : Str) : Line :=
  .entry (writtenHead [] path) (.leaf .string (quoted value)) eol

theorem writtenEntry_text (path : List Str) (value eol : Str) :
    (writtenEntry path value eol).text = writtenLine path value eol := by
  simp [writtenEntry, Line.text, writtenHead_text, Value.text, writtenLine]

theorem writtenEntry_fits {eol : Str} (heol : IsEol eol)
    (hpath : path ≠ []) (hkeys : ∀ key ∈ path, newline ∉ key) (value : Str) :
    (writtenEntry path value eol).Fits :=
  ⟨rfl, writtenHead_fits (fun _ hc => absurd hc List.not_mem_nil) hpath hkeys,
    leaf_quoted value false, .inl (heol.ended)⟩

/-- What a document has with a new line in its room. -/
theorem Room.values {doc : List Line} {start : ℕ} {eol : Str} (h : Room doc own start eol A B)
    (hunder : own <+: path) (hlength : own.length ≠ path.length)
    (hnone : valueAt path doc = none) (value : Str) :
    valueAt path (A ++ writtenEntry (path.drop own.length) value eol :: B) =
        some (.leaf .string (quoted value)) ∧
      ∀ q, Apart q path → valueAt q (A ++ writtenEntry (path.drop own.length) value eol :: B) =
        valueAt q doc := by
  obtain rfl := h.owner
  constructor
  · obtain ⟨hsections, hsection⟩ := Option.or_eq_none_iff.1 hnone
    rw [← h.sections] at hsections
    rw [← h.section_] at hsection
    exact insert_found hsections hsection hunder hlength rfl
  · intro q hq
    have hmissed := @insert_missed q [] (writtenHead [] (path.drop (ownerIn [] A).length))
      (.leaf .string (quoted value)) eol A B fun hown _ =>
        Value.under_missed _ (hq.drop hown hunder).2
    rw [valueAt, valueAt, writtenEntry, hmissed.1, hmissed.2, h.sections, h.section_]

/-- A key of an accepted text that is not found, that no table in braces is for, and that a section
has the place for, is set on a line of its own there: the rendered text is accepted again, the key
has the value, and what every path finds that is apart from the key's is as it was. -/
theorem set_line {source : Str} {edit : Edit} (h : init source = some edit) (hpath : path ≠ [])
    (hfind : edit.find path = none) (hcontainer : edit.container path (path.length - 1) = none)
    {site : Site} (hsite : edit.findSite path.dropLast = some site)
    (hkeys : ∀ key ∈ path.drop site.matched, newline ∉ key) (value : Str) :
    ∃ edited again text, edit.setStr path value = some edited ∧ edited.render = some text ∧
      init text = some again ∧
      (∃ found, again.find path = some found ∧ found.kind = .string ∧
        again.entryStr found = value) ∧
      ∀ q, Apart q path → again.look q = edit.look q := by
  obtain ⟨doc, hfits, rfl, rfl⟩ := init_document h
  have heol := Edit.eol_cases (editOf doc)
  obtain ⟨own, A, B, hunder, hmatched, hroom⟩ := site_room hfits heol hsite
  have hown : own <+: path := hunder.trans (List.dropLast_prefix path)
  have hlength : own.length < path.length := by
    have hle := hunder.length_le
    rw [List.length_dropLast] at hle
    have hpos := List.length_pos_of_ne_nil hpath
    omega
  have hdrop : path.drop own.length ≠ [] := by
    rw [Ne, List.drop_eq_nil_iff]
    omega
  have habsent := valueAt_none hfind
  obtain ⟨hvalue, hapart⟩ := hroom.values hown hlength.ne habsent value
  rw [hmatched] at hkeys
  have hnew := hroom.fits _ (writtenEntry_fits heol hdrop hkeys value) (heol.ended)
  have hrender := render_one (textOf doc) (sectionsIn doc) site.start site.start
    (before (textOf doc) (editOf doc).eol site.start ++
      writtenLine (path.drop own.length) value (editOf doc).eol) le_rfl
  rw [Nat.sub_self, List.append_assoc, ← List.append_assoc, ← hroom.front, ← hroom.back,
    ← writtenEntry_text, ← text_cons, ← textOf_append] at hrender
  refine ⟨_, editOf _, _, ?_, hrender, init_text hnew, find_quoted hnew hvalue, fun q hq => ?_⟩
  · rw [Edit.setStr, if_neg hpath, hfind]
    simp only [hcontainer, hsite]
    rw [Edit.setLine, splice_first rfl, hmatched, writtenEntry_text, writtenLine]
    simp only [List.append_assoc]
    rfl
  · rw [look_editOf, hapart q hq, ← look_editOf]
    rfl

end Spn.Toml
