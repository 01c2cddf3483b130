import Spn.Toml.Found

/-! # Setting a key that is there

A key that a text has is set in its place: the text reads again, with the new value under the key
and every other value as it was.
-/
namespace Spn.Toml

variable {path : List Str} {front back : Str} {entry : Entry} {old : Value}
  {fill : Value → List Line}

/-- The kind and the text of the value that is found at a path. -/
def Edit.look (edit : Edit) (path : List Str) : Option (Kind × Str) :=
  (edit.find path).map fun entry => (entry.kind, edit.slice entry.value)

/-- The text of a document as the editor has it. -/
def editOf (doc : List Line) : Edit := ⟨textOf doc, sectionsIn doc, []⟩

theorem Hole.slice (h : Hole docShape path entry 0 front back old fill) :
    (editOf (fill old)).slice entry.value = old.text := by
  have htext : textOf (fill old) = front ++ (old.text ++ back) := h.text old
  rw [Edit.slice, editOf, htext, h.value, Nat.zero_add, List.drop_left, Nat.add_sub_cancel_left,
    List.take_left]

/-- The text with another text in the place of a value. -/
theorem Hole.replaced (h : Hole docShape path entry 0 front back old fill) (w : Value) :
    (textOf (fill old)).take entry.value.start ++
      (w.text ++ (textOf (fill old)).drop entry.value.stop) = textOf (fill w) := by
  have hold : textOf (fill old) = front ++ (old.text ++ back) := h.text old
  have hnew : textOf (fill w) = front ++ (w.text ++ back) := h.text w
  have hstop : (textOf (fill old)).drop entry.value.stop = back := by
    rw [hold, h.value, ← List.append_assoc]
    exact List.drop_left' (by simp)
  rw [hnew, hstop, hold, h.value, Nat.zero_add, List.take_left]

/-- What is found in the text of a document is what the document has there. -/
theorem look_editOf (doc : List Line) (path : List Str) :
    (editOf doc).look path = (valueAt path doc).map fun v => (v.kind, v.text) := by
  rw [Edit.look]
  rcases found_doc doc path with ⟨hfound, hget⟩ |
    ⟨entry, front, back, old, fill, hfound, rfl, hole⟩
  · have hget : valueAt path doc = none := hget
    rw [hget, editOf, hfound]
    rfl
  · have hget : valueAt path (fill old) = some old := hole.same old
    rw [hget, Option.map_some, ← hole.kind, ← hole.slice, editOf, hfound]
    rfl

/-- A path at which nothing is found is one at which the document has nothing. -/
theorem valueAt_none {doc : List Line} (h : (editOf doc).find path = none) :
    valueAt path doc = none := by
  have hlook := look_editOf doc path
  rw [Edit.look, h] at hlook
  exact Option.map_eq_none_iff.1 hlook.symm

theorem Section.find_nil (s : Section) : s.find [] = none := by
  rw [Section.find, if_neg]
  intro h
  rw [List.prefix_nil] at h
  exact h.2 (by rw [h.1])

theorem Edit.find_nil (edit : Edit) : edit.find [] = none := by
  rw [Edit.find]
  induction edit.sections with
  | nil => rfl
  | cons s sections ih => rwa [List.foldl_cons, Section.find_nil, Option.or_none]

/-- A text with one splice in it. -/
theorem render_one (source : Str) (sections : List Section) (start stop : ℕ) (insert : Str)
    (h : start ≤ stop) :
    Edit.render ⟨source, sections, [⟨start, stop - start, 0, insert⟩]⟩ =
      some (source.take start ++ (insert ++ source.drop stop)) := by
  rw [Edit.render, List.mergeSort_singleton, renderFrom, if_neg (Nat.not_lt_zero _), renderFrom,
    Option.map_some, List.drop_zero, Nat.sub_zero, Nat.add_sub_cancel' h, List.append_assoc]

theorem leaf_quoted (value : Str) (nested : Bool) :
    Value.Fits nested (.leaf .string (quoted value)) :=
  .string (.inl rfl) (stringText_quoted value)

/-- A string in a document is found and says what was written for it. -/
theorem find_quoted {doc : List Line} (hfits : LinesFit doc) {value : Str}
    (h : valueAt path doc = some (.leaf .string (quoted value))) :
    ∃ found, (editOf doc).find path = some found ∧ found.kind = .string ∧
      (editOf doc).entryStr found = value := by
  rcases found_doc doc path with ⟨-, hnone⟩ | ⟨entry, front, back, old, fill, hsome, rfl, hole⟩
  · have hnone : valueAt path doc = none := hnone
    rw [hnone] at h
    cases h
  · have hget : valueAt path (fill old) = some old := hole.same old
    rw [hget] at h
    obtain rfl := Option.some.inj h
    refine ⟨entry, hsome, hole.kind, entryStr_quoted hole.kind ?_ (hole.next hfits)⟩
    have htext : textOf (fill (.leaf .string (quoted value))) = front ++ (quoted value ++ back) :=
      hole.text _
    rw [editOf, htext, hole.value, Nat.zero_add, List.drop_left]

/-- The first splice of an edit is taken. -/
theorem splice_first {edit : Edit} (hsplices : edit.splices = []) (start remove : ℕ)
    (insert : Str) : edit.splice start remove insert =
      some ⟨edit.source, edit.sections, [⟨start, remove, 0, insert⟩]⟩ := by
  simp only [Edit.splice, hsplices, List.any_nil, Bool.false_eq_true, if_false, List.nil_append,
    List.length_nil]

/-- Setting a key that is found replaces its value. -/
theorem setStr_present {edit : Edit} (hsplices : edit.splices = [])
    (hfind : edit.find path = some entry) (value : Str) :
    edit.setStr path value = some ⟨edit.source, edit.sections,
      [⟨entry.value.start, entry.value.stop - entry.value.start, 0, quoted value⟩]⟩ := by
  have hpath : path ≠ [] := by
    rintro rfl
    rw [Edit.find_nil] at hfind
    cases hfind
  rw [Edit.setStr, if_neg hpath, hfind]
  exact splice_first hsplices _ _ _

/-- A key of an accepted text that is found is set in its place: the rendered text is the text with
the new value for the old one, it is accepted again, the key has the new value, and what every path
finds that is apart from the key's is as it was. -/
theorem set_present {source : Str} {edit : Edit} (h : init source = some edit)
    (hfind : edit.find path = some entry) (value : Str) :
    ∃ edited again text, edit.setStr path value = some edited ∧ edited.render = some text ∧
      text = source.take entry.value.start ++ (quoted value ++ source.drop entry.value.stop) ∧
      init text = some again ∧
      (∃ found, again.find path = some found ∧ found.kind = .string ∧
        again.entryStr found = value) ∧
      ∀ q, Apart q path → again.look q = edit.look q := by
  obtain ⟨doc, hfits, rfl, rfl⟩ := init_document h
  have hset := setStr_present (rfl : Edit.splices ⟨textOf doc, sectionsIn doc, []⟩ = []) hfind value
  rcases found_doc doc path with ⟨hnone, -⟩ | ⟨found, front, back, old, fill, hsome, rfl, hole⟩
  · rw [hnone] at hfind
    cases hfind
  rw [hsome] at hfind
  obtain rfl := Option.some.inj hfind
  have hnew : LinesFit (fill (.leaf .string (quoted value))) :=
    hole.fits _ hfits (leaf_quoted value)
  have htext := hole.replaced (.leaf .string (quoted value))
  refine ⟨_, editOf (fill (.leaf .string (quoted value))), _, hset,
    render_one _ _ _ _ _ ?_, rfl, ?_, find_quoted hnew (hole.same _), fun q hq => ?_⟩
  · rw [hole.value]
    exact Nat.le_add_right _ _
  · exact (congrArg init htext).trans (init_text hnew)
  · have hsame : valueAt q (fill (.leaf .string (quoted value))) = valueAt q (fill old) :=
      hole.apart _ q hq
    rw [look_editOf, hsame, ← look_editOf]
    rfl

end Spn.Toml
