import Spn.Toml.Present

/-! # Setting a key in braces

A key that a text lacks, and that belongs in a table that is a value, is set as the first pair of
the table.
-/
namespace Spn.Toml

variable {path : List Str} {front back : Str} {entry : Entry} {old : Value}
  {fill : Value → List Line} {nested : Bool}

/-- A key as the editor writes it, up to the value. -/
def writtenHead (lead : Str) (path : List Str) : Head :=
  ⟨lead, path, keyPathText path ++ [0x20], [0x20]⟩

theorem writtenHead_text (lead : Str) (path : List Str) :
    (writtenHead lead path).text = lead ++ (keyPathText path ++ str " = ") := by
  rw [show str " = " = [0x20, equals, 0x20] from rfl]
  simp [writtenHead, Head.text]

theorem writtenHead_fits {lead : Str} (hlead : ∀ c ∈ lead, isBlank c = true) (hpath : path ≠ [])
    (hkeys : ∀ key ∈ path, newline ∉ key) : (writtenHead lead path).Fits where
  lead := hlead
  start := keyPathText_start hpath hkeys [0x20]
  key := key_keyPathText hpath hkeys space_blank
  gap := space_blank

/-- A table with one more pair, before the others. -/
def Value.holding (path : List Str) (value : Str) : Value → Value
  | .table pairs => .table (.more (writtenHead pairs.lead path) (.leaf .string (quoted value)) []
      (pairs.bare.after [0x20]))
  | _ => .table (.one (writtenHead [0x20] path) (.leaf .string (quoted value)) [0x20])

theorem blank_space : ∀ c ∈ ([0x20] : Str), isBlank c = true := by
  intro c hc
  obtain rfl := List.mem_singleton.1 hc
  rfl

theorem Value.holding_fits (h : old.Fits nested) (hpath : path ≠ [])
    (hkeys : ∀ key ∈ path, newline ∉ key) (value : Str) (nested : Bool) :
    (old.holding path value).Fits nested := by
  cases old with
  | leaf kind text =>
    exact ⟨writtenHead_fits blank_space hpath hkeys, leaf_quoted value true, blank_space⟩
  | empty gap =>
    exact ⟨writtenHead_fits blank_space hpath hkeys, leaf_quoted value true, blank_space⟩
  | table pairs =>
    exact ⟨writtenHead_fits h.lead hpath hkeys, leaf_quoted value true,
      fun _ hc => absurd hc List.not_mem_nil, h.bare.after blank_space⟩

@[simp] theorem Pairs.get_after (p : Pairs) (w : Str) (q : List Str) :
    (p.after w).get q = p.get q := by
  cases p <;> rfl

@[simp] theorem Pairs.get_bare (p : Pairs) (q : List Str) : p.bare.get q = p.get q := by
  cases p <;> rfl

theorem Value.holding_self (old : Value) (path : List Str) (value : Str) :
    (old.holding path value).within path = some (.leaf .string (quoted value)) := by
  cases old <;> simp [Value.holding, Value.within, Pairs.get, writtenHead]

theorem Value.holding_apart (old : Value) (value : Str) {r : List Str} (hr : Apart r path) :
    (old.holding path value).within r = old.within r := by
  have hnone := Value.under_missed (.leaf .string (quoted value)) hr.2
  cases old <;> simp [Value.holding, Value.within, Pairs.get, writtenHead, hnone]

/-- What a document has after a pair was set in one of its tables. -/
theorem Hole.holding {r : List Str} (h : Hole docShape path entry 0 front back old fill)
    (hr : r ≠ []) (hnone : valueAt (path ++ r) (fill old) = none) (value : Str) :
    valueAt (path ++ r) (fill (old.holding r value)) = some (.leaf .string (quoted value)) ∧
      ∀ q, Apart q (path ++ r) → valueAt q (fill (old.holding r value)) = valueAt q (fill old) := by
  constructor
  · obtain ⟨before, after, hwithin⟩ := h.within r hr
    have hwithin : ∀ w, valueAt (path ++ r) (fill w) = before.or ((w.within r).or after) := hwithin
    rw [hwithin, Option.or_eq_none_iff] at hnone
    rw [hwithin, hnone.1, Option.none_or, Value.holding_self, Option.some_or]
  · intro q hq
    by_cases hprefix : path <+: q
    · obtain ⟨t, rfl⟩ := hprefix
      have ht : Apart t r := by
        simpa only [Apart, List.prefix_append_right_inj] using hq
      have hne : t ≠ [] := by
        rintro rfl
        exact ht.1 (List.nil_prefix)
      obtain ⟨before, after, hwithin⟩ := h.within t hne
      have hwithin : ∀ w, valueAt (path ++ t) (fill w) = before.or ((w.within t).or after) :=
        hwithin
      rw [hwithin, hwithin, Value.holding_apart old value ht]
    · exact h.apart _ q ⟨fun hsub => hq.1 (hsub.trans (List.prefix_append path r)), hprefix⟩

theorem container_found {edit : Edit} {path : List Str} {n len : ℕ}
    (h : edit.container path n = some (len, entry)) :
    len ≤ n ∧ edit.find (path.take len) = some entry := by
  induction n with
  | zero => cases h
  | succ n ih =>
    rw [Edit.container] at h
    split at h
    · rename_i found hfound
      obtain ⟨rfl, rfl⟩ := Prod.mk.inj (Option.some.inj h)
      exact ⟨le_rfl, hfound⟩
    · exact ⟨(ih h).1.trans (Nat.le_succ n), (ih h).2⟩

theorem Pairs.entries_first (p : Pairs) (at_ : ℕ) :
    ∃ first others, p.entries at_ = first :: others ∧ first.key.start = at_ + p.lead.length := by
  cases p <;> exact ⟨_, _, rfl, rfl⟩

/-- What is written into a table, and that the text is then that of the document with the pair. -/
theorem Hole.setInline (h : Hole docShape path entry 0 front back old fill)
    (hfits : LinesFit (fill old)) (hkind : entry.kind = .table) {whole : List Str} {len : ℕ}
    (value : Str) :
    ∃ edited, (editOf (fill old)).setInline whole len entry value = some edited ∧
      edited.render = some (textOf (fill (old.holding (whole.drop len) value))) := by
  obtain ⟨nested, hwhole⟩ := h.whole hfits
  have hold : textOf (fill old) = front ++ (old.text ++ back) := h.text old
  have hnew := h.text (old.holding (whole.drop len) value)
  have hle : entry.value.start ≤ entry.value.stop := by
    rw [h.value]
    exact Nat.le_add_right _ _
  have hentries := h.entries
  rw [Edit.setInline, hkind, hentries]
  rw [h.kind] at hkind
  cases old with
  | leaf kind text =>
    obtain rfl : kind = .table := hkind
    cases hwhole
  | empty gap =>
    have hinsert : str "\x7b " ++ keyPathText (whole.drop len) ++ str " = " ++ quoted value ++
        str " \x7d" = ((Value.empty gap).holding (whole.drop len) value).text := by
      rw [show str "\x7b " = [leftBrace, 0x20] from rfl,
        show str " \x7d" = [0x20, rightBrace] from rfl]
      simp [Value.holding, Value.text, Pairs.text, writtenHead_text]
    refine ⟨_, splice_first rfl _ _ _, ?_⟩
    rw [hinsert, ← h.replaced]
    exact render_one _ _ _ _ _ hle
  | table pairs =>
    obtain ⟨first, others, heq, hstart⟩ := pairs.entries_first (0 + front.length + 1)
    rw [Value.entries, heq]
    refine ⟨_, splice_first rfl _ _ _, ?_⟩
    have hrender := render_one (textOf (fill (.table pairs))) (sectionsIn (fill (.table pairs)))
      first.key.start first.key.start (keyPathText (whole.drop len) ++ str " = " ++ quoted value ++
        str ", ") le_rfl
    rw [Nat.sub_self] at hrender
    refine hrender.trans (congrArg some (Eq.trans ?_ hnew.symm))
    have hsplit : textOf (fill (.table pairs)) =
        (front ++ leftBrace :: pairs.lead) ++ (pairs.bare.text ++ back) := by
      rw [hold, Value.text, pairs.text_eq]
      simp
    have hlength : (front ++ leftBrace :: pairs.lead).length = first.key.start := by
      rw [hstart, List.length_append, List.length_cons]
      omega
    rw [hsplit, List.take_left' hlength, List.drop_left' hlength,
      show str ", " = [comma, 0x20] from rfl]
    simp [Value.holding, Value.text, Pairs.text, Pairs.after_text, writtenHead_text]

/-- A key of an accepted text that is not found, and whose table is a value, is set in the table:
the rendered text is accepted again, the key has the value, and what every path finds that is apart
from the key's is as it was. -/
theorem set_inline {source : Str} {edit : Edit} (h : init source = some edit)
    (hfind : edit.find path = none) {len : ℕ}
    (hcontainer : edit.container path (path.length - 1) = some (len, entry))
    (hkind : entry.kind = .table) (hkeys : ∀ key ∈ path.drop len, newline ∉ key) (value : Str) :
    ∃ edited again text, edit.setStr path value = some edited ∧ edited.render = some text ∧
      init text = some again ∧
      (∃ found, again.find path = some found ∧ found.kind = .string ∧
        again.entryStr found = value) ∧
      ∀ q, Apart q path → again.look q = edit.look q := by
  obtain ⟨doc, hfits, rfl, rfl⟩ := init_document h
  have hpath : path ≠ [] := by
    rintro rfl
    cases hcontainer
  have hpos := List.length_pos_of_ne_nil hpath
  obtain ⟨hlen, hfound⟩ := container_found hcontainer
  have hdrop : path.drop len ≠ [] := by
    rw [Ne, List.drop_eq_nil_iff]
    omega
  have hsplit : path.take len ++ path.drop len = path := List.take_append_drop len path
  rcases found_doc doc (path.take len) with ⟨hnone, -⟩ |
    ⟨found, front, back, old, fill, hsome, rfl, hole⟩
  · rw [hnone] at hfound
    cases hfound
  rw [hsome] at hfound
  obtain rfl := Option.some.inj hfound
  have habsent : valueAt (path.take len ++ path.drop len) (fill old) = none := by
    rw [hsplit]
    exact valueAt_none hfind
  obtain ⟨hvalue, hapart⟩ := hole.holding hdrop habsent value
  rw [hsplit] at hvalue hapart
  obtain ⟨nested, hwhole⟩ := hole.whole hfits
  have hnew : LinesFit (fill (old.holding (path.drop len) value)) :=
    hole.fits _ hfits (old.holding_fits hwhole hdrop hkeys value)
  obtain ⟨edited, hset, hrender⟩ := hole.setInline hfits hkind value
  refine ⟨edited, editOf (fill (old.holding (path.drop len) value)), _, ?_, hrender,
    init_text hnew, find_quoted hnew hvalue, fun q hq => ?_⟩
  · rw [Edit.setStr, if_neg hpath, hfind]
    simp only [hcontainer]
    exact hset
  · rw [look_editOf, hapart q hq, ← look_editOf]
    rfl

end Spn.Toml
