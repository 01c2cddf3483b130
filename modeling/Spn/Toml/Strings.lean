import Spn.Toml.Leaves

/-! # What is written is read

A value and a key that the editor writes are read back as what they were written for. A value is a
basic string on one line, so any text can be one; a key holds a newline as it is, which no key can
be read with.
-/
namespace Spn.Toml

variable {more : Str}

/-! ## Values -/

/-- A character of a value is written as it is, or as an escape of one character. -/
theorem escaped_cases (c : UInt8) :
    (escaped c = [c] ∧ c ≠ newline ∧ c ≠ quote ∧ c ≠ backslash) ∨
      ∃ e, escaped c = [backslash, e] ∧ (e, c) ∈ escapes := by
  rw [escaped]
  split_ifs with h₁ h₂ h₃ h₄ h₅ h₆ h₇
  · exact .inr ⟨quote, rfl, by simp [h₁, escapes]⟩
  · exact .inr ⟨backslash, rfl, by simp [h₂, escapes]⟩
  · exact .inr ⟨0x62, rfl, by simp [h₃, escapes]⟩
  · exact .inr ⟨0x74, rfl, by simp [h₄, escapes]⟩
  · exact .inr ⟨0x6e, rfl, by simp [h₅, escapes]⟩
  · exact .inr ⟨0x66, rfl, by simp [h₆, escapes]⟩
  · exact .inr ⟨0x72, rfl, by simp [h₇, escapes]⟩
  · exact .inl ⟨rfl, h₅, h₁, h₂⟩

theorem basic_escaped (v : Str) : Basic (v.flatMap escaped) v := by
  induction v with
  | nil => exact .nil
  | cons c v ih =>
    rw [List.flatMap_cons]
    obtain ⟨heq, hnewline, hquote, hbackslash⟩ | ⟨e, heq, he⟩ := escaped_cases c
    · rw [heq]
      exact .plain hnewline hquote hbackslash ih
    · rw [heq]
      exact .escape (.char he) ih

theorem inside_escaped (v : Str) : Inside quote false (v.flatMap escaped ++ [quote]) := by
  induction v with
  | nil => exact .close
  | cons c v ih =>
    rw [List.flatMap_cons, List.append_assoc]
    obtain ⟨heq, hnewline, hquote, hbackslash⟩ | ⟨e, heq, he⟩ := escaped_cases c
    · rw [heq]
      exact .plain hquote (.inr hnewline) (fun _ => hbackslash) ih
    · rw [heq]
      exact .escape rfl (.plain (.char he)) ih

/-- What is written for a value is a string. -/
theorem stringText_quoted (v : Str) : StringText quote (quoted v) := .line (inside_escaped v)

theorem quoted_append (v more : Str) :
    quoted v ++ more = quote :: (v.flatMap escaped ++ quote :: more) := by
  simp [quoted]

/-- A value is read back from what is written for it. -/
theorem parseBasic_quoted (v more : Str) : parseBasic (quoted v ++ more) = some (v, more) := by
  rw [quoted_append, parseBasic, List.tail_cons]
  exact (basic_escaped v).parse (by simp) more

theorem isMultiline_quoted (v : Str) (hmore : peek more ≠ quote) :
    isMultiline (quoted v ++ more) = false :=
  (inside_escaped v).not_multiline (.inl rfl) fun _ => hmore

/-! ## Keys -/

theorem basic_keyEscaped {key : Str} (hkey : newline ∉ key) : Basic
    (key.flatMap fun c => if c = quote || c = backslash then [backslash, c] else [c]) key := by
  induction key with
  | nil => exact .nil
  | cons c key ih =>
    have hnewline : c ≠ newline := fun heq => hkey (heq ▸ List.mem_cons_self)
    have hrest := ih fun hmem => hkey (List.mem_cons_of_mem c hmem)
    rw [List.flatMap_cons]
    split_ifs with hmark
    · have he : (c, c) ∈ escapes := by
        rcases (by simpa using hmark : c = quote ∨ c = backslash) with rfl | rfl <;> simp [escapes]
      exact .escape (.char he) hrest
    · rw [Bool.or_eq_true, decide_eq_true_iff, decide_eq_true_iff, not_or] at hmark
      exact .plain hnewline hmark.1 hmark.2 hrest

/-- A segment of a key is written as one. -/
theorem segment_keyText {key : Str} (hkey : newline ∉ key) : Segment key (keyText key) := by
  rw [keyText]
  split_ifs with hbare
  · rw [keyIsBare, Bool.and_eq_true, decide_eq_true_iff, List.all_eq_true] at hbare
    exact .bare hbare.1 hbare.2
  · exact .basic (basic_keyEscaped hkey)

/-- The key of a path is written as one, and is one with white space after it. -/
theorem key_keyPathText {path : List Str} (hpath : path ≠ []) (hkeys : ∀ key ∈ path, newline ∉ key)
    {trail : Str} (htrail : Space trail) : Key path (keyPathText path ++ trail) := by
  induction path with
  | nil => exact absurd rfl hpath
  | cons key path ih =>
    have hkey := segment_keyText (hkeys key List.mem_cons_self)
    cases path with
    | nil => exact .last space_nil hkey htrail
    | cons next path =>
      have hrest := ih (List.cons_ne_nil _ _) fun k hk => hkeys k (List.mem_cons_of_mem _ hk)
      have htext : keyPathText (key :: next :: path) ++ trail =
          [] ++ (keyText key ++ ([] ++ dot :: (keyPathText (next :: path) ++ trail))) := by
        simp [keyPathText]
      rw [htext]
      exact .dotted space_nil hkey space_nil hrest

theorem keyPathText_start {path : List Str} (hpath : path ≠ [])
    (hkeys : ∀ key ∈ path, newline ∉ key) (more : Str) :
    isWhitespace (peek (keyPathText path ++ more)) = false := by
  obtain ⟨key, rest, rfl⟩ := List.exists_cons_of_ne_nil hpath
  obtain ⟨hne, hstart⟩ := (segment_keyText (hkeys key List.mem_cons_self)).start
  cases rest with
  | nil => rwa [keyPathText, peek_append hne]
  | cons next rest =>
    have htext : keyPathText (key :: next :: rest) =
        keyText key ++ dot :: keyPathText (next :: rest) := rfl
    rwa [htext, List.append_assoc, peek_append hne]

/-! ## Lines -/

/-- A line that `spn_toml_edit_set_str` writes. -/
def writtenLine (path : List Str) (value eol : Str) : Str :=
  keyPathText path ++ str " = " ++ quoted value ++ eol

/-- A string that the editor wrote says what it was written for. -/
theorem entryStr_quoted {edit : Edit} {entry : Entry} {value : Str} (hkind : entry.kind = .string)
    (htext : edit.source.drop entry.value.start = quoted value ++ more)
    (hmore : peek more ≠ quote) : edit.entryStr entry = value := by
  have hpeek : peek (quoted value ++ more) ≠ apostrophe := by
    rw [quoted_append, peek_cons]
    decide
  rw [Edit.entryStr, hkind]
  simp only [htext, isMultiline_quoted value hmore, Bool.not_false, if_true, if_neg hpeek,
    parseBasic_quoted, Option.map_some, Option.getD_some]

theorem scanValue_quoted {nested : Bool} {fuel at_ : ℕ} (value : Str) (hmore : peek more ≠ quote) :
    scanValue nested (fuel + 1) at_ (quoted value ++ more) =
      some ⟨.string, [], at_ + (quoted value).length, more⟩ := by
  have hpeek : peek (quoted value ++ more) = quote := by rw [quoted_append, peek_cons]
  have hscan := (stringText_quoted value).scan (.inl rfl) fun _ => hmore
  rw [scanValue, hpeek, if_pos (by decide), hscan, Option.map_some, after, List.length_append,
    Nat.add_sub_cancel_right]

/-- A written pair is found where it stands. -/
theorem scanPair_written {nested : Bool} {path : List Str} (hpath : path ≠ [])
    (hkeys : ∀ key ∈ path, newline ∉ key) {fuel : ℕ} (at_ : ℕ) (value : Str)
    (hmore : peek more ≠ quote) :
    scanPair (scanValue nested (fuel + 1)) at_
        (keyPathText path ++ str " = " ++ quoted value ++ more) =
      some (.mk path .string ⟨at_, at_ + ((keyPathText path).length + 1)⟩
        ⟨at_ + ((keyPathText path).length + 3),
          at_ + ((keyPathText path).length + 3) + (quoted value).length⟩ 0 [], more) := by
  have htext : keyPathText path ++ str " = " ++ quoted value ++ more =
      (keyPathText path ++ [0x20]) ++ equals :: 0x20 :: (quoted value ++ more) := by
    rw [show str " = " = [0x20, equals, 0x20] from rfl]
    simp only [List.append_assoc, List.cons_append, List.nil_append]
  have hvalue : skipWhitespace (0x20 :: (quoted value ++ more)) = quoted value ++ more := by
    rw [quoted_append]
    rfl
  have hkey : Key path (keyPathText path ++ [0x20]) := key_keyPathText hpath hkeys space_blank
  rw [htext, scanPair, hkey.parse (endsKey_equals _), Option.bind_some]
  dsimp only
  rw [show skipWhitespace (equals :: 0x20 :: (quoted value ++ more)) =
      equals :: 0x20 :: (quoted value ++ more) from rfl, accept_cons, Option.bind_some, hvalue,
    scanValue_quoted value hmore, Option.map_some]
  have hstart : after at_ (keyPathText path ++ [0x20] ++ equals :: 0x20 :: (quoted value ++ more))
      (quoted value ++ more) = at_ + ((keyPathText path).length + 3) := by
    simp only [after, List.length_append, List.length_cons, List.length_nil]
    omega
  have hstop : after at_ (keyPathText path ++ [0x20] ++ equals :: 0x20 :: (quoted value ++ more))
      (equals :: 0x20 :: (quoted value ++ more)) = at_ + ((keyPathText path).length + 1) := by
    simp only [after, List.length_append, List.length_cons, List.length_nil]
    omega
  rw [hstart, hstop]

theorem Edit.eol_cases (edit : Edit) : IsEol edit.eol := by
  rw [Edit.eol]
  split_ifs
  · exact .inr rfl
  · exact .inl rfl

/-- A line that the editor writes is read as one entry, wherever it stands: its path is the path it
was written for, its value stands where the text of the value does, and says what was set; and the
line ends where it was written to. -/
theorem written_line_read {path : List Str} (hpath : path ≠ [])
    (hkeys : ∀ key ∈ path, newline ∉ key) (value rest : Str) (writer : Edit) {edit : Edit} {at_ : ℕ}
    (hsource : edit.source.drop at_ = writtenLine path value writer.eol ++ rest) :
    ∃ entry, parseEntry at_ (edit.source.drop at_) = some (entry, rest) ∧
      entry.path = path ∧ entry.kind = .string ∧ edit.slice entry.value = quoted value ∧
      edit.entryStr entry = value ∧
      entry.lineEnd = at_ + (writtenLine path value writer.eol).length := by
  have heol := writer.eol_cases
  generalize writer.eol = eol at hsource heol ⊢
  have hmore : peek (eol ++ rest) ≠ quote := by
    rcases heol with rfl | rfl
    · exact (by decide : newline ≠ quote)
    · exact (by decide : carriageReturn ≠ quote)
  have htext : edit.source.drop at_ =
      keyPathText path ++ str " = " ++ quoted value ++ (eol ++ rest) := by
    rw [hsource, writtenLine, List.append_assoc]
  have hvalue : edit.source.drop (at_ + ((keyPathText path).length + 3)) =
      quoted value ++ (eol ++ rest) := by
    have hfront : (keyPathText path).length + 3 = (keyPathText path ++ str " = ").length := by
      rw [List.length_append]
      rfl
    rw [← List.drop_drop, htext, hfront, List.append_assoc, List.drop_left]
  refine ⟨.mk path .string ⟨at_, at_ + ((keyPathText path).length + 1)⟩
    ⟨at_ + ((keyPathText path).length + 3),
      at_ + ((keyPathText path).length + 3) + (quoted value).length⟩
    (at_ + (writtenLine path value eol).length) [],
    ?_, rfl, rfl, ?_, entryStr_quoted rfl hvalue hmore, rfl⟩
  · rw [parseEntry, htext, scanPair_written hpath hkeys at_ value hmore, Option.bind_some,
      heol.ended.skip, Option.map_some]
    have hend : after at_ (keyPathText path ++ str " = " ++ quoted value ++ (eol ++ rest)) rest =
        at_ + (writtenLine path value eol).length := by
      simp only [after, writtenLine, List.length_append]
      omega
    rw [hend]
    rfl
  · rw [Edit.slice]
    dsimp only [Entry.value]
    rw [hvalue, Nat.add_sub_cancel_left, List.take_left]

/-- A key with a dot and a quote in it, and a value with a newline. -/
theorem written_line_read_quoted :
    ∃ entry, parseEntry 0 (writtenLine [str "a", str "b.\"c"] (str "x\ny") [newline]) =
        some (entry, []) ∧ entry.path = [str "a", str "b.\"c"] ∧ entry.kind = .string := by
  have hkeys : ∀ key ∈ [str "a", str "b.\"c"], newline ∉ key := by decide
  obtain ⟨entry, hparse, hpath, hkind, -⟩ := @written_line_read [str "a", str "b.\"c"]
    (List.cons_ne_nil _ _) hkeys (str "x\ny") []
    ⟨[], [], []⟩ ⟨writtenLine [str "a", str "b.\"c"] (str "x\ny") [newline], [], []⟩ 0
    (List.append_nil _).symm
  exact ⟨entry, hparse, hpath, hkind⟩

end Spn.Toml
