import Spn.Toml.Edit

/-! # Strings, keys, arrays and ends of lines

The pieces of a document that a scanner reads as a whole, by what they are written with. A scanner
takes such a piece where it stands in front of anything that does not go on with it, and takes
nothing else.
-/
namespace Spn.Toml

variable {u w r more : Str} {c mark : UInt8} {multiline : Bool} {p : UInt8 → Bool}

@[simp] theorem peek_nil : peek [] = 0 := rfl

@[simp] theorem peek_cons : peek (c :: u) = c := rfl

theorem peek_append (h : u ≠ []) (v : Str) : peek (u ++ v) = peek u := by
  obtain ⟨c, u, rfl⟩ := List.exists_cons_of_ne_nil h
  rfl

theorem accept_some (h : accept c u = some r) (hc : c ≠ 0) : u = c :: r := by
  cases u with
  | nil =>
    rw [accept, peek_nil] at h
    split_ifs at h with hzero
    exact absurd hzero.symm hc
  | cons d u =>
    rw [accept, peek_cons] at h
    split_ifs at h with hd
    rw [hd, ← Option.some.inj h]
    rfl

@[simp] theorem accept_cons : accept c (c :: u) = some u := by
  rw [accept, peek_cons, if_pos rfl, List.tail_cons]

/-! ## Characters in a row -/

/-- Characters of a kind are gone over up to one of another kind. -/
theorem span_append (hw : ∀ c ∈ w, p c = true) (hmore : ∀ c ∈ more.head?, p c = false) :
    (w ++ more).takeWhile p = w ∧ (w ++ more).dropWhile p = more := by
  rw [List.takeWhile_append_of_pos hw, List.dropWhile_append_of_pos hw]
  cases more with
  | nil => exact ⟨List.append_nil w, rfl⟩
  | cons c more =>
    have hc : p c = false := hmore c rfl
    rw [List.takeWhile_cons_of_neg (by simp [hc]), List.dropWhile_cons_of_neg (by simp [hc])]
    exact ⟨List.append_nil w, rfl⟩

theorem stop_of_peek (h : p (peek more) = false) : ∀ c ∈ more.head?, p c = false := by
  intro c hc
  cases more with
  | nil => cases hc
  | cons d more =>
    obtain rfl := Option.some.inj hc
    exact h

theorem head?_dropWhile (hc : c ∈ (u.dropWhile p).head?) : p c = false := by
  have hhead : (u.dropWhile p).head? = some c := hc
  simpa [hhead] using List.head?_dropWhile_not p u

theorem peek_dropWhile (hzero : p 0 = false) (u : Str) : p (peek (u.dropWhile p)) = false := by
  cases hrest : u.dropWhile p with
  | nil => exact hzero
  | cons c v => exact head?_dropWhile (u := u) (by rw [hrest]; rfl)

theorem dropWhile_split (p : UInt8 → Bool) (u : Str) :
    ∃ w, u = w ++ u.dropWhile p ∧ ∀ c ∈ w, p c = true :=
  ⟨u.takeWhile p, List.takeWhile_append_dropWhile.symm, fun _ hc => List.mem_takeWhile_imp hc⟩

theorem skipWhitespace_split (u : Str) :
    ∃ w, u = w ++ skipWhitespace u ∧ ∀ c ∈ w, isWhitespace c = true :=
  dropWhile_split isWhitespace u

theorem skipBlank_split (u : Str) : ∃ w, u = w ++ skipBlank u ∧ ∀ c ∈ w, isBlank c = true :=
  dropWhile_split isBlank u

theorem skipComment_hash (u : Str) : skipComment (hash :: u) = u.dropWhile (· ≠ newline) := by
  rw [skipComment, peek_cons, if_pos rfl, List.dropWhile_cons_of_pos (by decide)]

/-! ## Escapes -/

/-- The number that digits write. -/
def number (digits : Str) : ℕ := digits.foldl (fun n c => n * 16 + hex c) 0

/-- So many digits of a codepoint. -/
structure Codepoint (count : ℕ) (digits : Str) : Prop where
  length : digits.length = count
  digit : ∀ c ∈ digits, isHex c = true
  valid : codepointValid (number digits) = true

/-- What follows the backslash of an escape, and what it says. -/
inductive Escape : Str → Str → Prop
  | char {c d : UInt8} (h : (c, d) ∈ escapes) : Escape [c] [d]
  | short {digits : Str} (h : Codepoint 4 digits) :
      Escape (0x75 :: digits) (utf8Encode (number digits))
  | long {digits : Str} (h : Codepoint 8 digits) :
      Escape (0x55 :: digits) (utf8Encode (number digits))

/-- What follows a backslash in a string, in one of several lines also a blank. -/
inductive Escaped (multiline : Bool) : Str → Prop
  | plain {e text : Str} (h : Escape e text) : Escaped multiline e
  | blank {c : UInt8} (hlines : multiline = true) (hblank : isBlank c = true) :
      Escaped multiline [c]

theorem scanUnicode_digits {digits : Str} (hdigit : ∀ c ∈ digits, isHex c = true) (n : ℕ)
    (more : Str) : scanUnicode digits.length n (digits ++ more) =
      scanUnicode 0 (digits.foldl (fun n c => n * 16 + hex c) n) more := by
  induction digits generalizing n with
  | nil => rfl
  | cons c digits ih =>
    have hc : isHex (peek (c :: (digits ++ more))) = true := hdigit c List.mem_cons_self
    rw [List.length_cons, List.cons_append]
    refine (if_pos hc).trans ?_
    exact ih (fun d hd => hdigit d (List.mem_cons_of_mem c hd)) _

theorem Codepoint.scan {count : ℕ} {digits : Str} (h : Codepoint count digits) (more : Str) :
    scanUnicode count 0 (digits ++ more) = ⟨true, utf8Encode (number digits), more⟩ := by
  rw [← h.length, scanUnicode_digits h.digit 0 more, scanUnicode]
  exact if_pos h.valid

theorem digits_of_scan {count n : ℕ} (h : (scanUnicode count n u).ok = true) :
    ∃ digits, u = digits ++ (scanUnicode count n u).rest ∧ digits.length = count ∧
      ∀ c ∈ digits, isHex c = true := by
  induction count generalizing n u with
  | zero =>
    rw [scanUnicode] at h ⊢
    split_ifs at h ⊢ with hvalid
    · exact ⟨[], rfl, rfl, fun c hc => absurd hc List.not_mem_nil⟩
  | succ count ih =>
    rw [scanUnicode] at h ⊢
    split_ifs at h ⊢ with hhex
    · cases u with
      | nil => exact absurd hhex (by decide)
      | cons c u =>
        obtain ⟨digits, hu, hlength, hdigit⟩ := ih h
        refine ⟨c :: digits, congrArg (c :: ·) hu, congrArg Nat.succ hlength, fun d hd => ?_⟩
        obtain rfl | hd := List.mem_cons.1 hd
        · exact hhex
        · exact hdigit d hd

/-- Digits that are read are those of a codepoint. -/
theorem codepoint_of_scan {count : ℕ} (h : (scanUnicode count 0 u).ok = true) :
    ∃ digits, u = digits ++ (scanUnicode count 0 u).rest ∧ Codepoint count digits ∧
      (scanUnicode count 0 u).text = utf8Encode (number digits) := by
  obtain ⟨digits, hu, hlength, hdigit⟩ := digits_of_scan h
  have hscan := scanUnicode_digits hdigit 0 (scanUnicode count 0 u).rest
  rw [hlength, ← hu] at hscan
  have hnumber : scanUnicode 0 (number digits) (scanUnicode count 0 u).rest =
      scanUnicode count 0 u := hscan.symm
  rw [scanUnicode] at hnumber
  split_ifs at hnumber with hvalid
  · exact ⟨digits, hu, ⟨hlength, hdigit, hvalid⟩, (congrArg Unescaped.text hnumber).symm⟩
  · rw [← hnumber] at h
    cases h

theorem unescape_char {d : UInt8} (h : (c, d) ∈ escapes) (more : Str) :
    unescape (c :: more) = ⟨true, [d], more⟩ := by
  have hlookup : escapes.lookup c = some d := by fin_cases h <;> rfl
  simp only [unescape, peek_cons, hlookup, List.tail_cons]

theorem Escape.unescape {e text : Str} (h : Escape e text) (more : Str) :
    unescape (e ++ more) = ⟨true, text, more⟩ := by
  cases h with
  | char h => exact unescape_char h more
  | short h => exact h.scan more
  | long h => exact h.scan more

theorem escape_of_unescape (h : (unescape u).ok = true) :
    ∃ e, u = e ++ (unescape u).rest ∧ Escape e (unescape u).text := by
  cases u with
  | nil => cases h
  | cons c u =>
    rw [Toml.unescape, peek_cons, List.tail_cons] at h ⊢
    cases hlookup : escapes.lookup c with
    | some d =>
      obtain ⟨before, after, heq, -⟩ := List.lookup_eq_some_iff.1 hlookup
      refine ⟨[c], rfl, .char ?_⟩
      rw [heq]
      exact List.mem_append_right _ List.mem_cons_self
    | none =>
      simp only [hlookup] at h ⊢
      split_ifs at h ⊢ with hfour height
      · obtain ⟨digits, hu, hdigits, htext⟩ := codepoint_of_scan h
        rw [htext, hfour]
        exact ⟨_, congrArg (0x75 :: ·) hu, .short hdigits⟩
      · obtain ⟨digits, hu, hdigits, htext⟩ := codepoint_of_scan h
        rw [htext, height]
        exact ⟨_, congrArg (0x55 :: ·) hu, .long hdigits⟩

theorem Escaped.scan {e : Str} (h : Escaped multiline e) (more : Str) :
    scanEscape multiline (e ++ more) = some more := by
  have hcode : ∀ c ∈ [0x75, 0x55], escapeValid c multiline = true := by simp [escapeValid]
  cases h with
  | plain h =>
    cases h with
    | @char c d h =>
      obtain ⟨hvalid, hfour, height⟩ : escapeValid c multiline = true ∧ c ≠ 0x75 ∧ c ≠ 0x55 := by
        fin_cases h <;> exact ⟨rfl, by decide, by decide⟩
      rw [List.singleton_append, scanEscape, peek_cons, if_pos hvalid, if_neg hfour, if_neg height,
        List.tail_cons]
    | short h =>
      have hdigits := h.scan more
      rw [List.cons_append, scanEscape, peek_cons, if_pos (hcode _ (by decide)), if_pos rfl,
        List.tail_cons, scanDigits, hdigits]
      rfl
    | long h =>
      have hdigits := h.scan more
      rw [List.cons_append, scanEscape, peek_cons, if_pos (hcode _ (by decide)),
        if_neg (by decide), if_pos rfl, List.tail_cons, scanDigits, hdigits]
      rfl
  | @blank c hlines hblank =>
    have hvalid : escapeValid c multiline = true := by
      rw [escapeValid, hlines, hblank, Bool.and_true, Bool.or_true]
    have hplain : c ≠ 0x75 ∧ c ≠ 0x55 := by
      constructor <;> (intro heq; rw [heq] at hblank; exact absurd hblank (by decide))
    rw [List.singleton_append, scanEscape, peek_cons, if_pos hvalid, if_neg hplain.1,
      if_neg hplain.2, List.tail_cons]

theorem escaped_of_scan (h : scanEscape multiline u = some r) :
    ∃ e, u = e ++ r ∧ Escaped multiline e := by
  have hdigits : ∀ {count : ℕ} {v : Str}, scanDigits count v = some r →
      ∃ digits, v = digits ++ r ∧ Codepoint count digits := by
    intro count v h
    rw [scanDigits] at h
    split_ifs at h with hok
    obtain ⟨digits, hv, hdigits, -⟩ := codepoint_of_scan hok
    exact ⟨digits, by rwa [← Option.some.inj h], hdigits⟩
  cases u with
  | nil => cases multiline <;> cases h
  | cons c u =>
    rw [scanEscape, peek_cons, List.tail_cons] at h
    split_ifs at h with hvalid hfour height
    · obtain ⟨digits, rfl, hcode⟩ := hdigits h
      rw [hfour]
      exact ⟨0x75 :: digits, rfl, .plain (.short hcode)⟩
    · obtain ⟨digits, rfl, hcode⟩ := hdigits h
      rw [height]
      exact ⟨0x55 :: digits, rfl, .plain (.long hcode)⟩
    · obtain rfl := Option.some.inj h
      refine ⟨[c], rfl, ?_⟩
      rw [escapeValid, Bool.or_eq_true, decide_eq_true_iff, Bool.and_eq_true] at hvalid
      rcases hvalid with hmem | ⟨hlines, hblank⟩
      · have hkey : c ∈ escapes.map Prod.fst := by simpa [escapes, hfour, height] using hmem
        obtain ⟨⟨c, d⟩, hd, rfl⟩ := List.mem_map.1 hkey
        exact .plain (.char hd)
      · exact .blank hlines hblank

/-! ## Strings -/

/-- A mark of strings. -/
def IsMark (c : UInt8) : Prop := c = quote ∨ c = apostrophe

/-- What follows the mark or the three marks at the front of a string. Three to five marks in a row
end a string of several lines, and one or two do not. -/
inductive Inside (mark : UInt8) : Bool → Str → Prop
  | close : Inside mark false [mark]
  | closes {n : ℕ} (hfew : 3 ≤ n) (hmany : n ≤ 5) : Inside mark true (List.replicate n mark)
  | plain {multiline : Bool} {c : UInt8} {rest : Str} (hmark : c ≠ mark)
      (hline : multiline = true ∨ c ≠ newline) (hescape : mark = quote → c ≠ backslash)
      (hrest : Inside mark multiline rest) : Inside mark multiline (c :: rest)
  | escape {multiline : Bool} {e rest : Str} (hmark : mark = quote) (he : Escaped multiline e)
      (hrest : Inside mark multiline rest) : Inside mark multiline (backslash :: (e ++ rest))
  | marks {n : ℕ} {rest : Str} (hone : 1 ≤ n) (hfew : n ≤ 2) (hnext : peek rest ≠ mark)
      (hrest : Inside mark true rest) : Inside mark true (List.replicate n mark ++ rest)

/-- A string, with its marks. -/
inductive StringText (mark : UInt8) : Str → Prop
  | line {rest : Str} (h : Inside mark false rest) : StringText mark (mark :: rest)
  | lines {rest : Str} (h : Inside mark true rest) :
      StringText mark (mark :: mark :: mark :: rest)

theorem IsMark.ne_zero (h : IsMark c) : c ≠ 0 := by
  rcases h with rfl | rfl <;> decide

theorem IsMark.ne_newline (h : IsMark c) : c ≠ newline := by
  rcases h with rfl | rfl <;> decide

theorem IsMark.ne_backslash (h : IsMark c) : c ≠ backslash := by
  rcases h with rfl | rfl <;> decide

theorem span_replicate (n : ℕ) (hmore : peek more ≠ mark) :
    (List.replicate n mark ++ more).takeWhile (· = mark) = List.replicate n mark ∧
      (List.replicate n mark ++ more).dropWhile (· = mark) = more :=
  span_append (fun _ hc => decide_eq_true (List.eq_of_mem_replicate hc))
    (stop_of_peek (p := (· = mark)) (decide_eq_false hmore))

theorem scanStringFrom_marks (hmark : IsMark mark) {fuel n : ℕ} (hn : 1 ≤ n)
    (hmore : peek more ≠ mark) :
    scanStringFrom mark true (fuel + 1) (List.replicate n mark ++ more) =
      if 3 ≤ n then if n ≤ 5 then some more else none
      else scanStringFrom mark true fuel more := by
  obtain ⟨n, rfl⟩ := Nat.exists_eq_add_of_le' hn
  obtain ⟨htake, hdrop⟩ := span_replicate (n + 1) hmore
  rw [List.replicate_succ, List.cons_append] at htake hdrop ⊢
  rw [scanStringFrom]
  dsimp only
  rw [if_neg fun h => hmark.ne_newline h.1, if_neg fun h => hmark.ne_backslash h.1,
    if_neg (not_not.2 rfl), if_neg (by decide), htake, hdrop]
  simp only [List.length_cons, List.length_replicate]

theorem Inside.ne_nil (h : Inside mark multiline w) : w ≠ [] := by
  cases h with
  | close => exact List.cons_ne_nil _ _
  | @closes n hfew => exact List.ne_nil_of_length_pos (by rw [List.length_replicate]; omega)
  | plain => exact List.cons_ne_nil _ _
  | escape => exact List.cons_ne_nil _ _
  | @marks n rest hone =>
    refine List.ne_nil_of_length_pos ?_
    rw [List.length_append, List.length_replicate]
    omega

/-- The rest of a string is scanned in front of anything but one more mark. -/
theorem Inside.scan (hmark : IsMark mark) (h : Inside mark multiline w) {fuel : ℕ}
    (hfuel : w.length ≤ fuel) (hmore : multiline = true → peek more ≠ mark) :
    scanStringFrom mark multiline fuel (w ++ more) = some more := by
  induction h generalizing fuel with
  | close =>
    obtain ⟨fuel, rfl⟩ := Nat.exists_eq_add_of_le' (show 1 ≤ fuel from hfuel)
    rw [List.singleton_append, scanStringFrom, if_neg fun h => hmark.ne_newline h.1,
      if_neg fun h => hmark.ne_backslash h.1, if_neg (not_not.2 rfl), if_pos rfl]
  | @closes n hfew hmany =>
    rw [List.length_replicate] at hfuel
    obtain ⟨fuel, rfl⟩ := Nat.exists_eq_add_of_le' (show 1 ≤ fuel by omega)
    rw [scanStringFrom_marks hmark (by omega) (hmore rfl), if_pos hfew, if_pos hmany]
  | @plain multiline c rest hc hline hescape _ ih =>
    obtain ⟨fuel, rfl⟩ := Nat.exists_eq_add_of_le' (show 1 ≤ fuel from
      Nat.le_trans (by simp) hfuel)
    have hnewline : ¬(c = newline ∧ multiline = false) := fun ⟨heq, hone⟩ =>
      hline.elim (fun hlines => by rw [hone] at hlines; cases hlines) fun hne => hne heq
    rw [List.cons_append, scanStringFrom, if_neg hnewline, if_neg fun h => hescape h.2 h.1,
      if_pos hc, ih (Nat.le_of_succ_le_succ hfuel) hmore]
  | @escape multiline e rest hquote he _ ih =>
    obtain ⟨fuel, rfl⟩ := Nat.exists_eq_add_of_le' (show 1 ≤ fuel from
      Nat.le_trans (by simp) hfuel)
    rw [List.length_cons, List.length_append] at hfuel
    have hnewline : backslash ≠ newline := by decide
    rw [List.cons_append, List.append_assoc, scanStringFrom, if_neg fun h => hnewline h.1,
      if_pos ⟨rfl, hquote⟩, he.scan, Option.bind_some, ih (by omega) hmore]
  | @marks n rest hone hfew hnext hrest ih =>
    rw [List.length_append, List.length_replicate] at hfuel
    obtain ⟨fuel, rfl⟩ := Nat.exists_eq_add_of_le' (show 1 ≤ fuel by omega)
    have hpeek : peek (rest ++ more) ≠ mark := by rwa [peek_append hrest.ne_nil]
    rw [List.append_assoc, scanStringFrom_marks hmark hone hpeek, if_neg (by omega),
      ih (by omega) hmore]

/-- The marks in a row at the front of a text. -/
theorem marks_split (hmark : IsMark mark) (u : Str) :
    u.takeWhile (· = mark) = List.replicate (u.takeWhile (· = mark)).length mark ∧
      peek (u.dropWhile (· = mark)) ≠ mark := by
  refine ⟨List.eq_replicate_of_mem fun c hc => ?_, ?_⟩
  · simpa using List.mem_takeWhile_imp hc
  · simpa using peek_dropWhile (p := (· = mark)) (decide_eq_false hmark.ne_zero.symm) u

/-- What is scanned as the rest of a string is one, and takes all the marks at its end. -/
theorem inside_of_scan (hmark : IsMark mark) {fuel : ℕ}
    (h : scanStringFrom mark multiline fuel u = some r) :
    ∃ w, u = w ++ r ∧ Inside mark multiline w ∧ (multiline = true → peek r ≠ mark) := by
  induction fuel generalizing u with
  | zero => cases h
  | succ fuel ih =>
    cases u with
    | nil => cases h
    | cons c u =>
      rw [scanStringFrom] at h
      dsimp only at h
      split_ifs at h with hnewline hescape hplain hone hfew hmany
      · obtain ⟨v, hv, hrest⟩ := Option.bind_eq_some_iff.1 h
        obtain ⟨e, rfl, he⟩ := escaped_of_scan hv
        obtain ⟨w, rfl, hw, hpeek⟩ := ih hrest
        obtain ⟨rfl, hquote⟩ := hescape
        exact ⟨backslash :: (e ++ w), by simp, .escape hquote he hw, hpeek⟩
      · obtain ⟨w, rfl, hw, hpeek⟩ := ih h
        refine ⟨c :: w, rfl, .plain hplain ?_ (fun hquote heq => hescape ⟨heq, hquote⟩) hw, hpeek⟩
        cases multiline with
        | true => exact .inl rfl
        | false => exact .inr fun heq => hnewline ⟨heq, rfl⟩
      · obtain rfl := Option.some.inj h
        obtain rfl := not_not.1 hplain
        rw [hone]
        exact ⟨[c], rfl, .close, nofun⟩
      all_goals
        obtain rfl : multiline = true := by simpa using hone
        obtain ⟨hmarks, hpeek⟩ := marks_split hmark (c :: u)
        have hu := (List.takeWhile_append_dropWhile (p := (· = mark)) (l := c :: u)).symm
        have hlength : 1 ≤ ((c :: u).takeWhile (· = mark)).length := by
          rw [List.takeWhile_cons_of_pos (by simpa using hplain)]
          exact Nat.succ_pos _
      · obtain rfl := Option.some.inj h
        refine ⟨_, hu, ?_, fun _ => hpeek⟩
        rw [hmarks]
        exact .closes hfew hmany
      · obtain ⟨w, hw, hinside, hlast⟩ := ih h
        refine ⟨(c :: u).takeWhile (· = mark) ++ w, by rw [List.append_assoc, ← hw, ← hu], ?_,
          hlast⟩
        have hnext : peek w ≠ mark := by
          rwa [hw, peek_append hinside.ne_nil] at hpeek
        rw [hmarks]
        exact .marks hlength (by omega) hnext hinside

theorem Inside.cases_line (hmark : IsMark mark) (h : Inside mark false w) :
    w = [mark] ∨ peek w ≠ mark := by
  cases h with
  | close => exact .inl rfl
  | plain hc => exact .inr hc
  | escape hquote => exact .inr fun heq => hmark.ne_backslash heq.symm

theorem Inside.not_multiline (hmark : IsMark mark) (h : Inside mark false w)
    (hmore : w = [mark] → peek more ≠ mark) : isMultiline (mark :: w ++ more) = false := by
  rw [isMultiline, Bool.and_eq_false_iff]
  rcases h.cases_line hmark with rfl | hpeek
  · exact .inr (decide_eq_false (hmore rfl))
  · refine .inl (decide_eq_false fun heq => hpeek ?_)
    rw [← peek_append h.ne_nil more]
    exact heq

/-- A string is scanned where no mark follows that would be one of its own. -/
theorem StringText.scan (hmark : IsMark mark) {s : Str} (h : StringText mark s)
    (hmore : peekAt s 1 = mark → peek more ≠ mark) : scanString (s ++ more) = some more := by
  cases h with
  | @line rest hrest =>
    have hone : isMultiline (mark :: rest ++ more) = false :=
      hrest.not_multiline hmark fun heq => hmore (by rw [heq]; rfl)
    rw [scanString, hone]
    exact hrest.scan hmark (by simp; omega) nofun
  | @lines rest hrest =>
    have hthree : isMultiline (mark :: mark :: mark :: rest ++ more) = true := by
      simp [isMultiline, peekAt, peek]
    rw [scanString, hthree]
    exact hrest.scan hmark (by simp; omega) fun _ => hmore rfl

/-- What is scanned as a string is one. -/
theorem string_of_scan (hmark : IsMark (peek u)) (h : scanString u = some r) :
    ∃ s, u = s ++ r ∧ StringText (peek u) s ∧ (peekAt s 1 = peek u → peek r ≠ peek u) := by
  rw [scanString] at h
  obtain ⟨w, hw, hinside, hlast⟩ := inside_of_scan hmark h
  cases u with
  | nil => exact absurd rfl hmark.ne_zero
  | cons c u =>
    cases hmulti : isMultiline (c :: u) with
    | false =>
      rw [hmulti] at hw hinside
      obtain rfl : u = w ++ r := hw
      refine ⟨c :: w, rfl, .line hinside, fun hone hpeek => ?_⟩
      obtain rfl : w = [c] := (hinside.cases_line hmark).resolve_right fun hne => hne hone
      have hthree : isMultiline (c :: ([c] ++ r)) = true := by
        rw [isMultiline, Bool.and_eq_true, decide_eq_true_iff, decide_eq_true_iff]
        exact ⟨rfl, hpeek⟩
      rw [hmulti] at hthree
      cases hthree
    | true =>
      rw [hmulti] at hw hinside hlast
      rw [isMultiline, Bool.and_eq_true, decide_eq_true_iff, decide_eq_true_iff] at hmulti
      obtain ⟨hone, htwo⟩ := hmulti
      match u, hone, htwo with
      | [], hone, _ => exact absurd hone.symm hmark.ne_zero
      | [_], _, htwo => exact absurd htwo.symm hmark.ne_zero
      | d :: e :: u, hone, htwo =>
        obtain rfl : d = c := hone
        obtain rfl : e = d := htwo
        obtain rfl : u = w ++ r := hw
        exact ⟨e :: e :: e :: w, rfl, .lines hinside, fun _ => hlast rfl⟩

theorem StringText.cons (h : StringText mark w) : ∃ rest, w = mark :: rest := by
  cases h with
  | line => exact ⟨_, rfl⟩
  | lines => exact ⟨_, rfl⟩

theorem StringText.length (h : StringText mark w) : 2 ≤ w.length := by
  cases h with
  | line hrest =>
    have := List.length_pos_of_ne_nil hrest.ne_nil
    rw [List.length_cons]
    omega
  | lines hrest => simp

/-! ## Arrays -/

/-- What stands between the brackets of an array. The newline after a comment ends it. -/
inductive Items : Str → Prop
  | nil : Items []
  | plain {c : UInt8} {rest : Str} (hmark : ¬IsMark c) (hhash : c ≠ hash) (hleft : c ≠ leftBracket)
      (hright : c ≠ rightBracket) (hrest : Items rest) : Items (c :: rest)
  | comment {text rest : Str} (htext : newline ∉ text) (hrest : Items (newline :: rest)) :
      Items (hash :: (text ++ newline :: rest))
  | string {mark : UInt8} {s rest : Str} (hmark : IsMark mark) (hs : StringText mark s)
      (hnext : peekAt s 1 = mark → peek rest ≠ mark) (hrest : Items rest) : Items (s ++ rest)
  | array {items rest : Str} (hitems : Items items) (hrest : Items rest) :
      Items (leftBracket :: (items ++ rightBracket :: rest))

theorem scanArray_mono {fuel fuel' depth : ℕ} (h : scanArray fuel depth u = some r)
    (hle : fuel ≤ fuel') : scanArray fuel' depth u = some r := by
  induction fuel generalizing fuel' depth u with
  | zero => cases h
  | succ fuel ih =>
    obtain ⟨fuel', rfl⟩ := Nat.exists_eq_add_of_le' (Nat.le_trans (by omega : 1 ≤ fuel + 1) hle)
    have hle' : fuel ≤ fuel' := by omega
    cases u with
    | nil => cases h
    | cons c u =>
      rw [scanArray] at h ⊢
      split_ifs at h ⊢ with hmark hhash hleft hright hlast
      · obtain ⟨v, hv, hrest⟩ := Option.bind_eq_some_iff.1 h
        exact Option.bind_eq_some_iff.2 ⟨v, hv, ih hrest hle'⟩
      · exact ih h hle'
      · exact ih h hle'
      · exact h
      · exact ih h hle'
      · exact ih h hle'

theorem isMark_iff : (c = quote || c = apostrophe) = true ↔ IsMark c := by
  simp [IsMark]

theorem not_isMark_rightBracket : ¬IsMark rightBracket := by
  unfold IsMark
  decide

/-- What stands in an array is gone over up to the bracket behind it. -/
theorem Items.scan (h : Items w) {fuel fuel' depth : ℕ}
    (hmore : scanArray fuel (depth + 1) (rightBracket :: more) = some r)
    (hfuel : fuel + w.length ≤ fuel') :
    scanArray fuel' (depth + 1) (w ++ rightBracket :: more) = some r := by
  induction h generalizing fuel fuel' depth more with
  | nil => exact scanArray_mono hmore (by simpa using hfuel)
  | @plain c rest hmark hhash hleft hright _ ih =>
    rw [List.length_cons] at hfuel
    obtain ⟨fuel', rfl⟩ := Nat.exists_eq_add_of_le' (show 1 ≤ fuel' by omega)
    rw [List.cons_append, scanArray, if_neg (isMark_iff.not.2 hmark), if_neg hhash, if_neg hleft,
      if_neg hright]
    exact ih hmore (by omega)
  | @comment text rest htext _ ih =>
    rw [List.length_cons, List.length_append] at hfuel
    obtain ⟨fuel', rfl⟩ := Nat.exists_eq_add_of_le' (show 1 ≤ fuel' by omega)
    have hinside : ∀ c ∈ text, decide (c ≠ newline) = true := fun c hc =>
      decide_eq_true fun heq => htext (heq ▸ hc)
    have hskip : skipComment (hash :: (text ++ newline :: (rest ++ rightBracket :: more))) =
        newline :: (rest ++ rightBracket :: more) := by
      rw [skipComment_hash, List.dropWhile_append_of_pos hinside,
        List.dropWhile_cons_of_neg (by simp)]
    have hhash : (hash = quote || hash = apostrophe) = false := by decide
    rw [List.cons_append, List.append_assoc, List.cons_append, scanArray, hhash, if_neg (by decide),
      if_pos rfl, hskip]
    exact ih hmore (by rw [List.length_cons] at hfuel ⊢; omega)
  | @string mark s rest hmark hs hnext _ ih =>
    have hlength := hs.length
    rw [List.length_append] at hfuel
    obtain ⟨fuel', rfl⟩ := Nat.exists_eq_add_of_le' (show 1 ≤ fuel' by omega)
    have hfollow : peekAt s 1 = mark → peek (rest ++ rightBracket :: more) ≠ mark := fun hone => by
      cases rest with
      | nil =>
        intro heq
        exact not_isMark_rightBracket (show IsMark (peek ([] ++ rightBracket :: more)) from
          heq.symm ▸ hmark)
      | cons d rest => exact hnext hone
    have hscan := hs.scan hmark hfollow
    obtain ⟨s, rfl⟩ := hs.cons
    rw [List.cons_append] at hscan
    rw [List.append_assoc, List.cons_append, scanArray, if_pos (isMark_iff.2 hmark), hscan,
      Option.bind_some]
    exact ih hmore (by omega)
  | @array items rest _ _ ihItems ih =>
    rw [List.length_cons, List.length_append, List.length_cons] at hfuel
    obtain ⟨fuel', rfl⟩ := Nat.exists_eq_add_of_le' (show 1 ≤ fuel' by omega)
    have hrest : scanArray (fuel + rest.length + 1) (depth + 2)
        (rightBracket :: (rest ++ rightBracket :: more)) = some r := by
      rw [scanArray, if_neg (isMark_iff.not.2 not_isMark_rightBracket), if_neg (by decide),
        if_neg (by decide), if_pos rfl, if_neg (by omega)]
      exact ih hmore le_rfl
    have hleft : (leftBracket = quote || leftBracket = apostrophe) = false := by decide
    rw [List.cons_append, List.append_assoc, List.cons_append, scanArray, hleft,
      if_neg (by decide), if_neg (by decide), if_pos rfl]
    exact ihItems hrest (by omega)

/-- An array is scanned in front of anything. -/
theorem Items.array_scan (h : Items w) {fuel : ℕ} (hfuel : w.length + 2 ≤ fuel) (more : Str) :
    scanArray fuel 0 (leftBracket :: (w ++ rightBracket :: more)) = some more := by
  obtain ⟨fuel, rfl⟩ := Nat.exists_eq_add_of_le' (show 1 ≤ fuel by omega)
  have hleft : (leftBracket = quote || leftBracket = apostrophe) = false := by decide
  have hend : scanArray 1 1 (rightBracket :: more) = some more := by
    rw [scanArray, if_neg (isMark_iff.not.2 not_isMark_rightBracket), if_neg (by decide),
      if_neg (by decide), if_pos rfl, if_pos rfl]
  rw [scanArray, hleft, if_neg (by decide), if_neg (by decide), if_pos rfl]
  exact h.scan hend (by omega)

/-- A comment goes up to the newline: the bracket behind an array is not in it. -/
theorem Items.after_comment (h : Items w) {v : Str}
    (hrest : u.dropWhile (· ≠ newline) = w ++ rightBracket :: v) :
    Items (hash :: u.takeWhile (· ≠ newline) ++ w) := by
  have htext : newline ∉ u.takeWhile (· ≠ newline) := fun hmem => by
    simpa using List.mem_takeWhile_imp hmem
  cases w with
  | nil =>
    have hhead : rightBracket ∈ (u.dropWhile (· ≠ newline)).head? := by
      rw [hrest]
      rfl
    exact absurd (head?_dropWhile hhead) (by decide)
  | cons d w =>
    have hhead : d ∈ (u.dropWhile (· ≠ newline)).head? := by
      rw [hrest]
      rfl
    obtain rfl : d = newline := by simpa using head?_dropWhile hhead
    exact .comment htext h

/-- What is gone over up to the bracket that closes the innermost array. -/
theorem items_of_scan {fuel depth : ℕ} (h : scanArray fuel (depth + 1) u = some r) :
    ∃ w v, Items w ∧ u = w ++ rightBracket :: v ∧
      (depth = 0 ∧ v = r ∨ ∃ fuel' < fuel, 0 < depth ∧ scanArray fuel' depth v = some r) := by
  induction fuel using Nat.strong_induction_on generalizing depth u with
  | _ fuel ih =>
    cases fuel with
    | zero => cases h
    | succ fuel =>
      cases u with
      | nil => cases h
      | cons c u =>
        -- what is gone over after a piece of the array
        have hnext : ∀ v, scanArray fuel (depth + 1) v = some r →
            (∀ w, Items w → (∃ v', v = w ++ rightBracket :: v') → ∃ w',
              Items (w' ++ w) ∧ c :: u = w' ++ v) → ∃ w v, Items w ∧
              c :: u = w ++ rightBracket :: v ∧ (depth = 0 ∧ v = r ∨
                ∃ fuel' < fuel + 1, 0 < depth ∧ scanArray fuel' depth v = some r) := by
          intro v hv hpiece
          obtain ⟨w, v', hw, rfl, hrest⟩ := ih fuel (Nat.lt_succ_self fuel) hv
          obtain ⟨w', hw', heq⟩ := hpiece w hw ⟨v', rfl⟩
          refine ⟨w' ++ w, v', hw', by rw [heq, List.append_assoc], hrest.imp_right ?_⟩
          intro ⟨fuel', hlt, hdepth⟩
          exact ⟨fuel', by omega, hdepth⟩
        rw [scanArray] at h
        split_ifs at h with hmark hhash hleft hright hlast
        · obtain ⟨v, hv, hrest⟩ := Option.bind_eq_some_iff.1 h
          have hc : IsMark c := isMark_iff.1 hmark
          obtain ⟨s, hs, htext, hfollow⟩ := string_of_scan (u := c :: u) hc hv
          refine hnext v hrest fun w hw ⟨v', hv'⟩ =>
            ⟨s, .string hc htext (fun hone heq => ?_) hw, hs⟩
          cases w with
          | nil => exact hc.ne_zero heq.symm
          | cons d w =>
            rw [hv'] at hfollow
            exact hfollow hone heq
        · subst hhash
          rw [skipComment_hash] at h
          refine hnext _ h fun w hw ⟨v', hv'⟩ => ?_
          have hu := (List.takeWhile_append_dropWhile (p := (· ≠ newline)) (l := u)).symm
          exact ⟨hash :: u.takeWhile (· ≠ newline), hw.after_comment hv',
            congrArg (hash :: ·) hu⟩
        · subst hleft
          obtain ⟨w₁, v₁, hw₁, rfl, hclosed⟩ := ih fuel (Nat.lt_succ_self fuel) h
          obtain ⟨hzero, -⟩ | ⟨fuel', hlt, -, hrest⟩ := hclosed
          · cases hzero
          obtain ⟨w₂, v₂, hw₂, rfl, hdone⟩ := ih fuel' (by omega) hrest
          refine ⟨leftBracket :: (w₁ ++ rightBracket :: w₂), v₂, .array hw₁ hw₂, by simp,
            hdone.imp_right ?_⟩
          intro ⟨fuel'', hlt', hdepth⟩
          exact ⟨fuel'', by omega, hdepth⟩
        · subst hright
          obtain rfl := Option.some.inj h
          exact ⟨[], u, .nil, rfl, .inl ⟨by omega, rfl⟩⟩
        · subst hright
          refine ⟨[], u, .nil, rfl, .inr ⟨fuel, Nat.lt_succ_self fuel, by omega, ?_⟩⟩
          simpa using h
        · exact hnext u h fun w hw _ =>
            ⟨[c], .plain (isMark_iff.not.1 hmark) hhash hleft hright hw, rfl⟩

/-- What is scanned as an array is one. -/
theorem array_of_scan {fuel : ℕ} (h : scanArray fuel 0 (leftBracket :: u) = some r) :
    ∃ w, Items w ∧ u = w ++ rightBracket :: r := by
  cases fuel with
  | zero => cases h
  | succ fuel =>
    have hleft : (leftBracket = quote || leftBracket = apostrophe) = false := by decide
    rw [scanArray, hleft, if_neg (by decide), if_neg (by decide), if_pos rfl] at h
    obtain ⟨w, v, hw, hu, ⟨-, rfl⟩ | ⟨-, -, hzero, -⟩⟩ := items_of_scan h
    · exact ⟨w, hw, hu⟩
    · exact absurd hzero (Nat.lt_irrefl 0)

/-! ## Keys -/

/-- What stands between the quotes of a segment, and what it says. -/
inductive Basic : Str → Str → Prop
  | nil : Basic [] []
  | plain {c : UInt8} {rest text : Str} (hline : c ≠ newline) (hquote : c ≠ quote)
      (hescape : c ≠ backslash) (hrest : Basic rest text) : Basic (c :: rest) (c :: text)
  | escape {e said rest text : Str} (he : Escape e said) (hrest : Basic rest text) :
      Basic (backslash :: (e ++ rest)) (said ++ text)

/-- A segment of a key, and its text. -/
inductive Segment : Str → Str → Prop
  | bare {key : Str} (hne : key ≠ []) (hbare : ∀ c ∈ key, isBare c = true) : Segment key key
  | literal {key : Str} (hmark : apostrophe ∉ key) (hline : newline ∉ key) :
      Segment key (apostrophe :: (key ++ [apostrophe]))
  | basic {key inner : Str} (h : Basic inner key) : Segment key (quote :: (inner ++ [quote]))

/-- White space. -/
def Space (s : Str) : Prop := ∀ c ∈ s, isWhitespace c = true

theorem space_nil : Space [] := fun _ hc => absurd hc List.not_mem_nil

theorem space_blank : Space [0x20] := by
  intro c hc
  obtain rfl := List.mem_singleton.1 hc
  rfl

/-- The segments of a key and its text, with white space around each of them. -/
inductive Key : List Str → Str → Prop
  | last {key lead text trail : Str} (hlead : Space lead) (h : Segment key text)
      (htrail : Space trail) : Key [key] (lead ++ (text ++ trail))
  | dotted {key lead text trail rest : Str} {path : List Str} (hlead : Space lead)
      (h : Segment key text) (htrail : Space trail) (hrest : Key path rest) :
      Key (key :: path) (lead ++ (text ++ (trail ++ dot :: rest)))

theorem Basic.parse {inner text : Str} (h : Basic inner text) {fuel : ℕ}
    (hfuel : inner.length < fuel) (more : Str) :
    parseBasicFrom fuel (inner ++ quote :: more) = some (text, more) := by
  induction h generalizing fuel with
  | nil =>
    obtain ⟨fuel, rfl⟩ := Nat.exists_eq_add_of_le' (show 1 ≤ fuel from hfuel)
    rw [List.nil_append, parseBasicFrom, if_neg (by decide), if_pos rfl]
  | @plain c rest text hline hquote hescape _ ih =>
    rw [List.length_cons] at hfuel
    obtain ⟨fuel, rfl⟩ := Nat.exists_eq_add_of_le' (show 1 ≤ fuel by omega)
    rw [List.cons_append, parseBasicFrom, if_neg hline, if_neg hquote, if_neg hescape,
      ih (by omega)]
    rfl
  | @escape e said rest text he _ ih =>
    rw [List.length_cons, List.length_append] at hfuel
    obtain ⟨fuel, rfl⟩ := Nat.exists_eq_add_of_le' (show 1 ≤ fuel by omega)
    rw [List.cons_append, List.append_assoc, parseBasicFrom, if_neg (by decide),
      if_neg (by decide), if_pos rfl, he.unescape, if_pos rfl, ih (by omega)]
    rfl

theorem basic_of_parse {fuel : ℕ} {text : Str} (h : parseBasicFrom fuel u = some (text, r)) :
    ∃ inner, u = inner ++ quote :: r ∧ Basic inner text := by
  induction fuel generalizing u text with
  | zero => cases h
  | succ fuel ih =>
    cases u with
    | nil => cases h
    | cons c u =>
      rw [parseBasicFrom] at h
      split_ifs at h with hnewline hquote hbackslash hok
      · obtain ⟨rfl, rfl⟩ := Prod.mk.inj (Option.some.inj h)
        exact ⟨[], by rw [hquote]; rfl, .nil⟩
      · obtain ⟨⟨rest, v⟩, hrest, heq⟩ := Option.map_eq_some_iff.1 h
        obtain ⟨rfl, rfl⟩ := Prod.mk.inj heq
        obtain ⟨e, hu, he⟩ := escape_of_unescape hok
        obtain ⟨inner, hv, hinner⟩ := ih hrest
        refine ⟨backslash :: (e ++ inner), ?_, .escape he hinner⟩
        rw [hbackslash, List.cons_append, List.append_assoc, ← hv, ← hu]
      · obtain ⟨⟨rest, v⟩, hrest, heq⟩ := Option.map_eq_some_iff.1 h
        obtain ⟨rfl, rfl⟩ := Prod.mk.inj heq
        obtain ⟨inner, hv, hinner⟩ := ih hrest
        exact ⟨c :: inner, congrArg (c :: ·) hv, .plain hnewline hquote hbackslash hinner⟩

theorem isBare_ne (h : isBare c = true) : c ≠ quote ∧ c ≠ apostrophe ∧ isWhitespace c = false := by
  refine ⟨fun heq => ?_, fun heq => ?_, ?_⟩
  · rw [heq] at h
    exact absurd h (by decide)
  · rw [heq] at h
    exact absurd h (by decide)
  · by_contra hspace
    rw [Bool.not_eq_false, isWhitespace, Bool.or_eq_true, decide_eq_true_iff,
      decide_eq_true_iff] at hspace
    rcases hspace with rfl | rfl <;> exact absurd h (by decide)

/-- A segment is read in front of anything that does not go on with it. -/
theorem Segment.parse {key text : Str} (h : Segment key text) (hmore : isBare (peek more) = false) :
    parseSegment (text ++ more) = some (key, more) := by
  cases h with
  | bare hne hbare =>
    obtain ⟨htake, hdrop⟩ := span_append hbare (stop_of_peek hmore)
    obtain ⟨c, rest, rfl⟩ := List.exists_cons_of_ne_nil hne
    obtain ⟨hquote, happ, -⟩ := isBare_ne (hbare c List.mem_cons_self)
    have hpeek : peek (c :: rest ++ more) = c := rfl
    rw [parseSegment, hpeek, if_neg hquote, if_neg happ, htake, hdrop, if_neg hne]
  | literal hmark hline =>
    have htake : (key ++ apostrophe :: more).takeWhile
        (fun c => c ≠ apostrophe && c ≠ newline) = key := by
      refine (span_append (fun c hc => ?_) (stop_of_peek (by simp))).1
      have happ : c ≠ apostrophe := fun heq => hmark (heq ▸ hc)
      have hnewline : c ≠ newline := fun heq => hline (heq ▸ hc)
      simp [happ, hnewline]
    rw [List.cons_append, List.append_assoc, List.singleton_append, parseSegment, peek_cons,
      if_neg (by decide), if_pos rfl, parseLiteral, List.tail_cons, htake, List.drop_left,
      accept_cons]
    rfl
  | basic h =>
    rw [List.cons_append, List.append_assoc, List.singleton_append, parseSegment, peek_cons,
      if_pos rfl, parseBasic, List.tail_cons]
    exact h.parse (by simp) more

theorem segment_of_parse {key : Str} (h : parseSegment u = some (key, r)) :
    ∃ text, u = text ++ r ∧ Segment key text := by
  rw [parseSegment] at h
  split_ifs at h with hquote happ hbare
  · cases u with
    | nil => cases hquote
    | cons c u =>
      obtain rfl : c = quote := hquote
      obtain ⟨inner, hu, hinner⟩ := basic_of_parse h
      rw [List.tail_cons] at hu
      exact ⟨quote :: (inner ++ [quote]), by rw [hu]; simp, .basic hinner⟩
  · cases u with
    | nil => cases happ
    | cons c u =>
      obtain rfl : c = apostrophe := happ
      rw [parseLiteral, List.tail_cons] at h
      obtain ⟨left, hleft, heq⟩ := Option.map_eq_some_iff.1 h
      obtain ⟨rfl, rfl⟩ := Prod.mk.inj heq
      set inside : UInt8 → Bool := fun c => c ≠ apostrophe && c ≠ newline with hinside
      have hdrop := accept_some hleft (by decide)
      have hu := List.take_append_drop (u.takeWhile inside).length u
      rw [hdrop, ← List.prefix_iff_eq_take.1 (List.takeWhile_prefix inside)] at hu
      have hall : ∀ c ∈ u.takeWhile inside, c ≠ apostrophe ∧ c ≠ newline := fun c hc => by
        simpa [hinside] using List.mem_takeWhile_imp hc
      refine ⟨apostrophe :: (u.takeWhile inside ++ [apostrophe]), ?_,
        .literal (fun hmem => (hall _ hmem).1 rfl) fun hmem => (hall _ hmem).2 rfl⟩
      conv_lhs => rw [← hu]
      simp
  · obtain ⟨rfl, rfl⟩ := Prod.mk.inj (Option.some.inj h)
    exact ⟨u.takeWhile isBare, List.takeWhile_append_dropWhile.symm,
      .bare hbare fun c hc => List.mem_takeWhile_imp hc⟩

/-- What does not go on with a key. -/
structure EndsKey (more : Str) : Prop where
  bare : isBare (peek more) = false
  space : isWhitespace (peek more) = false
  dot : peek more ≠ dot

theorem endsKey_equals (more : Str) : EndsKey (equals :: more) :=
  ⟨rfl, rfl, show equals ≠ Toml.dot by decide⟩

theorem endsKey_rightBracket (more : Str) : EndsKey (rightBracket :: more) :=
  ⟨rfl, rfl, show rightBracket ≠ Toml.dot by decide⟩

theorem Segment.start {key text : Str} (h : Segment key text) :
    text ≠ [] ∧ isWhitespace (peek text) = false := by
  cases h with
  | bare hne hbare =>
    obtain ⟨c, key, rfl⟩ := List.exists_cons_of_ne_nil hne
    exact ⟨hne, (isBare_ne (hbare c List.mem_cons_self)).2.2⟩
  | literal => exact ⟨List.cons_ne_nil _ _, rfl⟩
  | basic => exact ⟨List.cons_ne_nil _ _, rfl⟩

theorem Space.skip {s : Str} (h : Space s) (hmore : isWhitespace (peek more) = false) :
    skipWhitespace (s ++ more) = more := by
  rw [skipWhitespace, List.dropWhile_append_of_pos h]
  cases more with
  | nil => rfl
  | cons c more => exact List.dropWhile_cons_of_neg (by simpa using hmore)

theorem Space.bare {s : Str} (h : Space s) (hmore : isBare (peek more) = false) :
    isBare (peek (s ++ more)) = false := by
  cases s with
  | nil => exact hmore
  | cons c s =>
    by_contra hbare
    have hspace := h c List.mem_cons_self
    rw [(isBare_ne (by simpa using hbare)).2.2] at hspace
    cases hspace

/-- A segment and the white space around it are read in front of what goes on with neither. -/
theorem Segment.around {key lead text trail : Str} (h : Segment key text) (hlead : Space lead)
    (htrail : Space trail) (hbare : isBare (peek more) = false)
    (hspace : isWhitespace (peek more) = false) :
    parseSegment (skipWhitespace (lead ++ (text ++ (trail ++ more)))) =
      some (key, trail ++ more) ∧ skipWhitespace (trail ++ more) = more := by
  obtain ⟨hne, hstart⟩ := h.start
  rw [hlead.skip (by rwa [peek_append hne])]
  exact ⟨h.parse (htrail.bare hbare), htrail.skip hspace⟩

theorem Key.parseFrom {path : List Str} (h : Key path w) (hmore : EndsKey more) {fuel : ℕ}
    (hfuel : path.length ≤ fuel) : parseKeyFrom fuel (w ++ more) = some (path, more) := by
  induction h generalizing fuel with
  | last hlead hsegment htrail =>
    obtain ⟨fuel, rfl⟩ := Nat.exists_eq_add_of_le' (show 1 ≤ fuel from hfuel)
    obtain ⟨hread, hskip⟩ := hsegment.around hlead htrail hmore.bare hmore.space
    rw [List.append_assoc, List.append_assoc, parseKeyFrom, hread, Option.bind_some]
    simp only [hskip, accept, if_neg hmore.dot]
  | @dotted key lead text trail rest path hlead hsegment htrail _ ih =>
    obtain ⟨fuel, rfl⟩ := Nat.exists_eq_add_of_le' (show 1 ≤ fuel from
      Nat.le_trans (by simp) hfuel)
    obtain ⟨hread, hskip⟩ := @Segment.around (dot :: (rest ++ more)) _ _ _ _ hsegment hlead htrail
      rfl rfl
    have hrest := @ih fuel (Nat.le_of_succ_le_succ hfuel)
    have htext : lead ++ (text ++ (trail ++ dot :: rest)) ++ more =
        lead ++ (text ++ (trail ++ dot :: (rest ++ more))) := by simp
    rw [htext, parseKeyFrom, hread, Option.bind_some]
    simp only [hskip, accept_cons, hrest]
    rfl

theorem Key.text_ne {path : List Str} (h : Key path w) : w ≠ [] := by
  cases h with
  | last _ hsegment => simp [hsegment.start.1]
  | dotted => simp

theorem Key.length {path : List Str} (h : Key path w) : path.length ≤ w.length + 1 := by
  induction h with
  | last => simp
  | dotted _ _ _ _ ih =>
    simp only [List.length_cons, List.length_append]
    omega

/-- A key is read in front of what does not go on with it. -/
theorem Key.parse {path : List Str} (h : Key path w) (hmore : EndsKey more) :
    parseKey (w ++ more) = some (path, more) := by
  refine h.parseFrom hmore ?_
  have := h.length
  rw [List.length_append]
  omega

theorem key_of_parseFrom {fuel : ℕ} {path : List Str} (h : parseKeyFrom fuel u = some (path, r)) :
    ∃ w, u = w ++ r ∧ Key path w := by
  induction fuel generalizing u path with
  | zero => cases h
  | succ fuel ih =>
    rw [parseKeyFrom] at h
    obtain ⟨⟨key, left⟩, hsegment, hrest⟩ := Option.bind_eq_some_iff.1 h
    obtain ⟨lead, hu, hlead⟩ := skipWhitespace_split u
    obtain ⟨text, htext, hkey⟩ := segment_of_parse hsegment
    obtain ⟨trail, hleft, htrail⟩ := skipWhitespace_split left
    dsimp only at hrest
    split at hrest
    · rename_i next hdot
      obtain ⟨⟨others, last⟩, hothers, heq⟩ := Option.map_eq_some_iff.1 hrest
      obtain ⟨rfl, rfl⟩ := Prod.mk.inj heq
      obtain ⟨w, hnext, hw⟩ := ih hothers
      refine ⟨lead ++ (text ++ (trail ++ dot :: w)), ?_, .dotted hlead hkey htrail hw⟩
      rw [hu, htext, hleft, accept_some hdot (by decide), hnext]
      simp
    · obtain ⟨rfl, rfl⟩ := Prod.mk.inj (Option.some.inj hrest)
      refine ⟨lead ++ (text ++ trail), ?_, .last hlead hkey htrail⟩
      conv_lhs => rw [hu, htext, hleft]
      simp

/-- What is read as a key is one. -/
theorem key_of_parse {path : List Str} (h : parseKey u = some (path, r)) :
    ∃ w, u = w ++ r ∧ Key path w := key_of_parseFrom h

/-! ## Ends of lines -/

/-- A comment, or nothing. -/
inductive Comment : Str → Prop
  | none : Comment []
  | text {text : Str} (h : newline ∉ text) : Comment (hash :: text)

/-- A line end, as one is written. -/
def IsEol (eol : Str) : Prop := eol = [newline] ∨ eol = [carriageReturn, newline]

/-- The end of a line, with its line end. -/
inductive Ended : Str → Prop
  | mk {space comment eol : Str} (hspace : Space space) (hcomment : Comment comment)
      (heol : IsEol eol) : Ended (space ++ (comment ++ eol))

/-- The end of a line without a line end, which is the end of the text. -/
inductive Unended : Str → Prop
  | mk {space comment : Str} (hspace : Space space) (hcomment : Comment comment) :
      Unended (space ++ comment)

theorem comment_split (u : Str) : ∃ comment, u = comment ++ skipComment u ∧ Comment comment := by
  by_cases hhash : peek u = hash
  · cases u with
    | nil => cases hhash
    | cons c u =>
      obtain rfl : c = hash := hhash
      rw [skipComment_hash]
      refine ⟨hash :: u.takeWhile (· ≠ newline),
        congrArg (hash :: ·) List.takeWhile_append_dropWhile.symm, .text fun hmem => ?_⟩
      simpa using List.mem_takeWhile_imp hmem
  · exact ⟨[], by rw [skipComment, if_neg hhash]; rfl, .none⟩

/-- A comment is skipped up to the newline, or to the end of the text. -/
theorem skipComment_text {text : Str} (h : newline ∉ text) (more : Str) :
    skipComment (hash :: (text ++ more)) = more.dropWhile (· ≠ newline) := by
  rw [skipComment_hash, List.dropWhile_append_of_pos fun c hc => by
    simpa using fun heq : c = newline => h (heq ▸ hc)]

theorem skipLineEnd_newline (h : skipComment (skipWhitespace u) = newline :: r) :
    skipLineEnd u = some r := by
  rw [skipLineEnd, h]
  exact accept_cons

theorem skipLineEnd_return (h : skipComment (skipWhitespace u) = carriageReturn :: newline :: r) :
    skipLineEnd u = some r := by
  rw [skipLineEnd, h]
  simp only [accept_cons, Option.getD_some]

theorem skipLineEnd_cases (h : skipLineEnd u = some r) :
    (skipComment (skipWhitespace u) = [] ∧ r = []) ∨
      skipComment (skipWhitespace u) = newline :: r ∨
      skipComment (skipWhitespace u) = carriageReturn :: newline :: r := by
  rw [skipLineEnd] at h
  split at h
  · rename_i hnil
    exact .inl ⟨hnil, (Option.some.inj h).symm⟩
  · have hrest := accept_some h (by decide)
    cases hreturn : accept carriageReturn (skipComment (skipWhitespace u)) with
    | none =>
      rw [hreturn] at hrest
      exact .inr (.inl hrest)
    | some v =>
      rw [hreturn] at hrest
      refine .inr (.inr ?_)
      rw [accept_some hreturn (by decide), ← hrest]
      rfl

theorem IsEol.start {eol : Str} (h : IsEol eol) (more : Str) :
    isWhitespace (peek (eol ++ more)) = false ∧ peek (eol ++ more) ≠ hash := by
  rcases h with rfl | rfl
  · exact ⟨rfl, show newline ≠ hash by decide⟩
  · exact ⟨rfl, show carriageReturn ≠ hash by decide⟩

theorem Ended.skip {tail : Str} (h : Ended tail) (more : Str) :
    skipLineEnd (tail ++ more) = some more := by
  cases h with
  | @mk space comment eol hspace hcomment heol =>
    rw [List.append_assoc, List.append_assoc]
    cases hcomment with
    | none =>
      obtain ⟨hblank, hhash⟩ := heol.start more
      have hskip : skipComment (skipWhitespace (space ++ ([] ++ (eol ++ more)))) = eol ++ more := by
        rw [List.nil_append, hspace.skip hblank, skipComment, if_neg hhash]
      rcases heol with rfl | rfl
      · exact skipLineEnd_newline hskip
      · exact skipLineEnd_return hskip
    | @text text htext =>
      have hskip : skipComment (skipWhitespace (space ++ (hash :: text ++ (eol ++ more)))) =
          newline :: more := by
        rw [hspace.skip rfl, List.cons_append, skipComment_text htext]
        rcases heol with rfl | rfl <;> rfl
      exact skipLineEnd_newline hskip

theorem Unended.skip {tail : Str} (h : Unended tail) : skipLineEnd tail = some [] := by
  cases h with
  | @mk space comment hspace hcomment =>
    have hskip : skipComment (skipWhitespace (space ++ comment)) = [] := by
      cases hcomment with
      | none => rw [hspace.skip rfl]; rfl
      | @text text htext =>
        have htext := skipComment_text htext []
        rw [List.append_nil] at htext
        rw [hspace.skip rfl, htext]
        rfl
    rw [skipLineEnd, hskip]

theorem Ended.newline {tail : Str} (h : Ended tail) : tail.getLast? = some newline := by
  cases h with
  | mk _ _ heol =>
    rw [List.getLast?_append, List.getLast?_append]
    rcases heol with rfl | rfl <;> rfl

theorem Unended.newline {tail : Str} (h : Unended tail) : tail.getLast? ≠ some newline := by
  cases h with
  | @mk space comment hspace hcomment =>
    intro hlast
    rcases List.mem_append.1 (List.mem_of_getLast? hlast) with hmem | hmem
    · exact absurd (hspace _ hmem) (by decide)
    · cases hcomment with
      | none => cases hmem
      | text htext =>
        obtain heq | hmem := List.mem_cons.1 hmem
        · exact absurd heq (by decide)
        · exact htext hmem

theorem IsEol.ended {eol : Str} (h : IsEol eol) : Ended eol := .mk space_nil .none h

/-- A line end closes a line. -/
theorem Unended.close {tail eol : Str} (h : Unended tail) (heol : IsEol eol) :
    Ended (tail ++ eol) := by
  cases h with
  | mk hspace hcomment =>
    rw [List.append_assoc]
    exact .mk hspace hcomment heol

/-- What is skipped as the end of a line is one, and only at the end of the text it is without a
line end. -/
theorem lineEnd_of_skip (h : skipLineEnd u = some r) :
    ∃ tail, u = tail ++ r ∧ (Ended tail ∨ r = [] ∧ Unended tail) := by
  obtain ⟨space, hu, hspace⟩ := skipWhitespace_split u
  obtain ⟨comment, hrest, hcomment⟩ := comment_split (skipWhitespace u)
  obtain ⟨hnil, rfl⟩ | hnewline | hreturn := skipLineEnd_cases h
  · refine ⟨space ++ comment, ?_, .inr ⟨rfl, .mk hspace hcomment⟩⟩
    rw [hnil, List.append_nil] at hrest
    rw [List.append_nil, ← hrest, ← hu]
  · refine ⟨space ++ (comment ++ [Toml.newline]), ?_, .inl (.mk hspace hcomment (.inl rfl))⟩
    rw [hu, hrest, hnewline]
    simp
  · refine ⟨space ++ (comment ++ [carriageReturn, Toml.newline]), ?_,
      .inl (.mk hspace hcomment (.inr rfl))⟩
    rw [hu, hrest, hreturn]
    simp

end Spn.Toml
