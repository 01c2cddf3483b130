import Spn.Toml.Leaves

/-! # Where things stand

The ranges that the scanner records lie in the text and next to each other: a key before its value,
the entries of an inline table inside of it, the lines of a section one after another, and the
sections too.
-/
namespace Spn.Toml

variable {u r : Str} {lo hi lo' hi' at_ : ℕ} {entry : Entry} {entries : List Entry}

mutual

/-- The ranges of an entry, between two places: what is in an inline table is between its braces. -/
def Entry.Within (lo hi : ℕ) : Entry → Prop
  | .mk _ _ key value _ entries =>
    lo ≤ key.start ∧ key.start < key.stop ∧ key.stop < value.start ∧ value.start < value.stop ∧
      value.stop ≤ hi ∧ InOrder (value.start + 1) (value.stop - 1) entries

/-- Entries one after another between two places. -/
def InOrder (lo hi : ℕ) : List Entry → Prop
  | [] => True
  | entry :: rest => entry.Within lo hi ∧ InOrder entry.value.stop hi rest

end

/-- Lines one after another between two places, each with an entry and up to its end. -/
def Lines (lo hi : ℕ) : List Entry → Prop
  | [] => lo ≤ hi
  | entry :: rest => entry.Within lo entry.lineEnd ∧ Lines entry.lineEnd hi rest

/-- Sections one after another between two places. -/
def Laid (lo hi : ℕ) : List Section → Prop
  | [] => lo ≤ hi
  | s :: rest => lo ≤ s.content ∧ ∃ stop, Lines s.content stop s.entries ∧ Laid stop hi rest

theorem Entry.Within.mono (h : entry.Within lo hi) (hlo : lo' ≤ lo) (hhi : hi ≤ hi') :
    entry.Within lo' hi' := by
  cases entry with
  | mk path kind key value lineEnd entries =>
    obtain ⟨hstart, hkey, hgap, hvalue, hstop, hentries⟩ := h
    exact ⟨hlo.trans hstart, hkey, hgap, hvalue, hstop.trans hhi, hentries⟩

theorem Entry.Within.withLineEnd (h : entry.Within lo hi) (lineEnd : ℕ) :
    (entry.withLineEnd lineEnd).Within lo hi := by
  cases entry with
  | mk path kind key value old entries => exact h

theorem Entry.Within.stop_le (h : entry.Within lo hi) : entry.value.stop ≤ hi := by
  cases entry with
  | mk path kind key value lineEnd entries => exact h.2.2.2.2.1

theorem Entry.Within.lt_stop (h : entry.Within lo hi) : lo < entry.value.stop := by
  cases entry with
  | mk path kind key value lineEnd entries =>
    obtain ⟨hstart, hkey, hgap, hvalue, -⟩ := h
    show lo < value.stop
    omega

theorem InOrder.mono (h : InOrder lo hi entries) (hlo : lo' ≤ lo) (hhi : hi ≤ hi') :
    InOrder lo' hi' entries := by
  induction entries generalizing lo lo' with
  | nil => trivial
  | cons entry rest ih => exact ⟨h.1.mono hlo hhi, ih h.2 le_rfl⟩

/-! ## Values -/

/-- What a scanner of values finds ends in what it takes, and what it finds in it is inside. -/
def Scans (scan : ℕ → Str → Option Scanned) : Prop :=
  ∀ at_ u found, scan at_ u = some found → ∃ w, u = w ++ found.rest ∧ at_ < found.stop ∧
    found.stop ≤ at_ + w.length ∧ InOrder (at_ + 1) (found.stop - 1) found.entries

theorem after_eq {w : Str} (h : u = w ++ r) : after at_ u r = at_ + w.length := by
  rw [after, h, List.length_append, Nat.add_sub_cancel_right]

theorem scanPair_within {scan : ℕ → Str → Option Scanned} (hscan : Scans scan)
    (h : scanPair scan at_ u = some (entry, r)) :
    ∃ w, u = w ++ r ∧ entry.Within at_ (at_ + w.length) := by
  obtain ⟨⟨path, afterKey⟩, hkey, hrest⟩ := Option.bind_eq_some_iff.1 h
  obtain ⟨afterEquals, hequals, hvalue⟩ := Option.bind_eq_some_iff.1 hrest
  obtain ⟨found, hfound, heq⟩ := Option.map_eq_some_iff.1 hvalue
  obtain ⟨rfl, rfl⟩ := Prod.mk.inj heq
  obtain ⟨wKey, huKey, hwKey⟩ := key_of_parse hkey
  obtain ⟨wSpace, huSpace, -⟩ := skipWhitespace_split afterKey
  obtain ⟨wGap, huGap, -⟩ := skipWhitespace_split afterEquals
  obtain ⟨wValue, huValue, hstart, hstop, hentries⟩ := hscan _ _ _ hfound
  have hfront : u = (wKey ++ (wSpace ++ equals :: wGap)) ++ skipWhitespace afterEquals := by
    rw [List.append_assoc, List.append_assoc, List.cons_append, ← huGap,
      ← accept_some hequals (by decide), ← huSpace, ← huKey]
  have hafter : after at_ u (skipWhitespace afterEquals) =
      at_ + (wKey.length + (wSpace.length + (wGap.length + 1))) := by
    rw [after_eq hfront]
    simp only [List.length_append, List.length_cons]
  rw [hafter] at hstart hstop hentries
  have hpos := List.length_pos_of_ne_nil hwKey.text_ne
  refine ⟨wKey ++ (wSpace ++ equals :: wGap) ++ wValue, ?_, ?_⟩
  · rw [List.append_assoc, ← huValue, ← hfront]
  · simp only [Entry.Within, after_eq huKey, hafter, List.length_append, List.length_cons]
    exact ⟨le_rfl, by omega, by omega, hstart, by omega, hentries⟩

theorem scanScalar_scans (nested : Bool) : Scans (scanScalar nested) := by
  intro at_ u found h
  rw [scanScalar] at h
  split_ifs at h with hnil
  cases h
  set inside := u.takeWhile fun c => !endsScalar nested c with hinside
  refine ⟨inside, List.takeWhile_append_dropWhile.symm, ?_, ?_, trivial⟩
  · have := List.length_pos_of_ne_nil hnil
    show at_ < at_ + (inside.rdropWhile isWhitespace).length
    omega
  · have := (List.rdropWhile_prefix (p := isWhitespace) inside).length_le
    show at_ + (inside.rdropWhile isWhitespace).length ≤ at_ + inside.length
    omega

/-- What stands in the text up to where a value ends. -/
theorem scans_of_take {w : Str} (hw : u = w ++ r) (hne : w ≠ []) :
    ∃ w, u = w ++ r ∧ at_ < after at_ u r ∧ after at_ u r ≤ at_ + w.length ∧
      InOrder (at_ + 1) (after at_ u r - 1) [] := by
  have hpos := List.length_pos_of_ne_nil hne
  refine ⟨w, hw, ?_, ?_, trivial⟩
  · rw [after_eq hw]
    omega
  · rw [after_eq hw]

theorem scan_within (fuel : ℕ) :
    (∀ nested, Scans (scanValue nested fuel)) ∧
      ∀ at_ u entries r, scanPairs fuel at_ u = some (entries, r) →
        ∃ w, u = w ++ r ∧ w ≠ [] ∧ InOrder at_ (at_ + w.length - 1) entries := by
  induction fuel with
  | zero =>
    refine ⟨fun nested at_ u found h => ?_, fun at_ u entries r h => ?_⟩
    · rw [scanValue] at h
      cases h
    · rw [scanPairs] at h
      cases h
  | succ fuel ih =>
    obtain ⟨ihValue, ihPairs⟩ := ih
    refine ⟨fun nested at_ u found h => ?_, fun at_ u entries r h => ?_⟩
    · rw [scanValue] at h
      split_ifs at h with hstring harray htable
      · obtain ⟨left, hleft, rfl⟩ := Option.map_eq_some_iff.1 h
        obtain ⟨w, hw, hstring, -⟩ := string_of_scan (isMark_iff.1 hstring) hleft
        have hlength := hstring.length
        exact scans_of_take hw (List.ne_nil_of_length_pos (by omega))
      · obtain ⟨left, hleft, rfl⟩ := Option.map_eq_some_iff.1 h
        cases u with
        | nil => cases harray
        | cons c u =>
          obtain rfl : c = leftBracket := harray
          obtain ⟨items, -, hu⟩ := array_of_scan hleft
          have hw : leftBracket :: u = leftBracket :: (items ++ [rightBracket]) ++ left := by
            rw [hu]
            simp
          exact scans_of_take hw (List.cons_ne_nil _ _)
      · cases u with
        | nil => cases htable
        | cons c u =>
          obtain ⟨wBlank, huBlank, -⟩ := skipBlank_split u
          dsimp only [List.tail_cons] at h
          split at h
          · rename_i left hclose
            cases h
            have hu : c :: u = (c :: wBlank ++ [rightBrace]) ++ left := by
              conv_lhs => rw [huBlank, accept_some hclose (by decide)]
              simp
            exact scans_of_take hu (by simp)
          · obtain ⟨⟨entries, left⟩, hpairs, rfl⟩ := Option.map_eq_some_iff.1 h
            obtain ⟨w, hw, hne, hentries⟩ := ihPairs _ _ _ _ hpairs
            have hu : c :: u = (c :: wBlank) ++ skipBlank u := congrArg (c :: ·) huBlank
            have hall : c :: u = (c :: wBlank ++ w) ++ left := by
              rw [hu, hw, List.append_assoc]
            rw [after_eq hu] at hentries
            have hpos := List.length_pos_of_ne_nil hne
            refine ⟨c :: wBlank ++ w, hall, ?_, ?_, hentries.mono ?_ ?_⟩
            all_goals
              simp only [after_eq hall, List.length_append, List.length_cons]
              omega
      · exact scanScalar_scans nested at_ u found h
    · rw [scanPairs] at h
      obtain ⟨⟨entry, left⟩, hpair, hrest⟩ := Option.bind_eq_some_iff.1 h
      obtain ⟨wBlank, huBlank, -⟩ := skipBlank_split u
      obtain ⟨wPair, huPair, hentry⟩ := scanPair_within (ihValue true) hpair
      obtain ⟨wTrail, huTrail, -⟩ := skipBlank_split left
      rw [after_eq huBlank] at hentry
      have hu : u = (wBlank ++ wPair ++ wTrail) ++ skipBlank left := by
        rw [List.append_assoc, ← huTrail, List.append_assoc, ← huPair, ← huBlank]
      have hstop := hentry.stop_le
      dsimp only at hrest
      split at hrest
      · rename_i next hcomma
        obtain ⟨⟨others, last⟩, hothers, heq⟩ := Option.map_eq_some_iff.1 hrest
        obtain ⟨rfl, rfl⟩ := Prod.mk.inj heq
        obtain ⟨w, hw, hne, hinOrder⟩ := ihPairs _ _ _ _ hothers
        have hnext : u = (wBlank ++ wPair ++ wTrail ++ [comma]) ++ next := by
          rw [List.append_assoc, List.singleton_append, ← accept_some hcomma (by decide), ← hu]
        rw [after_eq hnext] at hinOrder
        have hpos := List.length_pos_of_ne_nil hne
        simp only [List.length_append, List.length_singleton] at hinOrder
        refine ⟨wBlank ++ wPair ++ wTrail ++ [comma] ++ w, by rw [List.append_assoc, ← hw, ← hnext],
          by simp, hentry.mono (by omega) ?_, hinOrder.mono (by omega) ?_⟩
        all_goals
          simp only [List.length_append, List.length_singleton]
          omega
      · obtain ⟨last, hlast, heq⟩ := Option.map_eq_some_iff.1 hrest
        obtain ⟨rfl, rfl⟩ := Prod.mk.inj heq
        refine ⟨wBlank ++ wPair ++ wTrail ++ [rightBrace], ?_, by simp,
          hentry.mono (by omega) ?_, trivial⟩
        · rw [List.append_assoc, List.singleton_append, ← accept_some hlast (by decide), ← hu]
        · simp only [List.length_append, List.length_singleton]
          omega

/-! ## Sections -/

theorem skipLineEnd_suffix (h : skipLineEnd u = some r) : r <:+ u := by
  obtain ⟨w, hw, -⟩ := lineEnd_of_skip h
  exact ⟨w, hw.symm⟩

theorem parseEntry_within (h : parseEntry at_ u = some (entry, r)) :
    ∃ w, u = w ++ r ∧ entry.lineEnd = at_ + w.length ∧ entry.Within at_ entry.lineEnd := by
  obtain ⟨⟨found, left⟩, hpair, hrest⟩ := Option.bind_eq_some_iff.1 h
  obtain ⟨last, hlast, heq⟩ := Option.map_eq_some_iff.1 hrest
  obtain ⟨rfl, rfl⟩ := Prod.mk.inj heq
  obtain ⟨wPair, huPair, hfound⟩ := scanPair_within ((scan_within _).1 false) hpair
  obtain ⟨wEnd, huEnd⟩ := skipLineEnd_suffix hlast
  have hu : u = (wPair ++ wEnd) ++ last := by rw [List.append_assoc, huEnd, ← huPair]
  have hend : (found.withLineEnd (after at_ u last)).lineEnd = at_ + (wPair ++ wEnd).length := by
    rw [← after_eq hu]
    cases found with
    | mk path kind key value lineEnd entries => rfl
  refine ⟨wPair ++ wEnd, hu, hend, ?_⟩
  rw [hend, List.length_append]
  exact (hfound.withLineEnd _).mono le_rfl (by omega)

theorem accept_suffix {c : UInt8} (h : accept c u = some r) : r <:+ u := by
  rw [accept] at h
  split_ifs at h
  obtain rfl := Option.some.inj h
  exact List.tail_suffix u

theorem parseHeader_content {s : Section} (h : parseHeader at_ u = some (s, r)) :
    ∃ w, u = w ++ r ∧ s.content = at_ + w.length ∧ s.entries = [] := by
  obtain ⟨key, hkey, hrest⟩ := Option.bind_eq_some_iff.1 h
  obtain ⟨one, hone, hrest⟩ := Option.bind_eq_some_iff.1 hrest
  obtain ⟨two, htwo, hrest⟩ := Option.bind_eq_some_iff.1 hrest
  obtain ⟨left, hleft, heq⟩ := Option.map_eq_some_iff.1 hrest
  obtain ⟨rfl, rfl⟩ := Prod.mk.inj heq
  have htwoOne : two <:+ one := by
    split_ifs at htwo
    · exact accept_suffix htwo
    · exact Option.some.inj htwo ▸ List.suffix_rfl
  have hinner : (if peek u.tail = leftBracket then u.tail.tail else u.tail) <:+ u := by
    split_ifs
    · exact (List.tail_suffix _).trans (List.tail_suffix _)
    · exact List.tail_suffix _
  obtain ⟨wKey, huKey, -⟩ := key_of_parse hkey
  have hkeySuffix : key.2 <:+ u := List.IsSuffix.trans ⟨wKey, huKey.symm⟩ hinner
  have honeSuffix : one <:+ key.2 := (accept_suffix hone).trans (List.dropWhile_suffix _)
  obtain ⟨w, hw⟩ :=
    (skipLineEnd_suffix hleft).trans (htwoOne.trans (honeSuffix.trans hkeySuffix))
  exact ⟨w, hw.symm, after_eq hw.symm, rfl⟩

theorem Lines.push {mid : ℕ} (h : Lines lo mid entries) (hentry : entry.Within mid entry.lineEnd)
    (hend : entry.lineEnd ≤ hi) : Lines lo hi (entries ++ [entry]) := by
  induction entries generalizing lo with
  | nil => exact ⟨hentry.mono h le_rfl, hend⟩
  | cons first rest ih => exact ⟨h.1, ih h.2⟩

theorem Lines.mono (h : Lines lo hi entries) (hhi : hi ≤ hi') : Lines lo hi' entries := by
  induction entries generalizing lo with
  | nil => exact Nat.le_trans h hhi
  | cons first rest ih => exact ⟨h.1, ih h.2⟩

theorem Laid.push {mid : ℕ} {sections : List Section} {s : Section} (h : Laid lo mid sections)
    (hcontent : mid ≤ s.content) (hlines : Lines s.content hi s.entries) :
    Laid lo hi (sections ++ [s]) := by
  induction sections generalizing lo with
  | nil => exact ⟨Nat.le_trans h hcontent, hi, hlines, le_rfl⟩
  | cons first rest ih =>
    obtain ⟨hfirst, stop, hstop, hrest⟩ := h
    exact ⟨hfirst, stop, hstop, ih hrest⟩

theorem initFrom_laid {fuel mid : ℕ} {sections result : List Section} {last : Section}
    (h : initFrom fuel sections last at_ u = some result) (hlaid : Laid 0 mid sections)
    (hcontent : mid ≤ last.content) (hlines : Lines last.content at_ last.entries) :
    Laid 0 (at_ + u.length) result := by
  induction fuel generalizing sections last at_ u mid with
  | zero => cases h
  | succ fuel ih =>
    obtain ⟨wBlank, huBlank, -⟩ := skipBlank_split u
    rw [initFrom] at h
    split at h
    · obtain rfl := Option.some.inj h
      exact hlaid.push hcontent (hlines.mono (Nat.le_add_right _ _))
    · rename_i c tail hrest
      rw [hrest] at huBlank
      have hlength : at_ + u.length = at_ + wBlank.length + (c :: tail).length := by
        rw [huBlank, List.length_append, Nat.add_assoc]
      have hblank := hlines.mono (Nat.le_add_right at_ wBlank.length)
      rw [hlength]
      dsimp only at h
      rw [after_eq huBlank] at h
      -- what is left after the line, which is `w`
      have hnext : ∀ w left, c :: tail = w ++ left →
          at_ + wBlank.length + (c :: tail).length =
            after (at_ + wBlank.length) (c :: tail) left + left.length := fun w left hw => by
        rw [after_eq hw, hw, List.length_append, Nat.add_assoc _ w.length]
      split_ifs at h with hhash hbracket
      · obtain ⟨w, hw, -⟩ := comment_split (c :: tail)
        rw [hnext w _ hw]
        refine ih h hlaid hcontent (hblank.mono ?_)
        rw [after_eq hw]
        exact Nat.le_add_right _ _
      · obtain ⟨⟨s, left⟩, hheader, hsections⟩ := Option.bind_eq_some_iff.1 h
        obtain ⟨w, hw, hs, hentries⟩ := parseHeader_content hheader
        rw [hnext w _ hw]
        refine ih hsections (hlaid.push hcontent hblank) ?_ ?_
        · rw [hs]
          exact Nat.le_add_right _ _
        · rw [hentries, after_eq hw, ← hs]
          exact le_rfl
      · obtain ⟨⟨entry, left⟩, hentry, hsections⟩ := Option.bind_eq_some_iff.1 h
        obtain ⟨w, hw, hend, hwithin⟩ := parseEntry_within hentry
        rw [hnext w _ hw]
        refine ih hsections hlaid hcontent (hblank.push hwithin ?_)
        rw [hend, after_eq hw]

/-- Every range that is recorded lies in the text, with a key before its value and room for the
equals sign between them; the entries of an inline table stand between its braces, one after
another, and so do the lines of a section and the sections of the text. -/
theorem ranges_in_text {source : Str} {edit : Edit} (h : init source = some edit) :
    Laid 0 edit.source.length edit.sections := by
  obtain ⟨sections, hsections, rfl⟩ := Option.map_eq_some_iff.1 h
  have hlaid := initFrom_laid hsections (le_refl 0) (le_refl 0) (le_refl 0)
  rwa [Nat.zero_add] at hlaid

/-- A section, a dotted key and an inline table in another. -/
theorem ranges_in_text_nested :
    ∃ edit, init (str "[a]\nb.c = \x7b d = \x7b e = 1 \x7d, f = 2 \x7d # g\n") = some edit ∧
      Laid 0 edit.source.length edit.sections := by
  obtain ⟨edit, hedit⟩ := Option.isSome_iff_exists.1 (show (init
    (str "[a]\nb.c = \x7b d = \x7b e = 1 \x7d, f = 2 \x7d # g\n")).isSome = true by decide +kernel)
  exact ⟨edit, hedit, ranges_in_text hedit⟩

end Spn.Toml
