import Mathlib

/-! # Patterns of paths

What a pattern means, apart from how a single name is matched: braces alternate, `**` as a
component stands for any number of names, and every other component matches one name. A
pattern is read from left to right; at an opening brace one alternative is picked, and at
the comma or the brace that ends it the others are left out.
-/
namespace Spn.Lib.Glob

/-- Patterns and names are bytes. -/
abbrev Text := List UInt8

abbrev slash : UInt8 := 0x2f
abbrev star : UInt8 := 0x2a
abbrev query : UInt8 := 0x3f
abbrev lbracket : UInt8 := 0x5b
abbrev rbracket : UInt8 := 0x5d
abbrev lbrace : UInt8 := 0x7b
abbrev rbrace : UInt8 := 0x7d
abbrev comma : UInt8 := 0x2c

/-! ## Reading a pattern -/

/-- What a pattern is made of: characters, and classes with what they hold. -/
inductive Piece
  | chr (c : UInt8)
  | cls (body : Text)
  deriving DecidableEq

/-- What is between the brackets of a class: the closing bracket may be in it as the first
character, also of a negated one. -/
def ClassBody : Text → Prop
  | [] => False
  | [c] => c ≠ 0x21 ∧ c ≠ 0x5e
  | c :: d :: rest => rbracket ∉ (if c = 0x21 ∨ c = 0x5e then rest else d :: rest)

instance : DecidablePred ClassBody := fun body => by
  unfold ClassBody
  split <;> infer_instance

namespace Piece

def text : Piece → Text
  | chr c => [c]
  | cls body => lbracket :: (body ++ [rbracket])

def Proper : Piece → Prop
  | chr c => c ≠ lbracket
  | cls body => ClassBody body

instance : DecidablePred Proper
  | chr _ => inferInstanceAs (Decidable (_ ≠ _))
  | cls body => inferInstanceAs (Decidable (ClassBody body))

end Piece

/-- The text of a pattern that is made of some pieces. -/
def text (pieces : List Piece) : Text := pieces.flatMap Piece.text

/-- The pieces a pattern is made of. -/
def MadeOf (pattern : Text) (pieces : List Piece) : Prop :=
  text pieces = pattern ∧ ∀ u ∈ pieces, u.Proper

/-- What a pattern without braces is made of. -/
inductive Tok
  | lit (c : UInt8)
  | slash
  | any
  | star
  | cls (body : Text)
  deriving DecidableEq

/-- `Skips j pieces rest`: from within `j` braces `rest` comes after some whole pieces and is
outside of these braces. -/
inductive Skips : ℕ → List Piece → List Piece → Prop
  | stop (pieces : List Piece) : Skips 0 pieces pieces
  | chr {j : ℕ} {c : UInt8} {pieces rest : List Piece} : c ≠ lbrace → c ≠ rbrace →
      Skips j pieces rest → Skips j (.chr c :: pieces) rest
  | cls {j : ℕ} {body : Text} {pieces rest : List Piece} :
      Skips j pieces rest → Skips j (.cls body :: pieces) rest
  | enter {j : ℕ} {pieces rest : List Piece} :
      Skips (j + 1) pieces rest → Skips j (.chr lbrace :: pieces) rest
  | leave {j : ℕ} {pieces rest : List Piece} :
      Skips j pieces rest → Skips (j + 1) (.chr rbrace :: pieces) rest

/-- After an opening brace: the first alternative, or the one after a comma. -/
def Picks (pieces alternative : List Piece) : Prop :=
  alternative = pieces ∨ Skips 0 pieces (.chr comma :: alternative)

/-- `Reads k pieces toks`: within `k` braces the rest of the pattern is read as `toks`. -/
inductive Reads : ℕ → List Piece → List Tok → Prop
  | done : Reads 0 [] []
  | lit {k : ℕ} {c : UInt8} {pieces : List Piece} {toks : List Tok} :
      c ∉ [Glob.slash, Glob.star, query, lbrace, rbrace] → (k = 0 ∨ c ≠ comma) →
      Reads k pieces toks → Reads k (.chr c :: pieces) (.lit c :: toks)
  | slash {k : ℕ} {pieces : List Piece} {toks : List Tok} :
      Reads k pieces toks → Reads k (.chr Glob.slash :: pieces) (.slash :: toks)
  | any {k : ℕ} {pieces : List Piece} {toks : List Tok} :
      Reads k pieces toks → Reads k (.chr query :: pieces) (.any :: toks)
  | star {k : ℕ} {pieces : List Piece} {toks : List Tok} :
      Reads k pieces toks → Reads k (.chr Glob.star :: pieces) (.star :: toks)
  | cls {k : ℕ} {body : Text} {pieces : List Piece} {toks : List Tok} :
      Reads k pieces toks → Reads k (.cls body :: pieces) (.cls body :: toks)
  | pick {k : ℕ} {pieces alternative : List Piece} {toks : List Tok} :
      Picks pieces alternative → Reads (k + 1) alternative toks →
      Reads k (.chr lbrace :: pieces) toks
  | close {k : ℕ} {pieces : List Piece} {toks : List Tok} :
      Reads k pieces toks → Reads (k + 1) (.chr rbrace :: pieces) toks
  | drop {k : ℕ} {pieces rest : List Piece} {toks : List Tok} :
      Skips 0 pieces (.chr rbrace :: rest) → Reads k rest toks →
      Reads (k + 1) (.chr comma :: pieces) toks

/-! ## What a pattern matches -/

/-- The components between the slashes. -/
def components (toks : List Tok) : List (List Tok) := toks.splitOn .slash

variable {name : List Tok → Text → Prop}

/-- The components match the names, given how a component matches a name. -/
inductive MatchComps (name : List Tok → Text → Prop) : List (List Tok) → List Text → Prop
  | nil : MatchComps name [] []
  | one {c : List Tok} {n : Text} {comps : List (List Tok)} {names : List Text} :
      name c n → MatchComps name comps names → MatchComps name (c :: comps) (n :: names)
  | stop {comps : List (List Tok)} {names : List Text} :
      MatchComps name comps names → MatchComps name ([.star, .star] :: comps) names
  | more {n : Text} {comps : List (List Tok)} {names : List Text} :
      MatchComps name ([.star, .star] :: comps) names →
      MatchComps name ([.star, .star] :: comps) (n :: names)

/-- The pattern matches the names of a path. -/
def Matches (name : List Tok → Text → Prop) (pattern : Text) (names : List Text) : Prop :=
  ∃ pieces toks, MadeOf pattern pieces ∧ Reads 0 pieces toks ∧
    MatchComps name (components toks) names

/-! ## The last component matches the last name -/

theorem matchComps_nil {comps : List (List Tok)} (h : MatchComps name comps []) :
    ∀ c ∈ comps, c = [.star, .star] := by
  generalize hnames : ([] : List Text) = names at h
  induction h with
  | nil => exact fun c hc => nomatch hc
  | one _ _ _ => cases hnames
  | stop _ ih =>
    intro c hc
    rcases List.mem_cons.1 hc with rfl | hc
    · rfl
    · exact ih hnames c hc
  | more _ _ => cases hnames

theorem matchComps_stars (n : Text) : MatchComps name [[.star, .star]] [n] := .more (.stop .nil)

theorem matchComps_last {comps : List (List Tok)} {names : List Text}
    (h : MatchComps name comps names) {init : List (List Tok)} {c : List Tok}
    (hc : comps = init ++ [c]) {before : List Text} {n : Text} (hn : names = before ++ [n]) :
    MatchComps name [c] [n] := by
  induction h generalizing init before with
  | nil => simp at hc
  | @one c₀ n₀ comps names hname hrest ih =>
    cases init with
    | nil =>
      obtain ⟨rfl, rfl⟩ := List.cons_eq_cons.1 hc
      cases hrest
      cases before with
      | nil =>
        cases hn
        exact .one hname .nil
      | cons _ before => simp at hn
    | cons _ init =>
      cases before with
      | nil =>
        obtain ⟨-, rfl⟩ := List.cons_eq_cons.1 hn
        obtain ⟨-, rfl⟩ := List.cons_eq_cons.1 hc
        rw [matchComps_nil hrest c (List.mem_append_right _ List.mem_cons_self)]
        exact matchComps_stars n
      | cons _ before => exact ih (List.cons_eq_cons.1 hc).2 (List.cons_eq_cons.1 hn).2
  | @stop comps names hrest ih =>
    cases init with
    | nil =>
      obtain ⟨rfl, rfl⟩ := List.cons_eq_cons.1 hc
      exact matchComps_stars n
    | cons _ init => exact ih (List.cons_eq_cons.1 hc).2 hn
  | @more n₀ comps names hrest ih =>
    cases before with
    | nil =>
      obtain ⟨-, rfl⟩ := List.cons_eq_cons.1 hn
      rw [matchComps_nil hrest c (by rw [hc]; exact List.mem_append_right _ List.mem_cons_self)]
      exact matchComps_stars n
    | cons _ before => exact ih hc (List.cons_eq_cons.1 hn).2

/-! ## Counting braces by characters -/

/-- The braces that are open after the text, of `m` before it. -/
def openAfter : ℕ → Text → ℕ
  | m, [] => m
  | m, c :: rest =>
    openAfter (if c = lbrace then m + 1 else if c = rbrace then m - 1 else m) rest

theorem openAfter_append (m : ℕ) (a b : Text) :
    openAfter m (a ++ b) = openAfter (openAfter m a) b := by
  induction a generalizing m with
  | nil => rfl
  | cons c rest ih => exact ih _

theorem openAfter_snoc (m : ℕ) (a : Text) (c : UInt8) : openAfter m (a ++ [c]) =
    if c = lbrace then openAfter m a + 1 else if c = rbrace then openAfter m a - 1
    else openAfter m a := by
  rw [openAfter_append]
  rfl

/-- Without a closing brace none of the open ones is closed. -/
theorem le_openAfter {a : Text} (h : rbrace ∉ a) (m : ℕ) : m ≤ openAfter m a := by
  induction a generalizing m with
  | nil => exact le_rfl
  | cons c rest ih =>
    have hne : c ≠ rbrace := fun heq => h (heq ▸ List.mem_cons_self)
    have hrest := ih fun hmem => h (List.mem_cons_of_mem _ hmem)
    rw [openAfter]
    refine le_trans ?_ (hrest _)
    split_ifs <;> omega

theorem openAfter_of_not_mem {a : Text} (hl : lbrace ∉ a) (m : ℕ) : openAfter m a ≤ m := by
  induction a generalizing m with
  | nil => exact le_rfl
  | cons c rest ih =>
    have hne : c ≠ lbrace := fun heq => hl (heq ▸ List.mem_cons_self)
    have hrest := ih fun hmem => hl (List.mem_cons_of_mem _ hmem)
    rw [openAfter, if_neg hne]
    refine le_trans (hrest _) ?_
    split_ifs <;> omega

/-- No class holds a slash, and none within braces a closing brace. -/
def PlainFrom : ℕ → List Piece → Prop
  | _, [] => True
  | k, .chr c :: rest =>
    PlainFrom (if c = lbrace then k + 1 else if c = rbrace then k - 1 else k) rest
  | k, .cls body :: rest => slash ∉ body ∧ (k = 0 ∨ rbrace ∉ body) ∧ PlainFrom k rest

def Plain (pattern : Text) : Prop := ∀ pieces, MadeOf pattern pieces → PlainFrom 0 pieces

/-- Where the count of the characters is no less than the number of braces, it stays so. -/
theorem le_openAfter_cls {k m : ℕ} {body : Text} (hm : k ≤ m) (hbody : k = 0 ∨ rbrace ∉ body) :
    k ≤ openAfter m (Piece.cls body).text := by
  rcases hbody with rfl | hbody
  · exact Nat.zero_le _
  · refine hm.trans (le_openAfter ?_ m)
    simp only [Piece.text, List.mem_cons, List.mem_append, List.not_mem_nil, or_false, not_or]
    exact ⟨by decide, hbody, by decide⟩

theorem openAfter_text_cons (m : ℕ) (u : Piece) (pieces : List Piece) :
    openAfter m (text (u :: pieces)) = openAfter (openAfter m u.text) (text pieces) := by
  rw [text, List.flatMap_cons, openAfter_append, text]

/-- A slash further on is in the rest of the pieces. -/
theorem cons_eq_before {u : Piece} {pieces before after : List Piece}
    (h : u :: pieces = before ++ .chr slash :: after) (hu : u ≠ .chr slash) :
    ∃ tail, before = u :: tail ∧ pieces = tail ++ .chr slash :: after := by
  cases before with
  | nil => exact absurd (List.cons_eq_cons.1 h).1 hu
  | cons v tail =>
    obtain ⟨rfl, htail⟩ := List.cons_eq_cons.1 h
    exact ⟨tail, rfl, htail⟩

/-- A slash with a count of zero is not skipped. -/
theorem Skips.before_slash {j : ℕ} {pieces rest : List Piece} (h : Skips j pieces rest) {a m : ℕ}
    (ha : 0 < a) (hm : a + j ≤ m) (hplain : PlainFrom (a + j) pieces) {before after : List Piece}
    (hpieces : pieces = before ++ .chr slash :: after) (hzero : openAfter m (text before) = 0) :
    ∃ before' m', rest = before' ++ .chr slash :: after ∧ a ≤ m' ∧
      openAfter m' (text before') = 0 ∧ PlainFrom a rest := by
  have hne : rbrace ≠ lbrace := by decide
  induction h generalizing m before with
  | stop pieces => exact ⟨before, m, hpieces, hm, hzero, hplain⟩
  | @chr j c pieces rest hl hr _ ih =>
    cases before with
    | nil =>
      -- the count would be zero within braces
      have : m = 0 := hzero
      omega
    | cons u before =>
      obtain ⟨rfl, htail⟩ := List.cons_eq_cons.1 hpieces
      rw [openAfter_text_cons] at hzero
      refine ih ?_ ?_ htail hzero
      · simpa [Piece.text, openAfter, hl, hr] using hm
      · simpa [PlainFrom, hl, hr] using hplain
  | @cls j body pieces rest _ ih =>
    obtain ⟨tail, rfl, htail⟩ := cons_eq_before hpieces (by simp)
    rw [openAfter_text_cons] at hzero
    exact ih (le_openAfter_cls hm hplain.2.1) hplain.2.2 htail hzero
  | @enter j pieces rest _ ih =>
    obtain ⟨tail, rfl, htail⟩ := cons_eq_before hpieces (by decide)
    have hm' : a + (j + 1) ≤ m + 1 := Nat.add_le_add_right hm 1
    exact ih hm' hplain htail hzero
  | @leave j pieces rest _ ih =>
    obtain ⟨tail, rfl, htail⟩ := cons_eq_before hpieces (by decide)
    have hm' : a + j ≤ m - 1 := Nat.le_sub_one_of_lt hm
    exact ih hm' hplain htail hzero

/-- A slash with a count of zero is read outside of all braces. -/
theorem Reads.at_slash {k : ℕ} {pieces : List Piece} {toks : List Tok} (h : Reads k pieces toks)
    {m : ℕ} (hm : k ≤ m) (hplain : PlainFrom k pieces) {before after : List Piece}
    (hpieces : pieces = before ++ .chr Glob.slash :: after)
    (hzero : openAfter m (text before) = 0) :
    ∃ init last, toks = init ++ .slash :: last ∧ Reads 0 after last := by
  induction h generalizing m before with
  | done => simp at hpieces
  | @lit k c pieces toks hc hcomma _ ih =>
    obtain ⟨hslash, -, -, hl, hr⟩ : c ≠ Glob.slash ∧ c ≠ Glob.star ∧ c ≠ query ∧ c ≠ lbrace ∧
      c ≠ rbrace := by simpa using hc
    obtain ⟨tail, rfl, htail⟩ := cons_eq_before hpieces (by simpa using hslash)
    rw [openAfter_text_cons] at hzero
    obtain ⟨init, last, rfl, hlast⟩ := ih (by simpa [Piece.text, openAfter, hl, hr] using hm)
      (by simpa [PlainFrom, hl, hr] using hplain) htail hzero
    exact ⟨_ :: init, last, rfl, hlast⟩
  | @slash k pieces toks hrest ih =>
    cases before with
    | nil =>
      obtain rfl : pieces = after := by simpa using hpieces
      obtain rfl : m = 0 := hzero
      obtain rfl : k = 0 := Nat.le_zero.1 hm
      exact ⟨[], toks, rfl, hrest⟩
    | cons u before =>
      obtain ⟨rfl, htail⟩ := List.cons_eq_cons.1 hpieces
      obtain ⟨init, last, rfl, hlast⟩ := ih hm hplain htail hzero
      exact ⟨_ :: init, last, rfl, hlast⟩
  | @any k pieces toks _ ih | @star k pieces toks _ ih =>
    obtain ⟨tail, rfl, htail⟩ := cons_eq_before hpieces (by decide)
    obtain ⟨init, last, rfl, hlast⟩ := ih hm hplain htail hzero
    exact ⟨_ :: init, last, rfl, hlast⟩
  | @cls k body pieces toks _ ih =>
    obtain ⟨tail, rfl, htail⟩ := cons_eq_before hpieces (by simp)
    rw [openAfter_text_cons] at hzero
    obtain ⟨init, last, rfl, hlast⟩ :=
      ih (le_openAfter_cls hm hplain.2.1) hplain.2.2 htail hzero
    exact ⟨_ :: init, last, rfl, hlast⟩
  | @pick k pieces alternative toks hpick _ ih =>
    obtain ⟨tail, rfl, htail⟩ := cons_eq_before hpieces (by decide)
    have hm' : k + 1 ≤ m + 1 := Nat.add_le_add_right hm 1
    rcases hpick with rfl | hskip
    · exact ih hm' hplain htail hzero
    · obtain ⟨before', m', hrest, hle, hzero', hplain'⟩ :=
        hskip.before_slash (Nat.succ_pos k) hm' hplain htail hzero
      obtain ⟨tail', rfl, htail'⟩ := cons_eq_before hrest (by decide)
      exact ih hle hplain' htail' hzero'
  | @close k pieces toks _ ih =>
    obtain ⟨tail, rfl, htail⟩ := cons_eq_before hpieces (by decide)
    have hm' : k ≤ m - 1 := Nat.le_sub_one_of_lt hm
    exact ih hm' hplain htail hzero
  | @drop k pieces rest toks hskip _ ih =>
    obtain ⟨tail, rfl, htail⟩ := cons_eq_before hpieces (by decide)
    obtain ⟨before', m', hrest, hle, hzero', hplain'⟩ :=
      hskip.before_slash (Nat.succ_pos k) hm hplain htail hzero
    obtain ⟨tail', rfl, htail'⟩ := cons_eq_before hrest (by decide)
    have hm' : k ≤ m' - 1 := Nat.le_sub_one_of_lt hle
    exact ih hm' hplain' htail' hzero'

/-! ## Slashes of the text and of what is read -/

theorem Skips.suffix {j : ℕ} {pieces rest : List Piece} (h : Skips j pieces rest) :
    rest <:+ pieces := by
  induction h with
  | stop pieces => exact List.suffix_refl _
  | chr _ _ _ ih | cls _ ih | enter _ ih | leave _ ih => exact ih.trans (List.suffix_cons _ _)

/-- Without a slash among the pieces none is read. -/
theorem Reads.slash_mem {k : ℕ} {pieces : List Piece} {toks : List Tok} (h : Reads k pieces toks)
    (hmem : .slash ∈ toks) : .chr Glob.slash ∈ pieces := by
  induction h with
  | done => cases hmem
  | lit _ _ _ ih | any _ ih | star _ ih | cls _ ih =>
    exact List.mem_cons_of_mem _ (ih (by simpa using hmem))
  | slash _ _ => exact List.mem_cons_self
  | pick hpick _ ih =>
    rcases hpick with rfl | hskip
    · exact List.mem_cons_of_mem _ (ih hmem)
    · exact List.mem_cons_of_mem _ (hskip.suffix.subset (List.mem_cons_of_mem _ (ih hmem)))
  | close _ ih => exact List.mem_cons_of_mem _ (ih hmem)
  | drop hskip _ ih =>
    exact List.mem_cons_of_mem _ (hskip.suffix.subset (List.mem_cons_of_mem _ (ih hmem)))

theorem mem_text_of_mem {c : UInt8} {pieces : List Piece} (h : .chr c ∈ pieces) :
    c ∈ text pieces :=
  List.mem_flatMap.2 ⟨_, h, List.mem_singleton.2 rfl⟩

theorem PlainFrom.no_slash {k : ℕ} {pieces : List Piece} (h : PlainFrom k pieces) {body : Text}
    (hmem : .cls body ∈ pieces) : slash ∉ body := by
  induction pieces generalizing k with
  | nil => cases hmem
  | cons u rest ih =>
    cases u with
    | chr c => exact ih h (by simpa using hmem)
    | cls other =>
      rcases List.mem_cons.1 hmem with heq | hmem
      · cases heq
        exact h.1
      · exact ih h.2.2 hmem

/-- Where no class holds one, a slash of the text is a piece. -/
theorem text_eq_append {pieces : List Piece} (h : ∀ body, .cls body ∈ pieces → slash ∉ body)
    {q r : Text} (htext : text pieces = q ++ slash :: r) :
    ∃ before after, pieces = before ++ .chr slash :: after ∧ text before = q ∧ text after = r := by
  induction pieces generalizing q with
  | nil => simp [text] at htext
  | cons u rest ih =>
    have hrest := @ih fun body hmem => h body (List.mem_cons_of_mem _ hmem)
    have hcons : text (u :: rest) = u.text ++ text rest := List.flatMap_cons
    rw [hcons] at htext
    by_cases hu : u = .chr slash
    · subst hu
      cases q with
      | nil => exact ⟨[], rest, rfl, rfl, (List.cons_eq_cons.1 htext).2⟩
      | cons d q =>
        obtain ⟨hd, htext⟩ := List.cons_eq_cons.1 htext
        obtain ⟨before, after, rfl, rfl, rfl⟩ := hrest htext
        exact ⟨_ :: before, after, rfl, by rw [← hd]; rfl, rfl⟩
    · have hfree : slash ∉ u.text := by
        cases u with
        | chr c =>
          intro hmem
          exact hu (by rw [List.mem_singleton.1 hmem])
        | cls body =>
          simp only [Piece.text, List.mem_cons, List.mem_append, List.not_mem_nil, or_false, not_or]
          exact ⟨by decide, h body List.mem_cons_self, by decide⟩
      -- the slash comes after all of the piece
      obtain ⟨q', rfl, hlater⟩ : ∃ q', q = u.text ++ q' ∧ text rest = q' ++ slash :: r := by
        rcases List.append_eq_append_iff.1 htext with ⟨q', hq, hlater⟩ | ⟨mid, hmid, hlater⟩
        · exact ⟨q', hq, hlater⟩
        · cases mid with
          | nil => exact ⟨[], by simpa using hmid.symm, by simpa using hlater.symm⟩
          | cons d mid =>
            obtain ⟨rfl, -⟩ := List.cons_eq_cons.1 hlater
            exact absurd (hmid ▸ List.mem_append_right _ List.mem_cons_self) hfree
      obtain ⟨before, after, rfl, rfl, rfl⟩ := hrest hlater
      exact ⟨u :: before, after, rfl, List.flatMap_cons, rfl⟩

/-! ## The last component of a pattern -/

theorem components_of_not_mem {toks : List Tok} (h : .slash ∉ toks) : components toks = [toks] :=
  List.splitOn_eq_singleton h

/-- A pattern without a slash is its last component. -/
theorem Matches.of_no_slash {pattern : Text} {before : List Text} {n : Text}
    (h : Matches name pattern (before ++ [n])) (hfree : slash ∉ pattern) :
    Matches name pattern [n] := by
  obtain ⟨pieces, toks, hmade, hreads, hmatch⟩ := h
  have hcomps : components toks = [toks] := components_of_not_mem fun hmem =>
    hfree (hmade.1 ▸ mem_text_of_mem (hreads.slash_mem hmem))
  rw [hcomps] at hmatch
  refine ⟨pieces, toks, hmade, hreads, ?_⟩
  rw [hcomps]
  exact matchComps_last hmatch (List.nil_append _).symm rfl

/-- After its last slash, where no brace is open by the count of the characters, a plain
pattern is its last component. -/
theorem Matches.after_slash {q r : Text} {before : List Text} {n : Text}
    (h : Matches name (q ++ slash :: r) (before ++ [n])) (hplain : Plain (q ++ slash :: r))
    (hfree : slash ∉ r) (hzero : openAfter 0 q = 0) : Matches name r [n] := by
  obtain ⟨pieces, toks, hmade, hreads, hmatch⟩ := h
  have hfrom := hplain pieces hmade
  obtain ⟨uq, ur, rfl, rfl, rfl⟩ := text_eq_append (fun _ hmem => hfrom.no_slash hmem) hmade.1
  obtain ⟨init, last, rfl, hlast⟩ := hreads.at_slash (Nat.le_refl 0) hfrom rfl hzero
  have hcomps : components last = [last] := components_of_not_mem fun hmem =>
    hfree (mem_text_of_mem (hlast.slash_mem hmem))
  have hsplit : components (init ++ .slash :: last) = components init ++ [last] := by
    rw [components, List.splitOn_append_cons_self, ← components, ← components, hcomps]
  rw [hsplit] at hmatch
  refine ⟨ur, last, ⟨rfl, fun u hu => hmade.2 u ?_⟩, hlast, ?_⟩
  · exact List.mem_append_right _ (List.mem_cons_of_mem _ hu)
  · rw [hcomps]
    exact matchComps_last hmatch rfl rfl

/-! ## Patterns without classes and braces -/

/-- Without an opening bracket a pattern is made of its characters. -/
theorem MadeOf.eq_map {pattern : Text} {pieces : List Piece} (h : MadeOf pattern pieces)
    (hfree : lbracket ∉ pattern) : pieces = pattern.map .chr := by
  obtain ⟨rfl, -⟩ := h
  induction pieces with
  | nil => rfl
  | cons u rest ih =>
    have hcons : text (u :: rest) = u.text ++ text rest := List.flatMap_cons
    rw [hcons, List.mem_append, not_or] at hfree
    cases u with
    | chr c =>
      rw [hcons, List.map_append, ← ih hfree.2]
      rfl
    | cls body => exact absurd List.mem_cons_self hfree.1

theorem madeOf_map {pattern : Text} (hfree : lbracket ∉ pattern) :
    MadeOf pattern (pattern.map .chr) := by
  constructor
  · induction pattern with
    | nil => rfl
    | cons c rest ih =>
      have hrest := ih fun hmem => hfree (List.mem_cons_of_mem _ hmem)
      rw [List.map_cons, text, List.flatMap_cons, ← text, hrest]
      rfl
  · intro u hu
    obtain ⟨c, hc, rfl⟩ := List.mem_map.1 hu
    exact fun heq => hfree (heq ▸ hc)

/-- A pattern without a class is plain. -/
theorem plain_of_no_class {pattern : Text} (hfree : lbracket ∉ pattern) : Plain pattern := by
  intro pieces hmade
  rw [hmade.eq_map hfree]
  generalize (0 : ℕ) = k
  clear hmade hfree
  induction pattern generalizing k with
  | nil => trivial
  | cons c rest ih => exact ih _

/-- What a character stands for outside of classes and braces. -/
def tokOf (c : UInt8) : Tok :=
  if c = slash then .slash else if c = query then .any else if c = star then .star else .lit c

theorem reads_map_iff {pattern : Text} (hfree : lbrace ∉ pattern ∧ rbrace ∉ pattern)
    {toks : List Tok} : Reads 0 (pattern.map .chr) toks ↔ toks = pattern.map tokOf := by
  induction pattern generalizing toks with
  | nil => exact ⟨fun h => by cases h; rfl, fun h => h ▸ .done⟩
  | cons c rest ih =>
    have hl : c ≠ lbrace := fun heq => hfree.1 (heq ▸ List.mem_cons_self)
    have hr : c ≠ rbrace := fun heq => hfree.2 (heq ▸ List.mem_cons_self)
    have hrest := @ih ⟨fun hmem => hfree.1 (List.mem_cons_of_mem _ hmem),
      fun hmem => hfree.2 (List.mem_cons_of_mem _ hmem)⟩
    rw [List.map_cons, List.map_cons]
    constructor
    · intro h
      cases h with
      | lit hc _ h =>
        obtain ⟨h₁, h₂, h₃, -, -⟩ : c ≠ slash ∧ c ≠ star ∧ c ≠ query ∧ c ≠ lbrace ∧
          c ≠ rbrace := by simpa using hc
        rw [hrest.1 h, tokOf, if_neg h₁, if_neg h₃, if_neg h₂]
      | slash h | any h | star h => rw [hrest.1 h]; rfl
      | pick _ _ => exact absurd rfl hl
    · rintro rfl
      have htail := hrest.2 rfl
      by_cases h₁ : c = slash
      · subst h₁
        exact htail.slash
      by_cases h₂ : c = query
      · subst h₂
        exact htail.any
      by_cases h₃ : c = star
      · subst h₃
        exact htail.star
      rw [tokOf, if_neg h₁, if_neg h₂, if_neg h₃]
      exact .lit (by simp [h₁, h₂, h₃, hl, hr]) (.inl rfl) htail

/-- Such a pattern is read in one way. -/
theorem matches_iff_of_simple {pattern : Text} (hclass : lbracket ∉ pattern)
    (hbraces : lbrace ∉ pattern ∧ rbrace ∉ pattern) {names : List Text} :
    Matches name pattern names ↔ MatchComps name (components (pattern.map tokOf)) names := by
  constructor
  · rintro ⟨pieces, toks, hmade, hreads, hmatch⟩
    rw [hmade.eq_map hclass] at hreads
    rwa [← (reads_map_iff hbraces).1 hreads]
  · exact fun hmatch => ⟨_, _, madeOf_map hclass, (reads_map_iff hbraces).2 rfl, hmatch⟩

theorem matchComps_singleton {c : List Tok} {n : Text} :
    MatchComps name [c] [n] ↔ name c n ∨ c = [.star, .star] := by
  constructor
  · intro h
    cases h with
    | one hname _ => exact .inl hname
    | stop _ | more _ => exact .inr rfl
  · rintro (h | rfl)
    · exact .one h .nil
    · exact matchComps_stars n

end Spn.Lib.Glob
