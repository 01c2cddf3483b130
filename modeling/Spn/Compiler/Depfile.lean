import Spn.Compiler.OccRest

/-! # Depfiles as compilers write them

The convention of GCC and Clang for Make: a rule for the target with its prerequisites,
and then rules without prerequisites. What is written so is read back.
-/
namespace Spn.Compiler

open Spn.Lib

/-! ## The convention -/

/-- A name as it is written, after this many backslashes of it: before white space they
are doubled and one more is added. -/
def escape : ℕ → Str → Str
  | slashes, [] => List.replicate slashes backslash
  | slashes, c :: name =>
    if c = backslash then escape (slashes + 1) name
    else if c = space ∨ c = tab then
      List.replicate (2 * slashes + 1) backslash ++ c :: escape 0 name
    else if c = hash then List.replicate (slashes + 1) backslash ++ c :: escape 0 name
    else if c = dollar then List.replicate slashes backslash ++ c :: c :: escape 0 name
    else List.replicate slashes backslash ++ c :: escape 0 name

/-- The name as it is written. -/
def written (name : Str) : Str := escape 0 name

/-- What can stand between two names. -/
inductive GapPiece
  | space | tab | continued (crlf : Bool)
  deriving DecidableEq, Repr

/-- The end of a line. -/
def eol (crlf : Bool) : Str := if crlf then [carriageReturn, lineFeed] else [lineFeed]

def GapPiece.render : GapPiece → Str
  | .space => [Compiler.space]
  | .tab => [Compiler.tab]
  | .continued crlf => backslash :: eol crlf

/-- What stands between two names. -/
abbrev Gap : Type := List GapPiece

def Gap.render (gap : Gap) : Str := gap.flatMap GapPiece.render

def eols (ends : List Bool) : Str := ends.flatMap eol

/-- A rule without prerequisites, after the ends of the lines before it. -/
structure Phony where
  ends : List Bool
  name : Str
  gap : Gap

def Phony.render (rule : Phony) : Str :=
  eols rule.ends ++ (written rule.name ++ colon :: Gap.render rule.gap)

structure Prereq where
  gap : Gap
  path : Str

def Prereq.render (prereq : Prereq) : Str := Gap.render prereq.gap ++ written prereq.path

structure Depfile where
  target : Str
  prereqs : List Prereq
  gap : Gap
  phony : List Phony
  ends : List Bool

/-- What follows the prerequisites. -/
def Depfile.renderRest (d : Depfile) : Str :=
  Gap.render d.gap ++ (d.phony.flatMap Phony.render ++ eols d.ends)

def Depfile.render (d : Depfile) : Str :=
  written d.target ++ colon :: (d.prereqs.flatMap Prereq.render ++ d.renderRest)

/-- Every colon is followed by a separator. -/
def Covered : Str → Prop
  | [] => True
  | c :: rest => (c = colon → occIsSep (first rest) = true) ∧ Covered rest

instance decidableCovered : DecidablePred Covered
  | [] => isTrue trivial
  | c :: rest =>
    have := decidableCovered rest
    inferInstanceAs (Decidable ((c = colon → occIsSep (first rest) = true) ∧ Covered rest))

/-- A name that stands before a colon. -/
structure Name (name : Str) : Prop where
  chars : ∀ c ∈ name, c ≠ 0 ∧ occIsEol c = false
  covered : Covered (written name)

/-- A path that stands among the prerequisites. -/
structure PrereqPath (pathMax : ℕ) (path : Str) : Prop where
  nonempty : path ≠ []
  chars : ∀ c ∈ path, c ≠ 0 ∧ occIsEol c = false
  last : path.getLast? ≠ some backslash
  unquoted : path.head? ≠ some doubleQuote
  short : path.length ≤ pathMax

/-- The gap after a colon does not begin with a continuation. -/
def Gap.AfterColon (gap : Gap) : Prop := ∀ crlf, gap.head? ≠ some (.continued crlf)

/-- The gap after the target's colon. -/
def Depfile.firstGap (d : Depfile) : Gap := (d.prereqs.head?.map Prereq.gap).getD d.gap

structure Depfile.Wellformed (pathMax : ℕ) (d : Depfile) : Prop where
  target : Name d.target
  colon : d.firstGap.AfterColon
  prereqs : ∀ prereq ∈ d.prereqs, prereq.gap ≠ [] ∧ PrereqPath pathMax prereq.path
  phony : ∀ rule ∈ d.phony, rule.ends ≠ [] ∧ Name rule.name ∧ rule.gap.AfterColon

/-! ## Names -/

theorem starts_slashes {c : UInt8} (hnul : c ≠ 0) (heol : occIsEol c = false) (count : ℕ)
    (rest : Str) : Starts (List.replicate (count + 1) backslash ++ c :: rest) := by
  refine ⟨(by decide : backslash ≠ 0), (by decide : occIsWhitespace backslash = false),
    fun _ => ?_⟩
  cases count with
  | zero => exact ⟨hnul, heol⟩
  | succ count =>
    exact ⟨(by decide : backslash ≠ 0), (by decide : occIsEol backslash = false)⟩

theorem starts_plain {c : UInt8} (hnul : c ≠ 0) (hwhite : occIsWhitespace c = false)
    (hslash : c ≠ backslash) (rest : Str) : Starts (c :: rest) :=
  ⟨hnul, hwhite, fun hc => absurd hc hslash⟩

/-- The characters of a name are not those that end it. -/
def Chars (name : Str) : Prop := ∀ c ∈ name, c ≠ 0 ∧ occIsEol c = false

theorem getLast_tail {c : UInt8} {name : Str} (hne : name ≠ [])
    (hlast : (c :: name).getLast? ≠ some backslash) : name.getLast? ≠ some backslash := by
  rwa [List.getLast?_cons_of_ne_nil hne] at hlast

/-- After the backslashes so far, a written name begins where a prerequisite can. -/
theorem escape_starts {name : Str} (hne : name ≠ []) (hchars : Chars name)
    (hlast : name.getLast? ≠ some backslash) (slashes : ℕ) (after : Str) :
    ∃ rest, escape slashes name ++ after = List.replicate slashes backslash ++ rest ∧
      Starts rest := by
  induction name generalizing slashes with
  | nil => exact absurd rfl hne
  | cons c name ih =>
    obtain ⟨hnul, heol⟩ := hchars c List.mem_cons_self
    rw [escape]
    split_ifs with hslash hblank hhash hdollar
    · have hrest : name ≠ [] := by
        intro hnil
        exact hlast (by simp [hnil, hslash])
      obtain ⟨rest, heq, hstarts⟩ := ih hrest (fun d hd => hchars d (List.mem_cons_of_mem _ hd))
        (getLast_tail hrest hlast) (slashes + 1)
      refine ⟨List.replicate 1 backslash ++ rest, ?_, ?_⟩
      · rw [heq, List.replicate_add, List.append_assoc]
      · obtain ⟨d, tail, rfl⟩ : ∃ d tail, rest = d :: tail := by
          cases rest with
          | nil => exact absurd rfl hstarts.1
          | cons d tail => exact ⟨d, tail, rfl⟩
        have hwhite := hstarts.2.1
        simp only [first_cons, occIsWhitespace, Bool.or_eq_false_iff] at hwhite
        exact starts_slashes hstarts.1 hwhite.2 0 tail
    · refine ⟨List.replicate (slashes + 1) backslash ++ c :: (escape 0 name ++ after), ?_,
        starts_slashes hnul heol slashes _⟩
      rw [show 2 * slashes + 1 = slashes + (slashes + 1) by omega,
        List.replicate_add slashes (slashes + 1), List.append_assoc, List.append_assoc]
      rfl
    · refine ⟨List.replicate 1 backslash ++ c :: (escape 0 name ++ after), ?_,
        starts_slashes hnul heol 0 _⟩
      rw [List.replicate_add]
      simp
    · refine ⟨c :: c :: (escape 0 name ++ after), by simp, ?_⟩
      exact starts_plain hnul (by rw [hdollar]; decide) hslash _
    · refine ⟨c :: (escape 0 name ++ after), by simp, ?_⟩
      have hwhite : occIsWhitespace c = false := by
        simpa [occIsWhitespace, occIsHspace, heol] using hblank
      exact starts_plain hnul hwhite hslash _

theorem written_starts {path : Str} {pathMax : ℕ} (h : PrereqPath pathMax path) (after : Str) :
    Starts (written path ++ after) := by
  obtain ⟨rest, heq, hstarts⟩ := escape_starts h.nonempty h.chars h.last 0 after
  rw [written, heq]
  exact hstarts

/-- A written name begins with a double quote only when the name does. -/
theorem first_written {path : Str} {pathMax : ℕ} (h : PrereqPath pathMax path) (after : Str) :
    first (written path ++ after) ≠ doubleQuote := by
  obtain ⟨hne, hchars, hlast, hunquoted, -⟩ := h
  cases path with
  | nil => exact absurd rfl hne
  | cons c name =>
    have hc : c ≠ doubleQuote := by simpa using hunquoted
    rw [written, escape]
    split_ifs with hslash hblank hhash hdollar
    · have hrest : name ≠ [] := by
        intro hnil
        exact hlast (by simp [hnil, hslash])
      obtain ⟨rest, heq, -⟩ := escape_starts hrest
        (fun d hd => hchars d (List.mem_cons_of_mem _ hd)) (getLast_tail hrest hlast) 1 after
      rw [heq]
      exact (by decide : backslash ≠ doubleQuote)
    · exact (by decide : backslash ≠ doubleQuote)
    · exact (by decide : backslash ≠ doubleQuote)
    · exact hc
    · exact hc

/-! ## Pushing -/

theorem occPush_ok {pathMax : ℕ} {out : Str} (h : out.length < pathMax) (c : UInt8) :
    occPush pathMax out c = .ok (out ++ [c]) := by
  rw [occPush, if_neg (by omega)]

theorem occPushSlashes_ok {pathMax count : ℕ} {out : Str} (h : out.length + count ≤ pathMax) :
    occPushSlashes pathMax count out = .ok (out ++ List.replicate count backslash) := by
  induction count generalizing out with
  | zero => simp [occPushSlashes]
  | succ count ih =>
    rw [occPushSlashes, occPush_ok (by omega)]
    have hlen : (out ++ [backslash]).length + count ≤ pathMax := by
      rw [List.length_append, List.length_singleton]
      omega
    calc occPushSlashes pathMax count (out ++ [backslash])
        = .ok ((out ++ [backslash]) ++ List.replicate count backslash) := ih hlen
      _ = .ok (out ++ List.replicate (count + 1) backslash) := by
        rw [List.append_assoc, List.replicate_succ]
        rfl

/-! ## A turn at a written name -/

section

variable {pathMax : ℕ} {content rest out : Str} {e : OccErr}

theorem leading_slashes {c : UInt8} (hc : c ≠ backslash) (count : ℕ) (after : Str) :
    leading (List.replicate count backslash ++ c :: after) = count := by
  induction count with
  | zero => exact leading_of_first hc
  | succ count ih => rw [List.replicate_succ, List.cons_append, leading_cons, ih]

theorem drop_slashes (count : ℕ) (after : Str) :
    (List.replicate count backslash ++ after).drop count = after :=
  List.drop_left' (List.length_replicate ..)

theorem drop_slashes_succ (count : ℕ) (c : UInt8) (after : Str) :
    (List.replicate count backslash ++ c :: after).drop (count + 1) = after := by
  rw [← List.drop_drop, drop_slashes]
  rfl

/-- An escaped blank. -/
theorem turnRest_blank {c : UInt8} (hc : c = space ∨ c = tab) {count : ℕ}
    (hlen : out.length + count < pathMax) (after : Str) :
    turnRest pathMax (List.replicate (2 * count + 1) backslash ++ c :: after) out =
      .ok (false, (out ++ List.replicate count backslash) ++ [c], after) := by
  have hslash : c ≠ backslash := by rcases hc with rfl | rfl <;> decide
  have hnul : c ≠ 0 := by rcases hc with rfl | rfl <;> decide
  have heol : ¬occIsEol c = true := by rcases hc with rfl | rfl <;> decide
  have hhalf : (2 * count + 1) / 2 = count := by omega
  have hpush : occPush pathMax (out ++ List.replicate count backslash) c =
      .ok (out ++ List.replicate count backslash ++ [c]) := occPush_ok (by simpa using hlen) c
  have hslashes : occPushSlashes pathMax count out = .ok (out ++ List.replicate count backslash) :=
    occPushSlashes_ok (by omega)
  have hfirst : first (List.replicate (2 * count + 1) backslash ++ c :: after) = backslash := rfl
  rw [turnRest, if_pos hfirst]
  simp only [leading_slashes hslash, drop_slashes, first_cons, if_neg hnul, if_neg heol, if_pos hc,
    hhalf, hslashes, drop_slashes_succ]
  simp [bind, Except.bind, hpush, Except.map]

/-- An escaped hash. -/
theorem turnRest_hash {count : ℕ} (hlen : out.length + count < pathMax) (after : Str) :
    turnRest pathMax (List.replicate (count + 1) backslash ++ hash :: after) out =
      .ok (false, (out ++ List.replicate count backslash) ++ [hash], after) := by
  have hpush : occPush pathMax (out ++ List.replicate count backslash) hash =
      .ok (out ++ List.replicate count backslash ++ [hash]) := occPush_ok (by simpa using hlen) hash
  have hslashes : occPushSlashes pathMax count out = .ok (out ++ List.replicate count backslash) :=
    occPushSlashes_ok (by omega)
  have hfirst : first (List.replicate (count + 1) backslash ++ hash :: after) = backslash := rfl
  rw [turnRest, if_pos hfirst]
  simp only [leading_slashes (show hash ≠ backslash by decide), drop_slashes, first_cons,
    drop_slashes_succ, Nat.add_sub_cancel, hslashes]
  simp [bind, Except.bind, hpush, Except.map, show hash ≠ 0 by decide,
    show occIsEol hash = false by decide, show ¬(hash = space ∨ hash = tab) by decide]

/-- A backslash before a character that is not escaped. -/
theorem turnRest_slash {c : UInt8} (hnul : c ≠ 0) (heol : occIsEol c = false)
    (hslash : c ≠ backslash) (hblank : ¬(c = space ∨ c = tab)) (hhash : c ≠ hash)
    (hlen : out.length < pathMax) (count : ℕ) (after : Str) :
    turnRest pathMax (List.replicate (count + 1) backslash ++ c :: after) out =
      .ok (false, out ++ [backslash], List.replicate count backslash ++ c :: after) := by
  have hfirst : first (List.replicate (count + 1) backslash ++ c :: after) = backslash := rfl
  have hdollar : ¬(first (List.replicate (count + 1) backslash ++ c :: after) = dollar ∧
      first ((List.replicate (count + 1) backslash ++ c :: after).drop 1) = dollar) := by
    rw [hfirst]
    exact fun h => absurd h.1 (by decide)
  rw [turnRest, if_pos hfirst]
  simp only [leading_slashes hslash, drop_slashes, first_cons, if_neg hnul, heol,
    Bool.false_eq_true, if_false, if_neg hblank, if_neg hhash]
  rw [plainRest, if_neg hdollar, hfirst, occPush_ok hlen]
  rfl

theorem turnRest_dollar (hlen : out.length < pathMax) (after : Str) :
    turnRest pathMax (dollar :: dollar :: after) out = .ok (false, out ++ [dollar], after) := by
  have hfirst : first (dollar :: dollar :: after) ≠ backslash := show dollar ≠ backslash by decide
  rw [turnRest, if_neg hfirst, plainRest, if_pos ⟨rfl, rfl⟩, occPush_ok hlen]
  rfl

theorem turnRest_plain {c : UInt8} (hslash : c ≠ backslash) (hdollar : c ≠ dollar)
    (hlen : out.length < pathMax) (after : Str) :
    turnRest pathMax (c :: after) out = .ok (false, out ++ [c], after) := by
  rw [turnRest, if_neg (show first (c :: after) ≠ backslash from hslash), plainRest,
    if_neg (fun h => hdollar h.1), first_cons, occPush_ok hlen]
  rfl

theorem unquotedLoop_turn (h : rest <:+ content) (hwhite : atWhitespace rest = false)
    {out' rest' : Str} (hturn : turnRest pathMax rest out = .ok (false, out', rest')) (turns : ℕ) :
    unquotedLoop pathMax (turns + 1) (.on content rest e) out =
      unquotedLoop pathMax turns (.on content rest' e) out' := by
  have hne : rest ≠ [] := by
    intro hnil
    simp [hnil, atWhitespace] at hwhite
  have honce := unquotedTurn_on (e := e) pathMax h hne out
  rw [hturn] at honce
  simp [unquotedLoop, occMatchWhitespace_on h, hwhite, honce, Except.map, onRest]

/-! ## A written name is read -/

/-- Where a name ends: at white space, or at a continuation. -/
def AfterName (rest : Str) : Prop :=
  atWhitespace rest = true ∨ ∃ line, rest = backslash :: line ∧ occIsEol (first line) = true

theorem not_atWhitespace_cons {c : UInt8} (h : occIsWhitespace c = false) (rest : Str) :
    atWhitespace (c :: rest) = false := by
  simp [atWhitespace, h]

theorem occIsWhitespace_of {c : UInt8} (heol : occIsEol c = false)
    (hblank : ¬(c = space ∨ c = tab)) : occIsWhitespace c = false := by
  simpa [occIsWhitespace, occIsHspace, heol] using hblank

/-- The loop stops where the name ends. -/
theorem unquotedLoop_stops (h : rest <:+ content) (hafter : AfterName rest) (turns : ℕ) :
    unquotedLoop pathMax (turns + 1) (.on content rest e) out =
      some (.ok (out, .on content rest e)) := by
  obtain hwhite | ⟨line, rfl, heol⟩ := hafter
  · simp [unquotedLoop, occMatchWhitespace_on h, hwhite]
  · have hfirst : first (backslash :: line) = backslash := rfl
    have hline : first line ≠ backslash := fun hc => by rw [hc] at heol; cases heol
    have hleading : leading (backslash :: line) = 1 := by
      rw [leading_cons, leading_of_first hline]
    have hnul : first line ≠ 0 := fun hc => by rw [hc] at heol; cases heol
    have hturn : turnRest pathMax (backslash :: line) out = .ok (true, out, backslash :: line) := by
      rw [turnRest, if_pos hfirst]
      simp [hleading, hnul, heol, occPushSlashes, Except.map]
    have honce := unquotedTurn_on (e := e) pathMax h (List.cons_ne_nil _ _) out
    rw [hturn] at honce
    simp [unquotedLoop, occMatchWhitespace_on h, not_atWhitespace_cons (show
      occIsWhitespace backslash = false by decide), honce, Except.map, onRest]

/-- The backslashes before a character that is not escaped are read one by one. -/
theorem unquotedLoop_slashes {c : UInt8} (hnul : c ≠ 0) (heol : occIsEol c = false)
    (hslash : c ≠ backslash) (hblank : ¬(c = space ∨ c = tab)) (hhash : c ≠ hash) {after : Str}
    (count : ℕ) (h : List.replicate count backslash ++ c :: after <:+ content)
    (hlen : out.length + count ≤ pathMax) (turns : ℕ) :
    unquotedLoop pathMax (turns + count)
        (.on content (List.replicate count backslash ++ c :: after) e) out =
      unquotedLoop pathMax turns (.on content (c :: after) e)
        (out ++ List.replicate count backslash) := by
  induction count generalizing out with
  | zero => simp
  | succ count ih =>
    have hshort : out.length < pathMax := by omega
    have hturn := turnRest_slash hnul heol hslash hblank hhash hshort count after
    have hwhite : atWhitespace (List.replicate (count + 1) backslash ++ c :: after) = false :=
      not_atWhitespace_cons (by decide) _
    have hrest : List.replicate count backslash ++ c :: after <:+ content :=
      (List.suffix_cons backslash _).trans h
    rw [← Nat.add_assoc, unquotedLoop_turn h hwhite hturn, ih hrest (by simp; omega)]
    simp [List.replicate_succ]

/-- After the backslashes so far, a written name is read to its end. -/
theorem unquotedLoop_escape {name after : Str} (hchars : Chars name) {slashes : ℕ}
    (hlast : (name = [] ∧ slashes = 0) ∨ name ≠ [] ∧ name.getLast? ≠ some backslash)
    (hafter : AfterName after) (h : escape slashes name ++ after <:+ content)
    (hlen : out.length + slashes + name.length ≤ pathMax) {turns : ℕ}
    (hturns : (escape slashes name ++ after).length < turns) :
    unquotedLoop pathMax turns (.on content (escape slashes name ++ after) e) out =
      some (.ok (out ++ List.replicate slashes backslash ++ name, .on content after e)) := by
  induction name generalizing slashes out turns with
  | nil =>
    obtain ⟨turns, rfl⟩ := Nat.exists_eq_succ_of_ne_zero (Nat.ne_zero_of_lt hturns)
    obtain ⟨-, rfl⟩ | ⟨hne, -⟩ := hlast
    · simpa [escape] using unquotedLoop_stops (by simpa [escape] using h) hafter turns
    · exact absurd rfl hne
  | cons c name ih =>
    obtain ⟨turns, rfl⟩ : ∃ t, turns = t + 1 := ⟨turns - 1, by omega⟩
    obtain ⟨hnul, heol⟩ := hchars c List.mem_cons_self
    have hchars' : Chars name := fun d hd => hchars d (List.mem_cons_of_mem _ hd)
    rw [List.length_cons] at hlen
    have hlast : (c :: name).getLast? ≠ some backslash :=
      (hlast.resolve_left fun hnil => List.cons_ne_nil _ _ hnil.1).2
    by_cases hslash : c = backslash
    · -- a backslash waits for what follows it
      subst hslash
      have hne : name ≠ [] := by
        intro hnil
        exact hlast (by simp [hnil])
      have htext : escape slashes (backslash :: name) = escape (slashes + 1) name := by
        simp [escape]
      rw [htext] at h hturns ⊢
      rw [ih hchars' (Or.inr ⟨hne, getLast_tail hne hlast⟩) h (by omega) hturns,
        List.replicate_succ']
      simp
    have hlast' : (name = [] ∧ (0 : ℕ) = 0) ∨ name ≠ [] ∧ name.getLast? ≠ some backslash := by
      by_cases hnil : name = []
      · exact Or.inl ⟨hnil, rfl⟩
      · exact Or.inr ⟨hnil, getLast_tail hnil hlast⟩
    -- the rest of the name, when no backslash waits
    have hgo : ∀ {out' : Str} {left : ℕ}, escape 0 name ++ after <:+ content →
        out'.length + name.length ≤ pathMax → (escape 0 name ++ after).length < left →
        unquotedLoop pathMax left (.on content (escape 0 name ++ after) e) out' =
          some (.ok (out' ++ name, .on content after e)) := by
      intro out' left hrest hshort hleft
      have hname := ih hchars' hlast' hrest (by simpa using hshort) hleft
      rwa [List.replicate_zero, List.append_nil] at hname
    by_cases hblank : c = space ∨ c = tab
    · have htext : escape slashes (c :: name) ++ after =
          List.replicate (2 * slashes + 1) backslash ++ c :: (escape 0 name ++ after) := by
        simp [escape, hslash, hblank]
      rw [htext] at h hturns ⊢
      have hrest := ((List.suffix_cons c _).trans (List.suffix_append _ _)).trans h
      rw [unquotedLoop_turn h (not_atWhitespace_cons (by decide) _)
        (turnRest_blank hblank (by omega) _), hgo hrest (by simp; omega)
        (by simp at hturns ⊢; omega)]
      simp
    by_cases hhash : c = hash
    · subst hhash
      have htext : escape slashes (hash :: name) ++ after =
          List.replicate (slashes + 1) backslash ++ hash :: (escape 0 name ++ after) := by
        simp [escape, hslash, hblank]
      rw [htext] at h hturns ⊢
      have hrest := ((List.suffix_cons hash _).trans (List.suffix_append _ _)).trans h
      rw [unquotedLoop_turn h (not_atWhitespace_cons (by decide) _)
        (turnRest_hash (by omega) _), hgo hrest (by simp; omega) (by simp at hturns ⊢; omega)]
      simp
    -- the backslashes that wait are read before the character is
    obtain ⟨left, hleft⟩ : ∃ left, turns + 1 = left + 1 + slashes := by
      refine ⟨turns - slashes, ?_⟩
      have hcount : slashes + 1 ≤ (escape slashes (c :: name) ++ after).length := by
        simp only [escape, if_neg hslash, if_neg hblank, if_neg hhash]
        split <;> simp
      omega
    by_cases hdollar : c = dollar
    · subst hdollar
      have htext : escape slashes (dollar :: name) ++ after =
          List.replicate slashes backslash ++ dollar :: dollar :: (escape 0 name ++ after) := by
        simp [escape, hslash, hblank, hhash]
      rw [htext] at h hturns ⊢
      have hone : dollar :: dollar :: (escape 0 name ++ after) <:+ content :=
        (List.suffix_append _ _).trans h
      have hrest := ((List.suffix_cons _ _).trans (List.suffix_cons _ _)).trans hone
      rw [hleft, unquotedLoop_slashes hnul heol hslash hblank hhash slashes h (by omega),
        unquotedLoop_turn hone (not_atWhitespace_cons (by decide) _)
        (turnRest_dollar (by simp; omega) _), hgo hrest (by simp; omega)
        (by simp at hturns ⊢; omega)]
      simp
    · have htext : escape slashes (c :: name) ++ after =
          List.replicate slashes backslash ++ c :: (escape 0 name ++ after) := by
        simp [escape, hslash, hblank, hhash, hdollar]
      rw [htext] at h hturns ⊢
      have hone : c :: (escape 0 name ++ after) <:+ content := (List.suffix_append _ _).trans h
      rw [hleft, unquotedLoop_slashes hnul heol hslash hblank hhash slashes h (by omega),
        unquotedLoop_turn hone (not_atWhitespace_cons (occIsWhitespace_of heol hblank) _)
        (turnRest_plain hslash hdollar (by simp; omega) _),
        hgo ((List.suffix_cons _ _).trans hone) (by simp; omega) (by simp at hturns ⊢; omega)]
      simp

end

/-! ## The way to a name -/

theorem seekRest_congr {s t : Str} (h : skipHspace s = skipHspace t) : seekRest s = seekRest t := by
  cases hskip : skipHspace t with
  | nil => rw [seekRest_nil hskip, seekRest_nil (h.trans hskip)]
  | cons c after => rw [seekRest_cons hskip, seekRest_cons (h.trans hskip)]

theorem skipHspace_of_not {c : UInt8} (h : occIsHspace c = false) (rest : Str) :
    skipHspace (c :: rest) = c :: rest := by
  simp [skipHspace, h]

theorem seekRest_piece (piece : GapPiece) (rest : Str) :
    seekRest (piece.render ++ rest) = seekRest rest := by
  cases piece with
  | space => exact seekRest_congr rfl
  | tab => exact seekRest_congr rfl
  | continued crlf =>
    have hslash := fun rest => skipHspace_of_not (show occIsHspace backslash = false by decide) rest
    cases crlf with
    | false => exact seekRest_cons (hslash _)
    | true => exact seekRest_cons (hslash _)

/-- A gap is gone over. -/
theorem seekRest_gap (gap : Gap) (rest : Str) :
    seekRest (Gap.render gap ++ rest) = seekRest rest := by
  induction gap with
  | nil => rfl
  | cons piece gap ih =>
    rw [Gap.render, List.flatMap_cons, List.append_assoc, seekRest_piece]
    exact ih

theorem seekRest_starts {rest : Str} (h : Starts rest) : seekRest rest = (true, rest, .ok) := by
  obtain ⟨hnul, hwhite, hslash⟩ := h
  cases rest with
  | nil => exact absurd rfl hnul
  | cons c after =>
    simp only [first_cons, List.tail_cons] at hnul hwhite hslash
    simp only [occIsWhitespace, Bool.or_eq_false_iff] at hwhite
    rw [seekRest_cons (skipHspace_of_not hwhite.1 after), if_neg hnul, hwhite.2]
    by_cases hc : c = backslash
    · obtain ⟨hnext, heol⟩ := hslash hc
      simp only [occIsEol, Bool.or_eq_false_iff, decide_eq_false_iff_not] at heol
      simp [hc, hnext, heol.1, heol.2]
    · simp [hc]

theorem skipWhitespace_eols (ends : List Bool) (rest : Str) :
    skipWhitespace (eols ends ++ rest) = skipWhitespace rest := by
  induction ends with
  | nil => rfl
  | cons crlf ends ih =>
    cases crlf with
    | false => exact ih
    | true => exact ih

/-! ## Targets -/

theorem parseTarget_covered {text : Str} (heol : ∀ c ∈ text, occIsEol c = false)
    (hcovered : Covered text) {rest : Str} (hrest : occIsSep (first rest) = false) :
    parseTarget (text ++ colon :: rest) = (.ok, rest) := by
  induction text with
  | nil =>
    rw [List.nil_append, parseTarget, if_neg (show ¬occIsEol colon = true by decide),
      if_pos ⟨rfl, hrest⟩]
  | cons c text ih =>
    obtain ⟨hsep, hcovered⟩ := hcovered
    obtain ⟨hc, htext⟩ := List.forall_mem_cons.1 heol
    have hfirst : ¬(c = colon ∧ occIsSep (first (text ++ colon :: rest)) = false) := by
      intro h
      obtain ⟨hcolon, hnot⟩ := h
      have hyes := hsep hcolon
      cases text with
      | nil => exact absurd hyes (by decide)
      | cons d text =>
        rw [List.cons_append, first_cons] at hnot
        rw [first_cons, hnot] at hyes
        cases hyes
    rw [List.cons_append, parseTarget, hc, if_neg (by decide), if_neg hfirst]
    exact ih htext hcovered

theorem mem_escape {c : UInt8} {name : Str} {slashes : ℕ} (h : c ∈ escape slashes name) :
    c = backslash ∨ c ∈ name := by
  induction name generalizing slashes with
  | nil => exact Or.inl (List.eq_of_mem_replicate h)
  | cons d name ih =>
    rw [escape] at h
    split_ifs at h
    · exact (ih h).imp_right (List.mem_cons_of_mem _)
    all_goals
      have hname : c ∈ escape 0 name → c = backslash ∨ c ∈ name := ih
      obtain hslash | hrest := List.mem_append.1 h
      · exact Or.inl (List.eq_of_mem_replicate hslash)
      · simp only [List.mem_cons] at hrest ⊢
        tauto

theorem written_eol {name : Str} (h : Chars name) : ∀ c ∈ written name, occIsEol c = false := by
  intro c hc
  obtain rfl | hmem := mem_escape hc
  · decide
  · exact (h c hmem).2

theorem escape_succ (name : Str) (slashes : ℕ) :
    ∃ rest, escape (slashes + 1) name = backslash :: rest := by
  induction name generalizing slashes with
  | nil => exact ⟨_, rfl⟩
  | cons c name ih =>
    rw [escape]
    split_ifs
    · exact ih (slashes + 1)
    · exact ⟨_, rfl⟩
    · exact ⟨_, rfl⟩
    · exact ⟨_, rfl⟩
    · exact ⟨_, rfl⟩

/-- A rule begins where neither white space nor the end is seen. -/
theorem first_rule {name : Str} (h : Chars name) (rest : Str) :
    ∃ c after, written name ++ colon :: rest = c :: after ∧ c ≠ 0 ∧ occIsWhitespace c = false := by
  cases name with
  | nil => exact ⟨colon, rest, rfl, by decide, by decide⟩
  | cons c name =>
    obtain ⟨hnul, heol⟩ := h c List.mem_cons_self
    rw [written, escape]
    split_ifs with hslash hblank
    · obtain ⟨more, hmore⟩ := escape_succ name 0
      exact ⟨backslash, more ++ colon :: rest, by rw [hmore]; rfl, by decide, by decide⟩
    · exact ⟨backslash, _, rfl, by decide, by decide⟩
    · exact ⟨backslash, _, rfl, by decide, by decide⟩
    · exact ⟨c, _, rfl, hnul, occIsWhitespace_of heol hblank⟩
    · exact ⟨c, _, rfl, hnul, occIsWhitespace_of heol hblank⟩

theorem skipWhitespace_of_not {c : UInt8} (h : occIsWhitespace c = false) (rest : Str) :
    skipWhitespace (c :: rest) = c :: rest := by
  simp [skipWhitespace, h]

/-- A rule's target is read up to the gap after its colon. -/
theorem parseTarget_rule {name : Str} (h : Name name) {gap : Gap} (hgap : gap.AfterColon)
    {after : Str} (hafter : gap = [] → occIsSep (first after) = false) :
    parseTarget (written name ++ colon :: (Gap.render gap ++ after)) =
      (.ok, Gap.render gap ++ after) := by
  refine parseTarget_covered (written_eol h.chars) h.covered ?_
  cases gap with
  | nil => exact hafter rfl
  | cons piece gap =>
    cases piece with
    | space => rfl
    | tab => rfl
    | continued crlf => exact absurd rfl (hgap crlf)

/-- The text is at its end or at the end of a line. -/
theorem eols_cons {ends : List Bool} (h : ends ≠ []) (rest : Str) :
    ∃ c after, eols ends ++ rest = c :: after ∧ c ≠ 0 ∧ occIsEol c = true := by
  cases ends with
  | nil => exact absurd rfl h
  | cons crlf ends =>
    cases crlf with
    | false => exact ⟨lineFeed, _, rfl, by decide, by decide⟩
    | true => exact ⟨carriageReturn, _, rfl, by decide, by decide⟩

theorem occIsEol_not {c : UInt8} (h : occIsEol c = true) :
    occIsHspace c = false ∧ occIsSep c = false ∧ occIsWhitespace c = true := by
  simp only [occIsEol, Bool.or_eq_true, decide_eq_true_eq] at h
  rcases h with rfl | rfl <;> decide

def phonyText (phony : List Phony) (ends : List Bool) : Str :=
  phony.flatMap Phony.render ++ eols ends

/-- After the prerequisites the text is at its end or at the end of the line. -/
theorem phonyText_atEol {phony : List Phony} {ends : List Bool}
    (h : ∀ rule ∈ phony, rule.ends ≠ []) : phonyText phony ends = [] ∨
      ∃ c after, phonyText phony ends = c :: after ∧ c ≠ 0 ∧ occIsEol c = true := by
  cases phony with
  | nil =>
    by_cases hends : ends = []
    · exact Or.inl (by rw [hends]; rfl)
    · obtain ⟨c, after, heq, hc⟩ := eols_cons hends []
      exact Or.inr ⟨c, after, by simpa [phonyText] using heq, hc⟩
  | cons rule phony =>
    obtain ⟨c, after, heq, hc⟩ := eols_cons (h rule List.mem_cons_self)
      ((written rule.name ++ colon :: Gap.render rule.gap) ++ phonyText phony ends)
    refine Or.inr ⟨c, after, ?_, hc⟩
    rw [← heq]
    simp [phonyText, Phony.render]

theorem atEol_phony {phony : List Phony} (ends : List Bool)
    (h : ∀ rule ∈ phony, rule.ends ≠ []) :
    atWhitespace (phonyText phony ends) = true ∧
      occIsSep (first (phonyText phony ends)) = false := by
  obtain hnil | ⟨c, after, heq, -, heol⟩ := phonyText_atEol h
  · rw [hnil]
    exact ⟨rfl, rfl⟩
  · rw [heq]
    exact ⟨by simp [atWhitespace, (occIsEol_not heol).2.2], (occIsEol_not heol).2.1⟩

/-- The rules without prerequisites are gone over. -/
theorem seekRest_phony {phony : List Phony} {ends : List Bool}
    (h : ∀ rule ∈ phony, rule.ends ≠ [] ∧ Name rule.name ∧ rule.gap.AfterColon) :
    seekRest (phonyText phony ends) = (false, [], .ok) := by
  induction phony with
  | nil =>
    by_cases hends : ends = []
    · subst hends
      exact seekRest_nil rfl
    · obtain ⟨c, after, heq, hnul, heol⟩ := eols_cons hends []
      have hline := skipWhitespace_eols ends []
      rw [heq] at hline
      have htext : phonyText [] ends = c :: after := by simpa [phonyText] using heq
      rw [htext, seekRest_cons (skipHspace_of_not (occIsEol_not heol).1 after), if_neg hnul,
        if_pos heol, hline]
      rfl
  | cons rule phony ih =>
    obtain ⟨⟨hends, hname, hgap⟩, hrest⟩ := List.forall_mem_cons.1 h
    obtain ⟨c, after, heq, hnul, heol⟩ := eols_cons hends
      (written rule.name ++ colon :: (Gap.render rule.gap ++ phonyText phony ends))
    have hline := skipWhitespace_eols rule.ends
      (written rule.name ++ colon :: (Gap.render rule.gap ++ phonyText phony ends))
    obtain ⟨d, more, hrule, hdnul, hdwhite⟩ := first_rule hname.chars
      (Gap.render rule.gap ++ phonyText phony ends)
    have hline' := (atEol_phony ends fun r hr => (hrest r hr).1).2
    have htarget := parseTarget_rule hname hgap fun _ => hline'
    have htext : phonyText (rule :: phony) ends = c :: after := by
      rw [← heq]
      simp [phonyText, Phony.render]
    rw [heq, hrule, skipWhitespace_of_not hdwhite] at hline
    rw [hrule] at htarget
    rw [htext, seekRest_cons (skipHspace_of_not (occIsEol_not heol).1 after), if_neg hnul,
      if_pos heol, hline]
    simp only [first_cons, if_neg hdnul, htarget, if_true, seekRest_gap, ih hrest]

/-! ## What is written is read -/

theorem afterName_gap {gap : Gap} (h : gap ≠ []) (rest : Str) :
    AfterName (Gap.render gap ++ rest) := by
  cases gap with
  | nil => exact absurd rfl h
  | cons piece gap =>
    cases piece with
    | space => exact Or.inl rfl
    | tab => exact Or.inl rfl
    | continued crlf =>
      refine Or.inr ⟨eol crlf ++ (Gap.render gap ++ rest), ?_, ?_⟩
      · simp [Gap.render, GapPiece.render]
      · cases crlf <;> rfl

section

variable {pathMax : ℕ} {content : Str}

theorem occParseOne_written {path after : Str} (h : PrereqPath pathMax path)
    (hafter : AfterName after) (hsuffix : written path ++ after <:+ content) (e : OccErr) :
    occParseOne pathMax (.on content (written path ++ after) e) =
      some (.ok (path, .on content after e)) := by
  have hquote := occMatchEat_on (e := e) hsuffix (show doubleQuote ≠ 0 by decide)
  rw [if_neg (first_written h after)] at hquote
  have hshort : ([] : Str).length + 0 + path.length ≤ pathMax := by simpa using h.short
  have hread := unquotedLoop_escape (e := e) h.chars (Or.inr ⟨h.nonempty, h.last⟩) hafter hsuffix
    hshort (lt_turns (e := e) hsuffix)
  rw [occParseOne, hquote]
  simpa [written] using hread

/-- A prerequisite is read, up to what comes after it. -/
theorem occNext_written {prereq : Prereq} {after : Str} (h : PrereqPath pathMax prereq.path)
    (hafter : AfterName after) (hsuffix : prereq.render ++ after <:+ content) :
    occNext pathMax (.on content (prereq.render ++ after) .ok) =
      some (some prereq.path, .on content after .ok) := by
  have hseek : seekRest (prereq.render ++ after) = (true, written prereq.path ++ after, .ok) := by
    rw [Prereq.render, List.append_assoc, seekRest_gap, seekRest_starts (written_starts h after)]
  have hname : written prereq.path ++ after <:+ content := by
    rw [Prereq.render, List.append_assoc] at hsuffix
    exact (List.suffix_append _ _).trans hsuffix
  rw [occNext, occSeek_on hsuffix, hseek]
  simp [occParseOne_written h hafter hname, on_err]

theorem prereqsLoop_written {prereqs : List Prereq} {after : Str}
    (h : ∀ prereq ∈ prereqs, prereq.gap ≠ [] ∧ PrereqPath pathMax prereq.path)
    (hafter : AfterName after) (hend : seekRest after = (false, [], .ok))
    (hsuffix : prereqs.flatMap Prereq.render ++ after <:+ content) {turns : ℕ}
    (hturns : (prereqs.flatMap Prereq.render ++ after).length < turns) :
    prereqsLoop pathMax turns (.on content (prereqs.flatMap Prereq.render ++ after) .ok) =
      some (prereqs.map Prereq.path, .ok) := by
  induction prereqs generalizing turns with
  | nil =>
    obtain ⟨turns, rfl⟩ : ∃ t, turns = t + 1 := ⟨turns - 1, by omega⟩
    rw [List.flatMap_nil, List.nil_append] at hsuffix ⊢
    have hseek := occSeek_on hsuffix
    rw [hend] at hseek
    rw [prereqsLoop, occNext, hseek]
    rfl
  | cons prereq prereqs ih =>
    obtain ⟨turns, rfl⟩ : ∃ t, turns = t + 1 := ⟨turns - 1, by omega⟩
    obtain ⟨⟨-, hpath⟩, hrest⟩ := List.forall_mem_cons.1 h
    rw [List.flatMap_cons, List.append_assoc] at hsuffix hturns ⊢
    have hname : AfterName (prereqs.flatMap Prereq.render ++ after) := by
      cases prereqs with
      | nil => exact hafter
      | cons next more =>
        have hgap := (hrest next List.mem_cons_self).1
        rw [List.flatMap_cons, Prereq.render, List.append_assoc, List.append_assoc]
        exact afterName_gap hgap _
    have hlen : 0 < prereq.render.length := by
      obtain ⟨c, name, hpathne⟩ := List.exists_cons_of_ne_nil hpath.nonempty
      have hstarts := written_starts hpath []
      rw [List.append_nil] at hstarts
      rw [Prereq.render, List.length_append]
      cases hwritten : written prereq.path with
      | nil => rw [hwritten] at hstarts; exact absurd rfl hstarts.1
      | cons d rest => rw [List.length_cons]; omega
    have hmore := @ih hrest ((List.suffix_append _ _).trans hsuffix) turns
      (by simp only [List.length_append] at hturns ⊢; omega)
    rw [prereqsLoop, occNext_written hpath hname hsuffix]
    simp [hmore]

end

/-- After the target's colon comes the first gap. -/
theorem exists_firstGap {pathMax : ℕ} {d : Depfile} (h : d.Wellformed pathMax) :
    ∃ after, d.prereqs.flatMap Prereq.render ++ d.renderRest = Gap.render d.firstGap ++ after ∧
      (d.firstGap = [] → occIsSep (first after) = false) := by
  obtain ⟨-, -, hprereqs, hphony⟩ := h
  unfold Depfile.firstGap
  cases hp : d.prereqs with
  | nil =>
    have hline := (atEol_phony d.ends fun r hr => (hphony r hr).1).2
    exact ⟨phonyText d.phony d.ends, rfl, fun _ => hline⟩
  | cons prereq prereqs =>
    have hgap := (hprereqs prereq (by simp [hp])).1
    refine ⟨written prereq.path ++ (prereqs.flatMap Prereq.render ++ d.renderRest), ?_,
      fun hnil => absurd hnil hgap⟩
    simp [Prereq.render]

theorem gnuParseDepfile_render {pathMax : ℕ} {d : Depfile} (h : d.Wellformed pathMax) :
    gnuParseDepfile pathMax d.render = some (d.prereqs.map Prereq.path, .ok) := by
  obtain ⟨after, heq, hafter⟩ := exists_firstGap h
  have hsuffix : d.prereqs.flatMap Prereq.render ++ d.renderRest <:+ d.render :=
    (List.suffix_cons colon _).trans (List.suffix_append _ _)
  have htarget : parseTarget d.render = (.ok, d.prereqs.flatMap Prereq.render ++ d.renderRest) := by
    rw [Depfile.render, heq]
    exact parseTarget_rule h.target h.colon hafter
  have hinit : occInit d.render =
      some (.on d.render (d.prereqs.flatMap Prereq.render ++ d.renderRest) .ok) := by
    obtain ⟨c, more, hcontent, hnul, hwhite⟩ := first_rule h.target.chars
      (d.prereqs.flatMap Prereq.render ++ d.renderRest)
    have hskip : skipWhitespace d.render = d.render := by
      rw [Depfile.render, hcontent, skipWhitespace_of_not hwhite]
    have hfirst : first d.render ≠ 0 := by
      rw [Depfile.render, hcontent]
      exact hnul
    rw [occInit_on, hskip, if_neg hfirst, htarget]
  have hends := fun rule hr => (h.phony rule hr).1
  have hname : AfterName d.renderRest := by
    by_cases hgap : d.gap = []
    · rw [Depfile.renderRest, hgap]
      exact Or.inl (atEol_phony _ hends).1
    · exact afterName_gap hgap _
  have hend : seekRest d.renderRest = (false, [], .ok) := by
    rw [Depfile.renderRest, seekRest_gap]
    exact seekRest_phony h.phony
  rw [gnuParseDepfile, hinit]
  exact prereqsLoop_written h.prereqs hname hend hsuffix (lt_turns hsuffix)

/-- The parser reads back the prerequisites of a depfile that is written by the
convention, and on any content it ends without a read that is outside. -/
theorem depfile_reads_back (pathMax : ℕ) :
    (∀ d : Depfile, d.Wellformed pathMax →
      gnuParseDepfile pathMax d.render = some (d.prereqs.map Prereq.path, .ok)) ∧
    ∀ content, gnuParseDepfile pathMax content ≠ none :=
  ⟨fun _ h => gnuParseDepfile_render h, gnuParseDepfile_ends pathMax⟩

/-- A target on a drive, a continued line, a path with a blank, and a rule without
prerequisites. -/
theorem depfile_reads_back_drive :
    gnuParseDepfile 4096 (str "C:/m.o: m.c \\\n a\\ b.h\n\na\\ b.h:\n") =
      some ([str "m.c", str "a b.h"], .ok) := by
  have h : ({ target := str "C:/m.o", gap := [], ends := [false]
              prereqs := [⟨[.space], str "m.c"⟩,
                ⟨[.space, .continued false, .space], str "a b.h"⟩]
              phony := [⟨[false, false], str "a b.h", []⟩] } : Depfile).Wellformed 4096 := by
    have hpaths : ∀ path ∈ [str "m.c", str "a b.h"], PrereqPath 4096 path := by
      intro path hpath
      simp only [List.mem_cons, List.not_mem_nil, or_false] at hpath
      obtain rfl | rfl := hpath
      · constructor <;> decide +kernel
      · constructor <;> decide +kernel
    refine ⟨⟨by decide +kernel, by decide +kernel⟩, by simp [Depfile.firstGap, Gap.AfterColon],
      ?_, ?_⟩
    · simpa using hpaths
    · intro rule hrule
      obtain rfl := List.mem_singleton.1 hrule
      exact ⟨by decide, ⟨by decide +kernel, by decide +kernel⟩, by simp [Gap.AfterColon]⟩
  exact (depfile_reads_back 4096).1 _ h

/-- What the convention leaves open is not read back: a colon in a target, or in a rule
without prerequisites, that is before no separator is taken for the rule's; a carriage
return ends a name; a path that is too long is an error; and a continuation right after
the target's colon is taken for a separator. -/
theorem colon_splits_target :
    let read := fun d : Depfile => gnuParseDepfile 4 d.render
    read ⟨str "a:b", [⟨[.space], str "c"⟩], [], [], [false]⟩ = some ([str "b:", str "c"], .ok) ∧
    read ⟨str "a", [⟨[.space], str "c"⟩], [], [⟨[false], str "b:d", []⟩], [false]⟩ =
      some ([str "c", str "d:"], .ok) ∧
    read ⟨str "a", [⟨[.space], str "c\rd"⟩], [], [], [false]⟩ =
      some ([str "c"], .missingColon) ∧
    read ⟨str "a", [⟨[.space], str "abcde"⟩], [], [], [false]⟩ = some ([], .prereqTooLong) ∧
    read ⟨str "a", [⟨[.continued false], str "c"⟩], [], [], [false]⟩ =
      some ([], .missingColon) := by
  decide +kernel

end Spn.Compiler
