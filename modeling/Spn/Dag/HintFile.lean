import Spn.Dag.Lossless

/-! # The file of hints

A hint holds signed numbers. Each but the least is read back as it was written, and the least
one cannot be: its text says to negate it.
-/
namespace Spn.Dag.CacheFile

open Spn.Lib

variable {absolute : Str → Bool} {s rest : Str}

/-! ## The text of a row -/

/-- The fields of a row as they stand in the text. -/
structure HintText where
  inode : Str
  sec : Signed
  nsec : Signed
  size : Signed
  digest : Str
  root : Str
  sub : Str

namespace HintText

variable (t : HintText)

def text : Str :=
  t.inode ++ space :: (t.sec.text ++ space :: (t.nsec.text ++ space :: (t.size.text ++ space ::
    (t.digest ++ space :: (t.root ++ space :: (t.sub ++ [newline]))))))

/-- What the row says. -/
def hint : Hint :=
  (⟨(rootOf (numeral t.root % 2 ^ 64)).getD .none, t.sub⟩,
    ⟨0, numeral t.inode % 2 ^ 64, t.sec.value, t.nsec.value, t.size.value,
      (digestParse t.digest).getD .zero⟩)

def fields : List Signed := [t.sec, t.nsec, t.size]

/-- The row is one that is accepted. -/
structure Accepted (absolute : Str → Bool) : Prop where
  inode : Digits t.inode
  signed : ∀ f ∈ t.fields, Digits f.digits ∧ ¬f.Overflows
  digest : (digestParse t.digest).isSome
  root : Digits t.root ∧ (rootOf (numeral t.root % 2 ^ 64)).isSome
  path : PathOk absolute t.hint.1

/-- A number of the row stands for the least one without a sign. -/
def HasLeast : Prop := ∃ f ∈ t.fields, f.negative = false ∧ f.magnitude = 2 ^ 63

end HintText

theorem parseHintRow_text {t : HintText} (ht : t.Accepted absolute) (rest : Str) :
    parseHintRow absolute (t.text ++ rest) = .ok (t.hint, rest) := by
  obtain ⟨hsec, hsec'⟩ := ht.signed t.sec (by simp [HintText.fields])
  obtain ⟨hnsec, hnsec'⟩ := ht.signed t.nsec (by simp [HintText.fields])
  obtain ⟨hsize, hsize'⟩ := ht.signed t.size (by simp [HintText.fields])
  obtain ⟨d, hd⟩ := Option.isSome_iff_exists.1 ht.digest
  obtain ⟨root, hroot⟩ := Option.isSome_iff_exists.1 ht.root.2
  have hpath : rowPath absolute root (t.sub ++ newline :: rest) = .ok (t.hint.1, rest) := by
    have heq : t.hint.1.root = root := by simp only [HintText.hint, hroot, Option.getD_some]
    rw [← heq]
    exact rowPath_append ht.path rest
  have htext : t.text ++ rest = t.inode ++ space :: (t.sec.text ++ space :: (t.nsec.text ++ space ::
      (t.size.text ++ space :: (t.digest ++ space :: (t.root ++ space ::
        (t.sub ++ newline :: rest)))))) := by
    simp [HintText.text]
  rw [htext, parseHintRow, Reader.bind_ok (rowU64_digits ht.inode (stops_space _)),
    Reader.bind_ok (rowLit_cons space _), Reader.bind_ok (rowS64_text hsec hsec' (stops_space _)),
    Reader.bind_ok (rowLit_cons space _), Reader.bind_ok (rowS64_text hnsec hnsec' (stops_space _)),
    Reader.bind_ok (rowLit_cons space _), Reader.bind_ok (rowS64_text hsize hsize' (stops_space _)),
    Reader.bind_ok (rowLit_cons space _), Reader.bind_ok (rowDigest_append hd _),
    Reader.bind_ok (rowLit_cons space _), Reader.bind_ok (rowRoot_digits ht.root.1 (stops_space _) hroot),
    Reader.bind_ok (rowLit_cons space _), Reader.bind_ok hpath]
  simp only [HintText.hint, hd, Option.getD_some]
  rfl

/-- What is read as a row is the text of an accepted row. -/
theorem parseHintRow_eq_ok (s : Str) (h : Hint) (rest : Str)
    (hread : parseHintRow absolute s = .ok (h, rest)) :
    ∃ t : HintText, t.Accepted absolute ∧ s = t.text ++ rest ∧ h = t.hint := by
  obtain ⟨inode, s₁, hinode, hread⟩ := Reader.bind_eq_ok.1 hread
  obtain ⟨u₁, s₂, hlit₁, hread⟩ := Reader.bind_eq_ok.1 hread
  obtain ⟨sec, s₃, hsec, hread⟩ := Reader.bind_eq_ok.1 hread
  obtain ⟨u₂, s₄, hlit₂, hread⟩ := Reader.bind_eq_ok.1 hread
  obtain ⟨nsec, s₅, hnsec, hread⟩ := Reader.bind_eq_ok.1 hread
  obtain ⟨u₃, s₆, hlit₃, hread⟩ := Reader.bind_eq_ok.1 hread
  obtain ⟨size, s₇, hsize, hread⟩ := Reader.bind_eq_ok.1 hread
  obtain ⟨u₄, s₈, hlit₄, hread⟩ := Reader.bind_eq_ok.1 hread
  obtain ⟨digest, s₉, hdigest, hread⟩ := Reader.bind_eq_ok.1 hread
  obtain ⟨u₅, s₁₀, hlit₅, hread⟩ := Reader.bind_eq_ok.1 hread
  obtain ⟨root, s₁₁, hroot, hread⟩ := Reader.bind_eq_ok.1 hread
  obtain ⟨u₆, s₁₂, hlit₆, hread⟩ := Reader.bind_eq_ok.1 hread
  obtain ⟨path, s₁₃, hpath, hread⟩ := Reader.bind_eq_ok.1 hread
  obtain ⟨rfl, rfl⟩ := Reader.pure_eq_ok.1 hread
  obtain ⟨ds, hds, -, rfl, rfl⟩ := rowU64_eq_ok hinode
  obtain rfl := rowLit_eq_ok hlit₁
  obtain ⟨t₁, ht₁, ht₁', -, rfl, rfl⟩ := rowS64_eq_ok hsec
  obtain rfl := rowLit_eq_ok hlit₂
  obtain ⟨t₂, ht₂, ht₂', -, rfl, rfl⟩ := rowS64_eq_ok hnsec
  obtain rfl := rowLit_eq_ok hlit₃
  obtain ⟨t₃, ht₃, ht₃', -, rfl, rfl⟩ := rowS64_eq_ok hsize
  obtain rfl := rowLit_eq_ok hlit₄
  obtain ⟨hex, hhex, rfl⟩ := rowDigest_eq_ok hdigest
  obtain rfl := rowLit_eq_ok hlit₅
  obtain ⟨rs, hrs, -, rfl, hrs'⟩ := rowRoot_eq_ok hroot
  obtain rfl := rowLit_eq_ok hlit₆
  obtain ⟨rfl, hok, rfl⟩ := rowPath_eq_ok hpath
  have hhint : (⟨ds, t₁, t₂, t₃, hex, rs, path.sub⟩ : HintText).hint =
      (path, ⟨0, numeral ds % 2 ^ 64, t₁.value, t₂.value, t₃.value, digest⟩) := by
    simp only [HintText.hint, hrs', hhex, Option.getD_some]
  refine ⟨⟨ds, t₁, t₂, t₃, hex, rs, path.sub⟩, ⟨hds, ?_, by rw [hhex]; rfl, ⟨hrs, by rw [hrs']; rfl⟩, ?_⟩,
    by simp [HintText.text], hhint.symm⟩
  · intro f hf
    simp only [HintText.fields, List.mem_cons, List.not_mem_nil, or_false] at hf
    rcases hf with rfl | rfl | rfl
    · exact ⟨ht₁, ht₁'⟩
    · exact ⟨ht₂, ht₂'⟩
    · exact ⟨ht₃, ht₃'⟩
  · rw [hhint]
    exact hok

/-- The text begins as a row up to a number that cannot be negated. -/
def OverflowsAt (s : Str) : Prop :=
  ∃ (inode : Str) (before : List Signed) (t : Signed) (rest : Str), Digits inode ∧
    before.length ≤ 2 ∧ (∀ f ∈ before, Digits f.digits ∧ ¬f.Overflows) ∧ Digits t.digits ∧
    t.Overflows ∧ Stops rest ∧
    s = inode ++ space :: (before.flatMap (fun f => f.text ++ [space]) ++ (t.text ++ rest))

theorem parseHintRow_overflow (h : OverflowsAt s) :
    parseHintRow absolute s = .error .overflow := by
  obtain ⟨inode, before, t, rest, hinode, hlen, hbefore, ht, hover, hrest, rfl⟩ := h
  match before, hlen, hbefore with
  | [], _, _ =>
    rw [parseHintRow, Reader.bind_ok (rowU64_digits hinode (stops_space _)),
      Reader.bind_ok (rowLit_cons space _), List.flatMap_nil, List.nil_append,
      Reader.bind_error (rowS64_overflow ht hover hrest)]
  | [a], _, hbefore =>
    obtain ⟨ha, ha'⟩ := hbefore a (by simp)
    have htext : [a].flatMap (fun f => f.text ++ [space]) ++ (t.text ++ rest) =
        a.text ++ space :: (t.text ++ rest) := by simp
    rw [htext, parseHintRow, Reader.bind_ok (rowU64_digits hinode (stops_space _)),
      Reader.bind_ok (rowLit_cons space _), Reader.bind_ok (rowS64_text ha ha' (stops_space _)),
      Reader.bind_ok (rowLit_cons space _), Reader.bind_error (rowS64_overflow ht hover hrest)]
  | [a, b], _, hbefore =>
    obtain ⟨ha, ha'⟩ := hbefore a (by simp)
    obtain ⟨hb, hb'⟩ := hbefore b (by simp)
    have htext : [a, b].flatMap (fun f => f.text ++ [space]) ++ (t.text ++ rest) =
        a.text ++ space :: (b.text ++ space :: (t.text ++ rest)) := by simp
    rw [htext, parseHintRow, Reader.bind_ok (rowU64_digits hinode (stops_space _)),
      Reader.bind_ok (rowLit_cons space _), Reader.bind_ok (rowS64_text ha ha' (stops_space _)),
      Reader.bind_ok (rowLit_cons space _), Reader.bind_ok (rowS64_text hb hb' (stops_space _)),
      Reader.bind_ok (rowLit_cons space _), Reader.bind_error (rowS64_overflow ht hover hrest)]

/-- A row overflows only at a number that cannot be negated. -/
theorem overflowsAt_of_parseHintRow (h : parseHintRow absolute s = .error .overflow) :
    OverflowsAt s := by
  have hu64 := rowU64_never (e := .overflow) (by decide)
  have hlit := rowLit_never space (e := .overflow) (by decide)
  rcases Reader.bind_eq_error.1 h with hfail | ⟨inode, s₁, hinode, h₁⟩
  · exact absurd hfail (hu64 _)
  rcases Reader.bind_eq_error.1 h₁ with hfail | ⟨u₁, s₂, hlit₁, h₂⟩
  · exact absurd hfail (hlit _)
  obtain ⟨ds, hds, -, rfl, -⟩ := rowU64_eq_ok hinode
  obtain rfl := rowLit_eq_ok hlit₁
  rcases Reader.bind_eq_error.1 h₂ with hfail | ⟨sec, s₃, hsec, h₃⟩
  · obtain ⟨t, rest, ht, hover, hrest, rfl⟩ := rowS64_eq_overflow hfail
    exact ⟨ds, [], t, rest, hds, by decide, nofun, ht, hover, hrest, rfl⟩
  rcases Reader.bind_eq_error.1 h₃ with hfail | ⟨u₂, s₄, hlit₂, h₄⟩
  · exact absurd hfail (hlit _)
  obtain ⟨a, ha, ha', -, rfl, -⟩ := rowS64_eq_ok hsec
  obtain rfl := rowLit_eq_ok hlit₂
  rcases Reader.bind_eq_error.1 h₄ with hfail | ⟨nsec, s₅, hnsec, h₅⟩
  · obtain ⟨t, rest, ht, hover, hrest, rfl⟩ := rowS64_eq_overflow hfail
    refine ⟨ds, [a], t, rest, hds, by simp, ?_, ht, hover, hrest, by simp⟩
    intro f hf
    obtain rfl := List.mem_singleton.1 hf
    exact ⟨ha, ha'⟩
  rcases Reader.bind_eq_error.1 h₅ with hfail | ⟨u₃, s₆, hlit₃, h₆⟩
  · exact absurd hfail (hlit _)
  obtain ⟨b, hb, hb', -, rfl, -⟩ := rowS64_eq_ok hnsec
  obtain rfl := rowLit_eq_ok hlit₃
  rcases Reader.bind_eq_error.1 h₆ with hfail | ⟨size, s₇, -, h₇⟩
  · obtain ⟨t, rest, ht, hover, hrest, rfl⟩ := rowS64_eq_overflow hfail
    refine ⟨ds, [a, b], t, rest, hds, by simp, ?_, ht, hover, hrest, by simp⟩
    intro f hf
    rcases List.mem_pair.1 hf with rfl | rfl
    · exact ⟨ha, ha'⟩
    · exact ⟨hb, hb'⟩
  have hnever : Reader.Never .overflow (rowLit space >>= fun _ => rowDigest >>= fun digest =>
      rowLit space >>= fun _ => rowRoot >>= fun root => rowLit space >>= fun _ =>
        rowPath absolute root >>= fun path =>
          (pure (path, ⟨0, inode, sec, nsec, size, digest⟩) : Row Hint)) :=
    hlit.bind fun _ => (rowDigest_never (by decide)).bind fun _ => hlit.bind fun _ =>
      (rowRoot_never (by decide)).bind fun root => hlit.bind fun _ =>
        (rowPath_never root (by decide)).bind fun _ => Reader.never_pure _ _
  exact absurd h₇ (hnever s₇)

theorem parseHintRow_takes : Reader.Takes (parseHintRow absolute) :=
  rowU64_takes.bind fun _ => (rowLit_takes space).keeps.bind fun _ =>
    rowS64_takes.keeps.bind fun _ => (rowLit_takes space).keeps.bind fun _ =>
      rowS64_takes.keeps.bind fun _ => (rowLit_takes space).keeps.bind fun _ =>
        rowS64_takes.keeps.bind fun _ => (rowLit_takes space).keeps.bind fun _ =>
          rowDigest_takes.keeps.bind fun _ => (rowLit_takes space).keeps.bind fun _ =>
            rowRoot_keeps.bind fun root => (rowLit_takes space).keeps.bind fun _ =>
              (rowPath_keeps root).bind fun _ => Reader.keeps_pure _

theorem parseHintRow_not_endless : Reader.Never .endless (parseHintRow absolute) := by
  have hlit := rowLit_never space (e := .endless) (by decide)
  exact (rowU64_never (by decide)).bind fun _ => hlit.bind fun _ => rowS64_not_endless.bind fun _ =>
    hlit.bind fun _ => rowS64_not_endless.bind fun _ => hlit.bind fun _ =>
      rowS64_not_endless.bind fun _ => hlit.bind fun _ => (rowDigest_never (by decide)).bind fun _ =>
        hlit.bind fun _ => (rowRoot_never (by decide)).bind fun root => hlit.bind fun _ =>
          (rowPath_never root (by decide)).bind fun _ => Reader.never_pure _ _

/-! ## What is written -/

/-- The numbers of a hint are those of their types. -/
structure Ranged (h : Hint) : Prop where
  inode : h.2.inode < 2 ^ 64
  signed : ∀ n ∈ [h.2.sec, h.2.nsec, h.2.size], -2 ^ 63 ≤ n ∧ n < 2 ^ 63

/-- A number of the hint is the least one. -/
def Least (h : Hint) : Prop := ∃ n ∈ [h.2.sec, h.2.nsec, h.2.size], n = -2 ^ 63

/-- A hint without its device, which is not written. -/
def forget (h : Hint) : Hint := (h.1, { h.2 with device := 0 })

/-- The fields of a row that is written. -/
def textOf (h : Hint) : HintText :=
  ⟨decimal h.2.inode, signedOf h.2.sec, signedOf h.2.nsec, signedOf h.2.size, digestHex h.2.digest,
    decimal h.1.root.toNat, h.1.sub⟩

theorem text_textOf (h : Hint) : (textOf h).text = writeHintRow h := by
  simp [HintText.text, textOf, writeHintRow, text_signedOf]

theorem hint_textOf {h : Hint} (hr : Ranged h) (hl : ¬Least h) : (textOf h).hint = forget h := by
  have hvalue : ∀ n ∈ [h.2.sec, h.2.nsec, h.2.size], (signedOf n).value = n := by
    intro n hn
    obtain ⟨hlow, hhigh⟩ := hr.signed n hn
    have hne : n ≠ -2 ^ 63 := fun heq => hl ⟨n, hn, heq⟩
    exact value_signedOf (by omega) hhigh
  have hroot : numeral (decimal h.1.root.toNat) % 2 ^ 64 = h.1.root.toNat := by
    rw [numeral_decimal, Nat.mod_eq_of_lt (by cases h.1.root <;> decide)]
  have hinode : numeral (decimal h.2.inode) % 2 ^ 64 = h.2.inode := by
    rw [numeral_decimal, Nat.mod_eq_of_lt hr.inode]
  simp only [HintText.hint, textOf, hroot, hinode, rootOf_toNat, digestParse_hex, Option.getD_some,
    hvalue h.2.sec (by simp), hvalue h.2.nsec (by simp), hvalue h.2.size (by simp)]
  rfl

theorem accepted_textOf {h : Hint} (hr : Ranged h) (hl : ¬Least h) (hp : PathOk absolute h.1) :
    (textOf h).Accepted absolute where
  inode := digits_decimal _
  signed f hf := by
    have hof : ∃ n ∈ [h.2.sec, h.2.nsec, h.2.size], f = signedOf n := by
      simp only [HintText.fields, textOf, List.mem_cons, List.not_mem_nil, or_false] at hf
      rcases hf with rfl | rfl | rfl
      · exact ⟨_, by simp, rfl⟩
      · exact ⟨_, by simp, rfl⟩
      · exact ⟨_, by simp, rfl⟩
    obtain ⟨n, hn, rfl⟩ := hof
    obtain ⟨hlow, hhigh⟩ := hr.signed n hn
    refine ⟨digits_decimal _, ?_⟩
    rw [signedOf_overflows hlow hhigh]
    exact fun heq => hl ⟨n, hn, heq⟩
  digest := by
    rw [show (textOf h).digest = digestHex h.2.digest from rfl, digestParse_hex]
    rfl
  root := by
    refine ⟨digits_decimal _, ?_⟩
    rw [show (textOf h).root = decimal h.1.root.toNat from rfl, numeral_decimal,
      Nat.mod_eq_of_lt (by cases h.1.root <;> decide), rootOf_toNat]
    rfl
  path := by
    rw [hint_textOf hr hl]
    exact hp

theorem parseHintRow_write {h : Hint} (hr : Ranged h) (hl : ¬Least h) (hp : PathOk absolute h.1)
    (rest : Str) : parseHintRow absolute (writeHintRow h ++ rest) = .ok (forget h, rest) := by
  rw [← text_textOf, parseHintRow_text (accepted_textOf hr hl hp), hint_textOf hr hl]

/-- Where a written row is read, it holds no least number, and its path can be read. -/
theorem good_of_parseHintRow {h x : Hint} (hr : Ranged h) (hnewline : newline ∉ h.1.sub)
    {rest rest' : Str} (hread : parseHintRow absolute (writeHintRow h ++ rest) = .ok (x, rest')) :
    ¬Least h ∧ PathOk absolute h.1 := by
  have hfields : ∀ n ∈ [h.2.sec, h.2.nsec, h.2.size], ∀ {rest : Str}, Stops rest →
      n = -2 ^ 63 ∧ rowS64 (decimalInt n ++ rest) = .error .overflow ∨
        n ≠ -2 ^ 63 ∧ rowS64 (decimalInt n ++ rest) = .ok (n, rest) := by
    intro n hn rest hrest
    obtain ⟨hlow, hhigh⟩ := hr.signed n hn
    by_cases hleast : n = -2 ^ 63
    · exact .inl ⟨hleast, hleast ▸ rowS64_least hrest⟩
    · exact .inr ⟨hleast, rowS64_decimalInt (by omega) hhigh hrest⟩
  have htext : writeHintRow h ++ rest = decimal h.2.inode ++ space :: (decimalInt h.2.sec ++ space ::
      (decimalInt h.2.nsec ++ space :: (decimalInt h.2.size ++ space :: (digestHex h.2.digest ++
        space :: (decimal h.1.root.toNat ++ space :: (h.1.sub ++ newline :: rest)))))) := by
    simp [writeHintRow]
  rw [htext, parseHintRow, Reader.bind_ok (rowU64_decimal hr.inode (stops_space _)),
    Reader.bind_ok (rowLit_cons space _)] at hread
  rcases hfields h.2.sec (by simp) (stops_space _) with ⟨-, hsec⟩ | ⟨hsec', hsec⟩
  · rw [Reader.bind_error hsec] at hread
    cases hread
  rw [Reader.bind_ok hsec, Reader.bind_ok (rowLit_cons space _)] at hread
  rcases hfields h.2.nsec (by simp) (stops_space _) with ⟨-, hnsec⟩ | ⟨hnsec', hnsec⟩
  · rw [Reader.bind_error hnsec] at hread
    cases hread
  rw [Reader.bind_ok hnsec, Reader.bind_ok (rowLit_cons space _)] at hread
  rcases hfields h.2.size (by simp) (stops_space _) with ⟨-, hsize⟩ | ⟨hsize', hsize⟩
  · rw [Reader.bind_error hsize] at hread
    cases hread
  rw [Reader.bind_ok hsize, Reader.bind_ok (rowLit_cons space _),
    Reader.bind_ok (rowDigest_hex h.2.digest _), Reader.bind_ok (rowLit_cons space _),
    Reader.bind_ok (rowRoot_decimal _ (stops_space _)), Reader.bind_ok (rowLit_cons space _)] at hread
  obtain ⟨p, s₁, hpath, -⟩ := Reader.bind_eq_ok.1 hread
  refine ⟨?_, hnewline, ?_⟩
  · rintro ⟨n, hn, hleast⟩
    simp only [List.mem_cons, List.not_mem_nil, or_false] at hn
    rcases hn with rfl | rfl | rfl
    · exact hsec' hleast
    · exact hnsec' hleast
    · exact hsize' hleast
  · obtain ⟨line, s₂, hline, hcheck⟩ := Reader.bind_eq_ok.1 hpath
    rw [rowLine_append hnewline] at hline
    cases hline
    obtain ⟨u, s₃, hcheck, -⟩ := Reader.bind_eq_ok.1 hcheck
    intro hroot
    simpa [hroot] using (check_eq_ok hcheck).1

/-- A hint whose row is read back. -/
def Kept (absolute : Str → Bool) (h : Hint) : Prop :=
  ¬Least h ∧ (h.1.root = .none → absolute h.1.sub = true)

theorem parseHints_header (rest : Str) :
    parseHints absolute (hintsVersion :: newline :: rest) = rows (parseHintRow absolute) rest := by
  rw [parseHints, rowHeader_cons]

/-- The rows are read back as they were written if and only if each of them is. -/
theorem rows_write {hs : List Hint} (hr : ∀ h ∈ hs, Ranged h) (hn : ∀ h ∈ hs, newline ∉ h.1.sub) :
    rows (parseHintRow absolute) (hs.flatMap writeHintRow) = .ok (hs.map forget) ↔
      ∀ h ∈ hs, Kept absolute h := by
  constructor
  · intro hread
    induction hs with
    | nil => exact nofun
    | cons h hs ih =>
      rw [List.flatMap_cons] at hread
      cases hrow : parseHintRow absolute (writeHintRow h ++ hs.flatMap writeHintRow) with
      | error e =>
        have hne : writeHintRow h ++ hs.flatMap writeHintRow ≠ [] := by simp [writeHintRow]
        rw [rows, Reader.many_error hne hrow] at hread
        cases hread
      | ok x =>
        obtain ⟨hl, hp⟩ := good_of_parseHintRow (hr h List.mem_cons_self) (hn h List.mem_cons_self) hrow
        have hwrite := parseHintRow_write (hr h List.mem_cons_self) hl hp (hs.flatMap writeHintRow)
        rw [rows, Reader.many_ok parseHintRow_takes hwrite] at hread
        have hrest : rows (parseHintRow absolute) (hs.flatMap writeHintRow) = .ok (hs.map forget) := by
          rw [rows]
          cases hmany : Reader.many (parseHintRow absolute) .endless (hs.flatMap writeHintRow) with
          | error e =>
            rw [hmany] at hread
            cases hread
          | ok as =>
            rw [hmany] at hread
            rw [(List.cons_eq_cons.1 (Except.ok.inj hread)).2]
        intro h' hmem
        obtain rfl | hmem := List.mem_cons.1 hmem
        · exact ⟨hl, hp.2⟩
        · exact ih (fun g hg => hr g (List.mem_cons_of_mem _ hg))
            (fun g hg => hn g (List.mem_cons_of_mem _ hg)) hrest h' hmem
  · intro hkept
    have hloop : Reader.many (parseHintRow absolute) .endless (hs.flatMap writeHintRow ++ []) =
        (Reader.many (parseHintRow absolute) .endless []).map (hs.map forget ++ ·) :=
      Reader.many_flatMap parseHintRow_takes fun h hmem rest =>
        parseHintRow_write (hr h hmem) (hkept h hmem).1 ⟨hn h hmem, (hkept h hmem).2⟩ rest
    rw [List.append_nil] at hloop
    rw [rows, hloop]
    simp [Except.map]

/-- What a flush writes is loaded again, without its devices, if and only if no number is the
least one and the paths of the absolute root are absolute. -/
theorem parseHints_write {hs : List Hint} (hr : ∀ h ∈ hs, Ranged h) :
    parseHints absolute (writeHints hs) = .ok ((written hs).map forget) ↔
      ∀ h ∈ written hs, Kept absolute h := by
  rw [writeHints, parseHints_header]
  refine rows_write (fun h hh => hr h (List.mem_filter.1 hh).1) fun h hh => ?_
  simpa using (List.mem_filter.1 hh).2

/-! ## Any text -/

/-- The text holds the least number where the loader reads it: after a minus, or without a
sign in a file that is accepted. -/
def ReadsLeast (absolute : Str → Bool) (content : Str) : Prop :=
  ∃ ts : List HintText, (∀ t ∈ ts, t.Accepted absolute) ∧
    ((content = hintsVersion :: newline :: ts.flatMap HintText.text ∧ ∃ t ∈ ts, t.HasLeast) ∨
      ∃ rest, content = hintsVersion :: newline :: (ts.flatMap HintText.text ++ rest) ∧
        OverflowsAt rest)

theorem rows_texts {ts : List HintText} (hts : ∀ t ∈ ts, t.Accepted absolute) (rest : Str) :
    rows (parseHintRow absolute) (ts.flatMap HintText.text ++ rest) =
      (rows (parseHintRow absolute) rest).map (ts.map HintText.hint ++ ·) :=
  Reader.many_flatMap parseHintRow_takes fun t ht rest => parseHintRow_text (hts t ht) rest

theorem least_hint {t : HintText} (ht : t.Accepted absolute) : Least t.hint ↔ t.HasLeast := by
  have hvalue : ∀ f ∈ t.fields, f.value = -2 ^ 63 ↔ f.negative = false ∧ f.magnitude = 2 ^ 63 :=
    fun f hf => (f.value_range (ht.signed f hf).2).2.2
  have hnumbers : [t.hint.2.sec, t.hint.2.nsec, t.hint.2.size] = t.fields.map Signed.value := rfl
  constructor
  · rintro ⟨n, hn, hleast⟩
    rw [hnumbers] at hn
    obtain ⟨f, hf, rfl⟩ := List.mem_map.1 hn
    exact ⟨f, hf, (hvalue f hf).1 hleast⟩
  · rintro ⟨f, hf, hleast⟩
    exact ⟨f.value, hnumbers ▸ List.mem_map_of_mem hf, (hvalue f hf).2 hleast⟩

theorem ranged_hint {t : HintText} (ht : t.Accepted absolute) : Ranged t.hint where
  inode := Nat.mod_lt _ (by decide)
  signed n hn := by
    have hnumbers : [t.hint.2.sec, t.hint.2.nsec, t.hint.2.size] = t.fields.map Signed.value := rfl
    rw [hnumbers] at hn
    obtain ⟨f, hf, rfl⟩ := List.mem_map.1 hn
    have hrange := f.value_range (ht.signed f hf).2
    exact ⟨hrange.1, hrange.2.1⟩

/-- What is loaded can be flushed and loaded again if and only if it holds no least number. -/
theorem reload_iff {ts : List HintText} (hts : ∀ t ∈ ts, t.Accepted absolute) :
    parseHints absolute (writeHints (ts.map HintText.hint)) = .ok (ts.map HintText.hint) ↔
      ¬∃ t ∈ ts, t.HasLeast := by
  have hwritten : written (ts.map HintText.hint) = ts.map HintText.hint := by
    refine List.filter_eq_self.2 fun h hh => ?_
    obtain ⟨t, ht, rfl⟩ := List.mem_map.1 hh
    simpa using (hts t ht).path.1
  have hforget : (ts.map HintText.hint).map forget = ts.map HintText.hint := by
    rw [List.map_map]
    rfl
  have hranged : ∀ h ∈ ts.map HintText.hint, Ranged h := by
    intro h hh
    obtain ⟨t, ht, rfl⟩ := List.mem_map.1 hh
    exact ranged_hint (hts t ht)
  have hiff := @parseHints_write absolute _ hranged
  rw [hwritten, hforget] at hiff
  rw [hiff]
  constructor
  · rintro hkept ⟨t, ht, hleast⟩
    exact (hkept t.hint (List.mem_map_of_mem ht)).1 ((least_hint (hts t ht)).2 hleast)
  · intro hno h hh
    obtain ⟨t, ht, rfl⟩ := List.mem_map.1 hh
    exact ⟨fun hleast => hno ⟨t, ht, (least_hint (hts t ht)).1 hleast⟩, (hts t ht).path.2⟩

/-- The loader rejects a text, or what it loads is loaded again from its own rendering, if and
only if the text does not make it read the least number. -/
theorem parseHints_cases (content : Str) : (parseHints absolute content = .error .reject ∨
    ∃ hs, parseHints absolute content = .ok hs ∧ parseHints absolute (writeHints hs) = .ok hs) ↔
      ¬ReadsLeast absolute content := by
  rcases rowHeader_cases hintsVersion content with ⟨rest, rfl⟩ | hreject
  · rw [parseHints_header]
    constructor
    · rintro hcases ⟨ts, hts, ⟨heq, hleast⟩ | ⟨rest', heq, hover⟩⟩
      · obtain rfl : rest = ts.flatMap HintText.text := (List.cons_eq_cons.1 (List.cons_eq_cons.1 heq).2).2
        have hread := rows_texts hts []
        rw [List.append_nil] at hread
        rw [hread, rows, Reader.many_nil] at hcases
        rcases hcases with hcase | ⟨hs, hok, hagain⟩
        · cases hcase
        · obtain rfl : ts.map HintText.hint = hs := by simpa [Except.map] using hok
          exact (reload_iff hts).1 hagain hleast
      · obtain rfl : rest = ts.flatMap HintText.text ++ rest' :=
          (List.cons_eq_cons.1 (List.cons_eq_cons.1 heq).2).2
        have hne : rest' ≠ [] := by
          obtain ⟨inode, before, t, rest, hinode, -, -, -, -, -, rfl⟩ := hover
          simp
        have hread : rows (parseHintRow absolute) (ts.flatMap HintText.text ++ rest') =
            .error .overflow := by
          rw [rows_texts hts, rows, Reader.many_error hne (parseHintRow_overflow hover)]
          rfl
        rw [hread] at hcases
        rcases hcases with hcase | ⟨hs, hok, -⟩
        · cases hcase
        · cases hok
    · intro hno
      cases hread : rows (parseHintRow absolute) rest with
      | ok hs =>
        obtain ⟨ts, hts, rfl, rfl⟩ := Reader.many_eq_ok parseHintRow_takes parseHintRow_eq_ok hread
        refine .inr ⟨_, rfl, (reload_iff hts).2 fun hleast => hno ⟨ts, hts, .inl ⟨rfl, hleast⟩⟩⟩
      | error e =>
        obtain ⟨ts, rest', hts, rfl, hrow⟩ :=
          Reader.many_eq_error parseHintRow_takes parseHintRow_eq_ok hread
        cases e with
        | reject => exact .inl rfl
        | overflow =>
          exact absurd ⟨ts, hts, .inr ⟨rest', rfl, overflowsAt_of_parseHintRow hrow⟩⟩ hno
        | endless => exact absurd hrow (parseHintRow_not_endless rest')
  · refine ⟨?_, fun _ => .inl (by rw [parseHints, hreject])⟩
    rintro - ⟨ts, -, ⟨rfl, -⟩ | ⟨rest, rfl, -⟩⟩
    · rw [rowHeader_cons] at hreject
      cases hreject
    · rw [rowHeader_cons] at hreject
      cases hreject

theorem parseHints_ends (content : Str) : parseHints absolute content ≠ .error .endless := by
  rcases rowHeader_cases hintsVersion content with ⟨rest, rfl⟩ | hreject
  · rw [parseHints_header]
    exact Reader.many_ne_stuck parseHintRow_takes parseHintRow_not_endless rest
  · rw [parseHints, hreject]
    nofun

/-- The files of the cache are lossless, but for hints with the least signed number. -/
theorem cache_files_lossless (absolute : Str → Bool) :
    ((∀ os : List ActionOutput, (∀ o ∈ os, o.name.length < 2 ^ 64) →
        parseOutputs (writeOutputs os) = .ok os) ∧
      ∀ content, parseOutputs content = .error .reject ∨
        ∃ os, parseOutputs content = .ok os ∧ parseOutputs (writeOutputs os) = .ok os) ∧
    ((∀ set : Pathset, (∀ o ∈ set.obs, RowOk absolute o) →
        ∃ text, writeObs set = some text ∧ parseObs absolute text = .ok set) ∧
      ∀ content, parseObs absolute content = .error .reject ∨
        ∃ set, parseObs absolute content = .ok set ∧
          ∃ text, writeObs set = some text ∧ parseObs absolute text = .ok set) ∧
    (∀ hs : List Hint, (∀ h ∈ hs, Ranged h) →
        (parseHints absolute (writeHints hs) = .ok ((written hs).map forget) ↔
          ∀ h ∈ written hs, Kept absolute h)) ∧
      (∀ content, parseHints absolute content ≠ .error .endless) ∧
      ∀ content, (parseHints absolute content = .error .reject ∨
        ∃ hs, parseHints absolute content = .ok hs ∧
          parseHints absolute (writeHints hs) = .ok hs) ↔ ¬ReadsLeast absolute content :=
  ⟨⟨fun _ => parseOutputs_write, parseOutputs_cases⟩, ⟨fun _ => parseObs_write, parseObs_cases⟩,
    fun _ => parseHints_write, parseHints_ends, parseHints_cases⟩

/-- A file from the least time there is. -/
def leastHint : Hint := (⟨.project, str "a"⟩, ⟨0, 1, -2 ^ 63, 0, 5, .zero⟩)

theorem cache_files_lossless_outputs :
    parseOutputs (writeOutputs [⟨.zero, str "o"⟩]) = .ok [⟨.zero, str "o"⟩] :=
  (cache_files_lossless fun _ => true).1.1 [⟨.zero, str "o"⟩] (by decide)

/-- The row of that file is written, and loading it negates the least number. -/
theorem least_hint_overflows :
    Ranged leastHint ∧ written [leastHint] = [leastHint] ∧
      parseHints (fun _ => true) (writeHints [leastHint]) = .error .overflow := by
  refine ⟨⟨by decide, by decide⟩, by decide +kernel, by decide +kernel⟩

end Spn.Dag.CacheFile
