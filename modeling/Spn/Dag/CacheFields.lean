import Spn.Dag.CacheFiles

/-! # The fields of a row

What each of the `row_*` functions reads: what is written is read back, whatever follows it,
and what is read was written in the form of the field.
-/
namespace Spn.Dag.CacheFile

open Spn.Lib

variable {s rest : Str}

/-! ## Literals and checks -/

theorem rowLit_cons (c : UInt8) (rest : Str) : rowLit c (c :: rest) = .ok ((), rest) := by
  simp [rowLit]

theorem rowLit_eq_ok {c : UInt8} {u : Unit} (h : rowLit c s = .ok (u, rest)) : s = c :: rest := by
  cases s with
  | nil => cases h
  | cons d s =>
    rw [rowLit] at h
    split_ifs at h with hd
    cases h
    rw [hd]

theorem rowLit_takes (c : UInt8) : Reader.Takes (rowLit c) := by
  intro s u rest h
  rw [rowLit_eq_ok h]
  exact Nat.lt_succ_self _

theorem rowLit_never (c : UInt8) {e : Fault} (he : e ≠ .reject) : Reader.Never e (rowLit c) := by
  intro s h
  cases s with
  | nil => cases h; exact he rfl
  | cons d s =>
    rw [rowLit] at h
    split_ifs at h
    cases h
    exact he rfl

theorem check_eq_ok {b : Bool} {u : Unit} (h : Row.check b s = .ok (u, rest)) :
    b = true ∧ rest = s := by
  rw [Row.check] at h
  split_ifs at h with hb
  cases h
  exact ⟨hb, rfl⟩

theorem check_keeps (b : Bool) : Reader.Keeps (Row.check b) := by
  intro s u rest h
  rw [(check_eq_ok h).2]

theorem check_never (b : Bool) {e : Fault} (he : e ≠ .reject) : Reader.Never e (Row.check b) := by
  intro s h
  rw [Row.check] at h
  split_ifs at h
  cases h
  exact he rfl

theorem reject_keeps {α : Type} : Reader.Keeps (Row.reject : Row α) := nofun

theorem reject_never {α : Type} {e : Fault} (he : e ≠ .reject) :
    Reader.Never e (Row.reject : Row α) := by
  intro s h
  cases h
  exact he rfl

/-! ## Numbers -/

theorem u64From_digits {ds : Str} (hds : ∀ c ∈ ds, isDigit c = true) (hrest : Stops rest)
    (v d : ℕ) : u64From (v % 2 ^ 64) d (ds ++ rest) =
      (ds.foldl (fun n c => n * 10 + digit c) v % 2 ^ 64, d + ds.length, rest) := by
  induction ds generalizing v d with
  | nil =>
    cases rest with
    | nil => rfl
    | cons c rest => simp [u64From, hrest c rfl]
  | cons c ds ih =>
    have hwrap : (v % 2 ^ 64 * 10 + digit c) % 2 ^ 64 = (v * 10 + digit c) % 2 ^ 64 := by omega
    rw [List.cons_append, u64From, if_pos (hds c List.mem_cons_self), hwrap,
      ih (fun e he => hds e (List.mem_cons_of_mem _ he)), List.foldl_cons, List.length_cons]
    congr 2
    omega

theorem rowU64_digits {ds : Str} (hds : Digits ds) (hrest : Stops rest) :
    rowU64 (ds ++ rest) = .ok (numeral ds % 2 ^ 64, rest) := by
  have hloop := u64From_digits hds.2 hrest 0 0
  have hlen : 0 + ds.length ≠ 0 := by
    have hpos := List.length_pos_iff.2 hds.1
    omega
  rw [Nat.zero_mod] at hloop
  simp only [rowU64, hloop, if_neg hlen]
  rfl

theorem exists_digits (s : Str) :
    ∃ ds rest, s = ds ++ rest ∧ (∀ c ∈ ds, isDigit c = true) ∧ Stops rest := by
  induction s with
  | nil => exact ⟨[], [], rfl, nofun, stops_nil⟩
  | cons c s ih =>
    by_cases hc : isDigit c = true
    · obtain ⟨ds, rest, rfl, hds, hrest⟩ := ih
      refine ⟨c :: ds, rest, rfl, fun e he => ?_, hrest⟩
      obtain rfl | he := List.mem_cons.1 he
      · exact hc
      · exact hds e he
    · exact ⟨[], c :: s, rfl, nofun, stops_cons (Bool.eq_false_iff.2 hc) s⟩

/-- A number is read, or there is no digit. -/
theorem rowU64_cases (s : Str) :
    (∃ ds rest, Digits ds ∧ Stops rest ∧ s = ds ++ rest ∧
      rowU64 s = .ok (numeral ds % 2 ^ 64, rest)) ∨ rowU64 s = .error .reject := by
  obtain ⟨ds, rest, rfl, hds, hrest⟩ := exists_digits s
  by_cases hne : ds = []
  · subst hne
    have hloop := u64From_digits hds hrest 0 0
    rw [Nat.zero_mod, List.nil_append] at hloop
    exact .inr (by simp [rowU64, hloop])
  · exact .inl ⟨ds, rest, ⟨hne, hds⟩, hrest, rfl, rowU64_digits ⟨hne, hds⟩ hrest⟩

theorem rowU64_eq_ok {v : ℕ} (h : rowU64 s = .ok (v, rest)) :
    ∃ ds, Digits ds ∧ Stops rest ∧ s = ds ++ rest ∧ v = numeral ds % 2 ^ 64 := by
  rcases rowU64_cases s with ⟨ds, rest', hds, hrest, rfl, hread⟩ | hread
  · cases hread.symm.trans h
    exact ⟨ds, hds, hrest, rfl, rfl⟩
  · cases hread.symm.trans h

theorem rowU64_takes : Reader.Takes rowU64 := by
  intro s v rest h
  obtain ⟨ds, hds, -, rfl, -⟩ := rowU64_eq_ok h
  have hpos := List.length_pos_iff.2 hds.1
  rw [List.length_append]
  omega

theorem rowU64_never {e : Fault} (he : e ≠ .reject) : Reader.Never e rowU64 := by
  intro s h
  rcases rowU64_cases s with ⟨ds, rest, -, -, -, hread⟩ | hread
  · cases hread.symm.trans h
  · cases hread.symm.trans h
    exact he rfl

theorem rowU64_decimal {n : ℕ} (hn : n < 2 ^ 64) (hrest : Stops rest) :
    rowU64 (decimal n ++ rest) = .ok (n, rest) := by
  rw [rowU64_digits (digits_decimal n) hrest, numeral_decimal, Nat.mod_eq_of_lt hn]

/-! ## Signed numbers -/

/-- The text of a signed number. -/
structure Signed where
  negative : Bool
  digits : Str

namespace Signed

variable (t : Signed)

def text : Str := if t.negative then minus :: t.digits else t.digits

def magnitude : ℕ := numeral t.digits % 2 ^ 64

/-- The number cannot be negated. -/
def Overflows : Prop := t.negative = true ∧ t.magnitude = 2 ^ 63

def value : ℤ := if t.negative then -toS64 t.magnitude else toS64 t.magnitude

end Signed

theorem not_isDigit_minus : isDigit minus = false := by decide

theorem head_ne_minus {ds : Str} (hds : Digits ds) (rest : Str) :
    (ds ++ rest).head? ≠ some minus := by
  cases ds with
  | nil => exact absurd rfl hds.1
  | cons c ds =>
    intro h
    obtain rfl := Option.some.inj h
    have hdigit := hds.2 minus List.mem_cons_self
    rw [not_isDigit_minus] at hdigit
    cases hdigit

theorem rowS64_minus (s : Str) : rowS64 (minus :: s) =
    match rowU64 s with
    | .error e => .error e
    | .ok (value, rest) =>
      if value = 2 ^ 63 then .error .overflow else .ok (-toS64 value, rest) := by
  cases hread : rowU64 s <;> simp [rowS64, hread]

theorem rowS64_of_head (h : s.head? ≠ some minus) : rowS64 s =
    match rowU64 s with
    | .error e => .error e
    | .ok (value, rest) => .ok (toS64 value, rest) := by
  cases hread : rowU64 s <;> simp [rowS64, hread, h]

theorem rowS64_text {t : Signed} (ht : Digits t.digits) (hno : ¬t.Overflows) (hrest : Stops rest) :
    rowS64 (t.text ++ rest) = .ok (t.value, rest) := by
  cases hneg : t.negative with
  | true =>
    have hne : numeral t.digits % 2 ^ 64 ≠ 2 ^ 63 := fun h => hno ⟨hneg, h⟩
    rw [Signed.text, if_pos hneg, List.cons_append, rowS64_minus, rowU64_digits ht hrest]
    simp only [if_neg hne, Signed.value, hneg, if_true, Signed.magnitude]
  | false =>
    have htext : t.text = t.digits := by simp [Signed.text, hneg]
    rw [htext, rowS64_of_head (head_ne_minus ht rest), rowU64_digits ht hrest]
    simp [Signed.value, hneg, Signed.magnitude]

theorem rowS64_overflow {t : Signed} (ht : Digits t.digits) (h : t.Overflows) (hrest : Stops rest) :
    rowS64 (t.text ++ rest) = .error .overflow := by
  have hvalue : numeral t.digits % 2 ^ 64 = 2 ^ 63 := h.2
  rw [Signed.text, if_pos h.1, List.cons_append, rowS64_minus, rowU64_digits ht hrest]
  simp only [hvalue, if_true]

/-- A signed number is read, or it overflows, or there is none. -/
theorem rowS64_cases (s : Str) :
    (∃ (t : Signed) (rest : Str), Digits t.digits ∧ Stops rest ∧ s = t.text ++ rest) ∨
      rowS64 s = .error .reject := by
  by_cases hminus : s.head? = some minus
  · obtain ⟨s, rfl⟩ := List.head?_eq_some_iff.1 hminus
    rcases rowU64_cases s with ⟨ds, rest, hds, hrest, rfl, -⟩ | hread
    · exact .inl ⟨⟨true, ds⟩, rest, hds, hrest, rfl⟩
    · exact .inr (by rw [rowS64_minus, hread])
  · rcases rowU64_cases s with ⟨ds, rest, hds, hrest, rfl, -⟩ | hread
    · exact .inl ⟨⟨false, ds⟩, rest, hds, hrest, rfl⟩
    · exact .inr (by rw [rowS64_of_head hminus, hread])

theorem rowS64_eq_ok {v : ℤ} (h : rowS64 s = .ok (v, rest)) :
    ∃ t : Signed, Digits t.digits ∧ ¬t.Overflows ∧ Stops rest ∧ s = t.text ++ rest ∧ v = t.value := by
  rcases rowS64_cases s with ⟨t, rest', ht, hrest, rfl⟩ | hread
  · by_cases hover : t.Overflows
    · cases (rowS64_overflow ht hover hrest).symm.trans h
    · cases (rowS64_text ht hover hrest).symm.trans h
      exact ⟨t, ht, hover, hrest, rfl, rfl⟩
  · cases hread.symm.trans h

theorem rowS64_eq_overflow (h : rowS64 s = .error .overflow) :
    ∃ (t : Signed) (rest : Str), Digits t.digits ∧ t.Overflows ∧ Stops rest ∧ s = t.text ++ rest := by
  rcases rowS64_cases s with ⟨t, rest, ht, hrest, rfl⟩ | hread
  · by_cases hover : t.Overflows
    · exact ⟨t, rest, ht, hover, hrest, rfl⟩
    · cases (rowS64_text ht hover hrest).symm.trans h
  · cases hread.symm.trans h

theorem rowS64_takes : Reader.Takes rowS64 := by
  intro s v rest h
  obtain ⟨t, ht, -, -, rfl, -⟩ := rowS64_eq_ok h
  have hpos := List.length_pos_iff.2 ht.1
  rw [List.length_append, Signed.text]
  split_ifs
  · rw [List.length_cons]
    omega
  · omega

theorem rowS64_not_endless : Reader.Never .endless rowS64 := by
  intro s h
  rcases rowS64_cases s with ⟨t, rest, ht, hrest, rfl⟩ | hread
  · by_cases hover : t.Overflows
    · cases (rowS64_overflow ht hover hrest).symm.trans h
    · cases (rowS64_text ht hover hrest).symm.trans h
  · cases hread.symm.trans h

/-- A signed number as it is written. -/
def signedOf (n : ℤ) : Signed := ⟨decide (n < 0), decimal n.natAbs⟩

theorem text_signedOf (n : ℤ) : (signedOf n).text = decimalInt n := by
  simp [signedOf, Signed.text, decimalInt]

theorem signedOf_overflows {n : ℤ} (hlow : -2 ^ 63 ≤ n) (hhigh : n < 2 ^ 63) :
    (signedOf n).Overflows ↔ n = -2 ^ 63 := by
  simp only [Signed.Overflows, signedOf, Signed.magnitude, numeral_decimal, decide_eq_true_eq]
  omega

theorem value_signedOf {n : ℤ} (hlow : -2 ^ 63 < n) (hhigh : n < 2 ^ 63) :
    (signedOf n).value = n := by
  have hmod : n.natAbs % 2 ^ 64 = n.natAbs := Nat.mod_eq_of_lt (by omega)
  have hsmall : n.natAbs < 2 ^ 63 := by omega
  simp only [Signed.value, signedOf, Signed.magnitude, numeral_decimal, hmod, toS64, hsmall, if_true,
    decide_eq_true_eq]
  split_ifs <;> omega

theorem rowS64_decimalInt {n : ℤ} (hlow : -2 ^ 63 < n) (hhigh : n < 2 ^ 63) (hrest : Stops rest) :
    rowS64 (decimalInt n ++ rest) = .ok (n, rest) := by
  have hno : ¬(signedOf n).Overflows := by
    rw [signedOf_overflows (by omega) hhigh]
    omega
  rw [← text_signedOf, rowS64_text (digits_decimal _) hno hrest, value_signedOf hlow hhigh]

/-- The least number is written, but reading it negates what cannot be negated. -/
theorem rowS64_least (hrest : Stops rest) :
    rowS64 (decimalInt (-2 ^ 63) ++ rest) = .error .overflow := by
  have hover : (signedOf (-2 ^ 63)).Overflows :=
    (signedOf_overflows (by omega) (by omega)).2 rfl
  rw [← text_signedOf, rowS64_overflow (digits_decimal _) hover hrest]

theorem Signed.value_range (t : Signed) (hno : ¬t.Overflows) :
    -2 ^ 63 ≤ t.value ∧ t.value < 2 ^ 63 ∧
      (t.value = -2 ^ 63 ↔ t.negative = false ∧ t.magnitude = 2 ^ 63) := by
  have hlt : t.magnitude < 2 ^ 64 := Nat.mod_lt _ (by decide)
  simp only [Signed.Overflows, not_and] at hno
  simp only [Signed.value, toS64]
  cases hneg : t.negative with
  | true =>
    have hne := hno hneg
    simp only [if_true]
    split_ifs <;> simp <;> omega
  | false =>
    simp only [Bool.false_eq_true, if_false, true_and]
    split_ifs <;> omega

/-! ## Bytes, strings and digests -/

theorem rowBytes_append (t rest : Str) : rowBytes t.length (t ++ rest) = .ok (t, rest) := by
  have hlen : ¬(t ++ rest).length < t.length := by simp
  rw [rowBytes, if_neg hlen, List.take_left, List.drop_left]

theorem rowBytes_eq_ok {n : ℕ} {t : Str} (h : rowBytes n s = .ok (t, rest)) :
    t.length = n ∧ s = t ++ rest := by
  rw [rowBytes] at h
  split_ifs at h with hlen
  cases h
  exact ⟨by rw [List.length_take]; omega, (List.take_append_drop n s).symm⟩

theorem rowBytes_keeps (n : ℕ) : Reader.Keeps (rowBytes n) := by
  intro s t rest h
  rw [(rowBytes_eq_ok h).2, List.length_append]
  omega

theorem rowBytes_never (n : ℕ) {e : Fault} (he : e ≠ .reject) : Reader.Never e (rowBytes n) := by
  intro s h
  rw [rowBytes] at h
  split_ifs at h
  cases h
  exact he rfl

theorem rowStr_write {t : Str} (ht : t.length < 2 ^ 64) (rest : Str) :
    rowStr (writeRowStr t ++ rest) = .ok (t, rest) := by
  have hstops : Stops (colon :: (t ++ rest)) := stops_cons (by decide) _
  rw [writeRowStr, List.append_assoc, List.cons_append, rowStr,
    Reader.bind_ok (rowU64_decimal ht hstops), Reader.bind_ok (rowLit_cons colon _), rowBytes_append]

theorem rowStr_small {t : Str} (h : rowStr s = .ok (t, rest)) : t.length < 2 ^ 64 := by
  obtain ⟨n, s₁, hlen, h⟩ := Reader.bind_eq_ok.1 h
  obtain ⟨u, s₂, -, hbytes⟩ := Reader.bind_eq_ok.1 h
  obtain ⟨ds, -, -, -, rfl⟩ := rowU64_eq_ok hlen
  rw [(rowBytes_eq_ok hbytes).1]
  exact Nat.mod_lt _ (by decide)

theorem rowStr_takes : Reader.Takes rowStr :=
  rowU64_takes.bind fun n => (rowLit_takes colon).keeps.bind fun _ => rowBytes_keeps n

theorem rowStr_never {e : Fault} (he : e ≠ .reject) : Reader.Never e rowStr :=
  (rowU64_never he).bind fun n => (rowLit_never colon he).bind fun _ => rowBytes_never n he

theorem length_digestHex (d : Digest) : (digestHex d).length = 64 := by
  rw [digestHex, length_hex, d.size]

theorem digestParse_hex (d : Digest) : digestParse (digestHex d) = some d := by
  rw [digestParse, if_pos (length_digestHex d), digestHex, unhex_hex]
  simp [d.size]

theorem rowDigest_append {t : Str} {d : Digest} (ht : digestParse t = some d) (rest : Str) :
    rowDigest (t ++ rest) = .ok (d, rest) := by
  have hlen : t.length = 64 := by
    rw [digestParse] at ht
    split_ifs at ht with hlen
    exact hlen
  have hbytes : rowBytes 64 (t ++ rest) = .ok (t, rest) := hlen ▸ rowBytes_append t rest
  rw [rowDigest, Reader.bind_ok hbytes, ht]
  rfl

theorem rowDigest_hex (d : Digest) (rest : Str) : rowDigest (digestHex d ++ rest) = .ok (d, rest) :=
  rowDigest_append (digestParse_hex d) rest

theorem rowDigest_eq_ok {d : Digest} (h : rowDigest s = .ok (d, rest)) :
    ∃ t, digestParse t = some d ∧ s = t ++ rest := by
  obtain ⟨t, s₁, hbytes, h⟩ := Reader.bind_eq_ok.1 h
  cases hparse : digestParse t with
  | none =>
    rw [hparse] at h
    cases h
  | some d' =>
    rw [hparse] at h
    obtain ⟨rfl, rfl⟩ := Reader.pure_eq_ok.1 h
    exact ⟨t, hparse, (rowBytes_eq_ok hbytes).2⟩

theorem rowDigest_takes : Reader.Takes rowDigest := by
  intro s d rest h
  obtain ⟨t, ht, rfl⟩ := rowDigest_eq_ok h
  rw [digestParse] at ht
  split_ifs at ht with hlen
  rw [List.length_append]
  omega

theorem rowDigest_never {e : Fault} (he : e ≠ .reject) : Reader.Never e rowDigest := by
  refine (rowBytes_never 64 he).bind fun t => ?_
  cases digestParse t with
  | none => exact reject_never he
  | some d => exact Reader.never_pure e d

/-! ## Lines and paths -/

theorem takeWhile_line {line : Str} (h : newline ∉ line) (rest : Str) :
    (line ++ newline :: rest).takeWhile (· ≠ newline) = line := by
  have hline : ∀ c ∈ line, decide (c ≠ newline) = true := by
    intro c hc
    exact decide_eq_true fun heq => h (heq ▸ hc)
  rw [List.takeWhile_append_of_pos hline]
  simp

theorem rowLine_append {line : Str} (h : newline ∉ line) (rest : Str) :
    rowLine (line ++ newline :: rest) = .ok (line, rest) := by
  rw [rowLine, takeWhile_line h, Reader.bind_ok (rowBytes_append line _),
    Reader.bind_ok (rowLit_cons newline rest)]
  rfl

theorem rowLine_eq_ok {line : Str} (h : rowLine s = .ok (line, rest)) :
    newline ∉ line ∧ s = line ++ newline :: rest := by
  obtain ⟨t, s₁, hbytes, h⟩ := Reader.bind_eq_ok.1 h
  obtain ⟨u, s₂, hlit, h⟩ := Reader.bind_eq_ok.1 h
  obtain ⟨rfl, rfl⟩ := Reader.pure_eq_ok.1 h
  obtain ⟨hlen, rfl⟩ := rowBytes_eq_ok hbytes
  obtain rfl := rowLit_eq_ok hlit
  refine ⟨fun hmem => ?_, rfl⟩
  have hprefix : (line ++ newline :: rest).takeWhile (· ≠ newline) <+: line ++ newline :: rest :=
    List.takeWhile_prefix _
  have heq : (line ++ newline :: rest).takeWhile (· ≠ newline) = line :=
    (List.prefix_of_prefix_length_le hprefix (List.prefix_append _ _) hlen.ge).eq_of_length hlen.symm
  rw [← heq] at hmem
  have hnot := List.mem_takeWhile_imp hmem
  simp at hnot

theorem rowLine_takes : Reader.Takes rowLine := by
  intro s line rest h
  rw [(rowLine_eq_ok h).2, List.length_append, List.length_cons]
  omega

theorem rowLine_never {e : Fault} (he : e ≠ .reject) : Reader.Never e rowLine := by
  intro s
  exact (rowBytes_never _ he).bind (fun t => (rowLit_never newline he).bind fun _ =>
    Reader.never_pure e t) s

theorem rootOf_toNat (root : PathRoot) : rootOf root.toNat = some root := by
  cases root <;> rfl

theorem rowRoot_digits {ds : Str} {root : PathRoot} (hds : Digits ds) (hrest : Stops rest)
    (hroot : rootOf (numeral ds % 2 ^ 64) = some root) : rowRoot (ds ++ rest) = .ok (root, rest) := by
  rw [rowRoot, Reader.bind_ok (rowU64_digits hds hrest), hroot]
  rfl

theorem rowRoot_decimal (root : PathRoot) (hrest : Stops rest) :
    rowRoot (decimal root.toNat ++ rest) = .ok (root, rest) := by
  refine rowRoot_digits (digits_decimal _) hrest ?_
  rw [numeral_decimal, Nat.mod_eq_of_lt (by cases root <;> decide), rootOf_toNat]

theorem rowRoot_eq_ok {root : PathRoot} (h : rowRoot s = .ok (root, rest)) :
    ∃ ds, Digits ds ∧ Stops rest ∧ s = ds ++ rest ∧ rootOf (numeral ds % 2 ^ 64) = some root := by
  obtain ⟨n, s₁, hread, h⟩ := Reader.bind_eq_ok.1 h
  obtain ⟨ds, hds, hrest, rfl, rfl⟩ := rowU64_eq_ok hread
  cases hroot : rootOf (numeral ds % 2 ^ 64) with
  | none =>
    rw [hroot] at h
    cases h
  | some root' =>
    rw [hroot] at h
    obtain ⟨rfl, rfl⟩ := Reader.pure_eq_ok.1 h
    exact ⟨ds, hds, hrest, rfl, hroot⟩

theorem rowRoot_keeps : Reader.Keeps rowRoot := by
  refine rowU64_takes.keeps.bind fun n => ?_
  cases rootOf n with
  | none => exact reject_keeps
  | some root => exact Reader.keeps_pure root

theorem rowRoot_never {e : Fault} (he : e ≠ .reject) : Reader.Never e rowRoot := by
  refine (rowU64_never he).bind fun n => ?_
  cases rootOf n with
  | none => exact reject_never he
  | some root => exact Reader.never_pure e root

variable {absolute : Str → Bool}

/-- A path that a row can hold. -/
def PathOk (absolute : Str → Bool) (p : Path) : Prop :=
  newline ∉ p.sub ∧ (p.root = .none → absolute p.sub = true)

theorem rowPath_append {p : Path} (hp : PathOk absolute p) (rest : Str) :
    rowPath absolute p.root (p.sub ++ newline :: rest) = .ok (p, rest) := by
  have hcheck : (decide (p.root ≠ .none) || absolute p.sub) = true := by
    by_cases hroot : p.root = .none
    · simp [hroot, hp.2 hroot]
    · simp [hroot]
  have hchecked : Row.check (p.root ≠ .none || absolute p.sub) rest = .ok ((), rest) := by
    rw [Row.check, hcheck, if_pos rfl]
  rw [rowPath, Reader.bind_ok (rowLine_append hp.1 rest), Reader.bind_ok hchecked]
  rfl

theorem rowPath_eq_ok {root : PathRoot} {p : Path} (h : rowPath absolute root s = .ok (p, rest)) :
    p.root = root ∧ PathOk absolute p ∧ s = p.sub ++ newline :: rest := by
  obtain ⟨line, s₁, hline, h⟩ := Reader.bind_eq_ok.1 h
  obtain ⟨u, s₂, hcheck, h⟩ := Reader.bind_eq_ok.1 h
  obtain ⟨rfl, rfl⟩ := Reader.pure_eq_ok.1 h
  obtain ⟨hnewline, rfl⟩ := rowLine_eq_ok hline
  obtain ⟨hb, rfl⟩ := check_eq_ok hcheck
  refine ⟨rfl, ⟨hnewline, fun hroot => ?_⟩, rfl⟩
  simpa [show root = .none from hroot] using hb

theorem rowPath_keeps (root : PathRoot) : Reader.Keeps (rowPath absolute root) :=
  rowLine_takes.keeps.bind fun _ => (check_keeps _).bind fun _ => Reader.keeps_pure _

theorem rowPath_never (root : PathRoot) {e : Fault} (he : e ≠ .reject) :
    Reader.Never e (rowPath absolute root) :=
  (rowLine_never he).bind fun _ => (check_never _ he).bind fun _ => Reader.never_pure e _

end Spn.Dag.CacheFile
