import Spn.Compiler.Toc
import Spn.Lib.Terminated

/-! # Names of a symbol table

What one call of `spn_toc_next` does, and from it what the loop over a table takes from it:
the names in order where all of them can be read, and an error otherwise. The loop ends, and
reads nothing that stands behind the member.
-/
namespace Spn.Compiler

open Spn.Lib

variable {toc toc' toc'' : Toc} {text rest : Str}

/-! ## What is read -/

/-- The one is left of the other after some of the member has been read. -/
def Toc.Reaches (toc toc' : Toc) : Prop :=
  ∃ read, toc.io = read ++ toc'.io ∧ read.length + toc'.left = toc.left

theorem Toc.Reaches.of_eq (hio : toc'.io = toc.io) (hleft : toc'.left = toc.left) :
    toc.Reaches toc' :=
  ⟨[], by rw [hio, List.nil_append], by rw [hleft, List.length_nil, Nat.zero_add]⟩

theorem Toc.Reaches.refl (toc : Toc) : toc.Reaches toc := .of_eq rfl rfl

theorem Toc.Reaches.trans (h : toc.Reaches toc') (h' : toc'.Reaches toc'') : toc.Reaches toc'' := by
  obtain ⟨read, hio, hleft⟩ := h
  obtain ⟨read', hio', hleft'⟩ := h'
  refine ⟨read ++ read', by rw [hio, hio', List.append_assoc], ?_⟩
  rw [List.length_append]
  omega

theorem Toc.reaches_readAll (toc : Toc) (n : ℕ) : toc.Reaches (toc.readAll n).2 := by
  have hgot : (toc.readAll n).1 = toc.io.take (toc.readAll n).1.length := by
    rw [readAll, List.take_take, List.take_eq_take_iff, List.length_take]
    omega
  refine ⟨(toc.readAll n).1, ?_, ?_⟩
  · conv_lhs => rw [← List.take_append_drop (toc.readAll n).1.length toc.io]
    rw [← hgot]
    rfl
  · have hlen : (toc.readAll n).1.length ≤ toc.left := by
      rw [readAll, List.length_take, List.length_take]
      omega
    exact Nat.add_sub_cancel' hlen

theorem Toc.readAll_append {field : Str} (hio : toc.io = field ++ rest)
    (hleft : field.length ≤ toc.left) :
    toc.readAll field.length =
      (field, { toc with io := rest, left := toc.left - field.length }) := by
  have hgot : (toc.io.take toc.left).take field.length = field := by
    rw [List.take_take, Nat.min_eq_left hleft, hio, List.take_left]
  rw [readAll, hgot, hio, List.drop_left]

theorem Toc.peekUntil_eq_some {c : UInt8} {view : Str} (h : toc.peekUntil c = some view) :
    ∃ text rest, view = text ++ [c] ∧ c ∉ text ∧ toc.io = text ++ c :: rest ∧
      text.length < toc.left ∧ text.length < tocSymbolMax := by
  rw [peekUntil] at h
  split at h
  · rename_i hmem
    obtain ⟨text, behind, hshown, htext⟩ := List.eq_append_cons_of_mem hmem
    have hlen := congrArg List.length hshown
    simp only [List.length_take, List.length_append, List.length_cons] at hlen
    obtain ⟨rest, hrest⟩ := (List.take_prefix _ _).trans (List.take_prefix toc.left toc.io)
    rw [hshown, takeWhile_text htext] at h
    refine ⟨text, behind ++ rest, (Option.some.inj h).symm, htext, ?_, by omega, by omega⟩
    rw [← hrest, hshown, List.append_assoc, List.cons_append]
  · cases h

theorem Toc.peekUntil_append {c : UInt8} (htext : c ∉ text) (hio : toc.io = text ++ c :: rest)
    (hleft : text.length < toc.left) (hmax : text.length < tocSymbolMax) :
    toc.peekUntil c = some (text ++ [c]) := by
  obtain ⟨n, hn⟩ : ∃ n, min tocSymbolMax toc.left = text.length + (n + 1) :=
    ⟨min tocSymbolMax toc.left - text.length - 1, by omega⟩
  have hshown : (toc.io.take toc.left).take tocSymbolMax = text ++ c :: rest.take n := by
    rw [List.take_take, hn, hio, List.take_length_add_append, List.take_succ_cons]
  rw [peekUntil, hshown, takeWhile_text htext, if_pos (List.mem_append_right _ List.mem_cons_self)]

theorem Toc.consume_text {c : UInt8} (hio : toc.io = text ++ c :: rest)
    (hleft : text.length < toc.left) :
    toc.consume (text ++ [c]).length =
      { toc with io := rest, left := toc.left - (text.length + 1) } := by
  have hio' : toc.io = (text ++ [c]) ++ rest := by rw [hio, List.append_assoc]; rfl
  rw [consume, readAll_append hio' (by rw [List.length_append]; exact hleft)]
  simp

/-! ## One call -/

/-- What is left to be taken. -/
def Toc.ahead (toc : Toc) : ℕ := toc.count + toc.remaining

/-- What one call does: it stops and would stop again, or something less is left. -/
structure Toc.Calls (toc : Toc) (symbol : Option Str) (toc' : Toc) : Prop where
  reaches : toc.Reaches toc'
  format : toc'.format = toc.format
  stops : symbol = none → toc'.err ≠ .ok ∨ toc'.format = .none ∨
    toc'.format = .gnu ∧ toc'.count = 0 ∨ toc'.format = .bsd ∧ toc'.remaining = 0
  less : symbol ≠ none → toc'.ahead < toc.ahead

theorem tocNextBsd_calls {turns : ℕ} (hturns : toc.remaining ≤ turns)
    (hformat : toc.format = .bsd) :
    toc.Calls (tocNextBsd turns toc).1 (tocNextBsd turns toc).2 := by
  induction turns generalizing toc with
  | zero =>
    exact ⟨.refl toc, rfl, fun _ => .inr (.inr (.inr ⟨hformat, Nat.le_zero.1 hturns⟩)),
      fun h => absurd rfl h⟩
  | succ turns ih =>
    rw [tocNextBsd]
    split
    · rename_i hzero
      exact ⟨.refl toc, rfl, fun _ => .inr (.inr (.inr ⟨hformat, hzero⟩)), fun h => absurd rfl h⟩
    · split
      · exact ⟨.of_eq rfl rfl, rfl, fun _ => .inl nofun, fun h => absurd rfl h⟩
      · rename_i view hview
        obtain ⟨text, rest, rfl, -, -, -, -⟩ := Toc.peekUntil_eq_some hview
        split
        · exact ⟨.of_eq rfl rfl, rfl, fun _ => .inl nofun, fun h => absurd rfl h⟩
        · have hreads := toc.reaches_readAll (text ++ [0]).length
          have hlen : 0 < (text ++ [(0 : UInt8)]).length := by simp
          dsimp only
          split
          · have hcalls := @ih { toc.consume (text ++ [0]).length with
              remaining := toc.remaining - (text ++ [0]).length } (by dsimp only; omega) hformat
            exact ⟨hreads.trans hcalls.reaches, hcalls.format, hcalls.stops, fun h =>
              Nat.lt_of_lt_of_le (hcalls.less h)
                (Nat.add_le_add_left (Nat.sub_le toc.remaining _) toc.count)⟩
          · refine ⟨hreads, rfl, nofun, fun _ => Nat.add_lt_add_left ?_ toc.count⟩
            dsimp only
            omega

theorem tocNext_calls (toc : Toc) : toc.Calls (tocNext toc).1 (tocNext toc).2 := by
  rw [tocNext]
  split
  · rename_i herr
    exact ⟨.refl toc, rfl, fun _ => .inl herr, fun h => absurd rfl h⟩
  · split
    · rename_i hformat
      exact ⟨.refl toc, rfl, fun _ => .inr (.inl hformat), fun h => absurd rfl h⟩
    · rename_i hformat
      split
      · rename_i hzero
        exact ⟨.refl toc, rfl, fun _ => .inr (.inr (.inl ⟨hformat, hzero⟩)), fun h => absurd rfl h⟩
      · rename_i hcount
        split
        · exact ⟨.of_eq rfl rfl, rfl, fun _ => .inl nofun, fun h => absurd rfl h⟩
        · rename_i view _
          refine ⟨toc.reaches_readAll view.length, rfl, nofun, fun _ => ?_⟩
          exact Nat.add_lt_add_right (Nat.sub_one_lt hcount) toc.remaining
    · rename_i hformat
      exact tocNextBsd_calls (Nat.le_refl _) hformat

/-- After a call that stopped every call stops. -/
theorem tocNext_stops (h : (tocNext toc).1 = none) : (tocNext (tocNext toc).2).1 = none := by
  rcases (tocNext_calls toc).stops h with herr | hformat | ⟨hformat, hzero⟩ | ⟨hformat, hzero⟩
  · rw [tocNext, if_pos herr]
  · by_cases herr : (tocNext toc).2.err ≠ .ok
    · rw [tocNext, if_pos herr]
    · rw [tocNext, if_neg herr, hformat]
  · by_cases herr : (tocNext toc).2.err ≠ .ok
    · rw [tocNext, if_pos herr]
    · rw [tocNext, if_neg herr, hformat]
      exact congrArg Prod.fst (if_pos hzero)
  · by_cases herr : (tocNext toc).2.err ≠ .ok
    · rw [tocNext, if_pos herr]
    · rw [tocNext, if_neg herr, hformat]
      dsimp only
      rw [hzero]
      rfl

/-! ## The loop -/

theorem tocSymbolsFrom_of_lt {turns : ℕ} (h : toc.ahead < turns) :
    tocSymbolsFrom turns toc = tocSymbols toc := by
  have hrun : ∀ turns turns' toc, Toc.ahead toc < turns → toc.ahead < turns' →
      tocSymbolsFrom turns toc = tocSymbolsFrom turns' toc := by
    intro turns
    induction turns with
    | zero => exact nofun
    | succ turns ih =>
      intro turns' toc h h'
      cases turns' with
      | zero => cases h'
      | succ turns' =>
        have hless := (tocNext_calls toc).less
        rw [tocSymbolsFrom, tocSymbolsFrom]
        cases hnext : tocNext toc with
        | mk symbol toc' =>
          rw [hnext] at hless
          cases symbol with
          | none => rfl
          | some symbol =>
            have hlt := hless nofun
            have hih : tocSymbolsFrom turns toc' = tocSymbolsFrom turns' toc' :=
              ih turns' toc' (by dsimp only at hlt; omega) (by dsimp only at hlt; omega)
            dsimp only
            rw [hih]
  exact hrun turns _ toc h (Nat.lt_succ_self _)

theorem tocSymbols_none (h : tocNext toc = (none, toc')) : tocSymbols toc = ([], toc') := by
  rw [tocSymbols, tocSymbolsFrom, h]

theorem tocSymbols_some {symbol : Str} (h : tocNext toc = (some symbol, toc')) :
    tocSymbols toc = (symbol :: (tocSymbols toc').1, (tocSymbols toc').2) := by
  have hless := (tocNext_calls toc).less
  rw [h] at hless
  have hrest : tocSymbolsFrom (toc.count + toc.remaining) toc' = tocSymbols toc' :=
    tocSymbolsFrom_of_lt (hless nofun)
  rw [tocSymbols, tocSymbolsFrom, h]
  dsimp only
  rw [hrest]

/-- The parser after so many calls. -/
def tocAfter : ℕ → Toc → Toc
  | 0, toc => toc
  | n + 1, toc => tocAfter n (tocNext toc).2

theorem reaches_tocAfter (n : ℕ) (toc : Toc) : toc.Reaches (tocAfter n toc) := by
  induction n generalizing toc with
  | zero => exact .refl toc
  | succ n ih => exact (tocNext_calls toc).reaches.trans (ih _)

/-- The loop has ended because a call stopped. -/
theorem tocSymbols_ends (toc : Toc) : (tocNext (tocSymbols toc).2).1 = none := by
  generalize hn : toc.ahead = n
  induction n using Nat.strongRecOn generalizing toc with
  | ind n ih =>
    cases hnext : tocNext toc with
    | mk symbol toc' =>
      cases symbol with
      | none =>
        have hstops : (tocNext (tocNext toc).2).1 = none := tocNext_stops (by rw [hnext])
        rw [tocSymbols_none hnext]
        rwa [hnext] at hstops
      | some symbol =>
        have hless := (tocNext_calls toc).less
        rw [hnext] at hless
        rw [tocSymbols_some hnext]
        exact ih _ (hn ▸ hless nofun) toc' rfl

/-! ## The names of a table -/

variable {left count remaining : ℕ}

/-- Names that the reader can show, each with its terminator. -/
def Fits (names : List Str) : Prop := ∀ name ∈ names, name.length < tocSymbolMax

theorem Toc.peekUntil_long {c : UInt8} (htext : c ∉ text) (hio : toc.io = text ++ c :: rest)
    (hmax : tocSymbolMax ≤ text.length) : toc.peekUntil c = none := by
  cases h : toc.peekUntil c with
  | none => rfl
  | some view =>
    obtain ⟨text', rest', -, htext', hio', -, hmax'⟩ := Toc.peekUntil_eq_some h
    have htake := takeWhile_text htext rest
    rw [← hio, hio', takeWhile_text htext'] at htake
    rw [htake] at hmax'
    omega

theorem tocNext_gnu (htext : 0 ∉ text) (hleft : text.length < left)
    (hmax : text.length < tocSymbolMax) :
    tocNext ⟨text ++ 0 :: rest, left, .gnu, .ok, count + 1, remaining⟩ =
      (some text, ⟨rest, left - (text.length + 1), .gnu, .ok, count, remaining⟩) := by
  rw [tocNext, if_neg fun h => h rfl]
  dsimp only
  rw [if_neg (Nat.succ_ne_zero _), Toc.peekUntil_append htext rfl hleft hmax]
  dsimp only
  rw [Toc.consume_text rfl hleft, List.dropLast_concat]
  rfl

theorem tocNext_gnu_long (htext : 0 ∉ text) (hmax : tocSymbolMax ≤ text.length) :
    tocNext ⟨text ++ 0 :: rest, left, .gnu, .ok, count + 1, remaining⟩ =
      (none, ⟨text ++ 0 :: rest, left, .gnu, .truncated, count + 1, remaining⟩) := by
  rw [tocNext, if_neg fun h => h rfl]
  dsimp only
  rw [if_neg (Nat.succ_ne_zero _), Toc.peekUntil_long htext rfl hmax]

/-- A GNU table gives all its names, or says that one is too long. -/
theorem tocSymbols_gnu {names : List Str} (hnames : ∀ name ∈ names, 0 ∉ name)
    (hleft : (terminated 0 names).length ≤ left) :
    let symbols := tocSymbols ⟨terminated 0 names ++ rest, left, .gnu, .ok, names.length, remaining⟩
    (Fits names → symbols.1 = names ∧ symbols.2.err = .ok) ∧
      (symbols.2.err = .ok → Fits names) := by
  induction names generalizing left with
  | nil =>
    have hnext : tocNext ⟨rest, left, .gnu, .ok, 0, remaining⟩ =
        (none, ⟨rest, left, .gnu, .ok, 0, remaining⟩) := rfl
    dsimp only [terminated_nil, List.nil_append, List.length_nil]
    rw [tocSymbols_none hnext]
    exact ⟨fun _ => ⟨rfl, rfl⟩, fun _ => nofun⟩
  | cons name names ih =>
    rw [terminated_cons, List.length_append, List.length_cons] at hleft
    rw [terminated_cons, List.append_assoc, List.cons_append, List.length_cons]
    have hname := hnames name List.mem_cons_self
    obtain ⟨hfits, hok⟩ := @ih (left - (name.length + 1))
      (fun name hname => hnames name (List.mem_cons_of_mem _ hname)) (by omega)
    dsimp only
    by_cases hmax : name.length < tocSymbolMax
    · rw [tocSymbols_some (tocNext_gnu hname (by omega) hmax)]
      refine ⟨fun h => ?_, fun h => ?_⟩
      · obtain ⟨hall, herr⟩ := hfits fun name hname => h name (List.mem_cons_of_mem _ hname)
        exact ⟨congrArg (name :: ·) hall, herr⟩
      · exact List.forall_mem_cons.2 ⟨hmax, hok h⟩
    · rw [tocSymbols_none (tocNext_gnu_long hname (Nat.le_of_not_lt hmax))]
      exact ⟨fun h => absurd (h name List.mem_cons_self) hmax, nofun⟩

theorem tocNext_of_bsd : tocNext ⟨rest, left, .bsd, .ok, count, remaining⟩ =
    tocNextBsd remaining ⟨rest, left, .bsd, .ok, count, remaining⟩ := by
  rw [tocNext, if_neg fun h => h rfl]

theorem tocNext_bsd (hne : text ≠ []) (htext : 0 ∉ text) (hleft : text.length < left)
    (hmax : text.length < tocSymbolMax) (hremaining : text.length < remaining) :
    tocNext ⟨text ++ 0 :: rest, left, .bsd, .ok, count, remaining⟩ =
      (some text, ⟨rest, left - (text.length + 1), .bsd, .ok, count,
        remaining - (text.length + 1)⟩) := by
  obtain ⟨turns, rfl⟩ := Nat.exists_eq_add_of_lt hremaining
  have hlen : (text ++ [(0 : UInt8)]).length = text.length + 1 := List.length_append
  have hpos := List.length_pos_iff.2 hne
  rw [tocNext_of_bsd, tocNextBsd, if_neg (Nat.succ_ne_zero _),
    Toc.peekUntil_append htext rfl hleft hmax]
  dsimp only
  rw [if_neg (by omega), if_neg (by omega), Toc.consume_text rfl hleft, List.dropLast_concat, hlen]

/-- An empty name is passed over. -/
theorem tocNext_bsd_empty :
    tocNext ⟨0 :: rest, left + 1, .bsd, .ok, count, remaining + 1⟩ =
      tocNext ⟨rest, left, .bsd, .ok, count, remaining⟩ := by
  have hpeek : Toc.peekUntil ⟨0 :: rest, left + 1, .bsd, .ok, count, remaining + 1⟩ 0 = some [0] :=
    Toc.peekUntil_append (List.not_mem_nil) rfl (Nat.succ_pos left) (by decide)
  rw [tocNext_of_bsd, tocNext_of_bsd, tocNextBsd, if_neg (Nat.succ_ne_zero _), hpeek]
  dsimp only
  rw [if_neg (by rw [List.length_singleton]; omega)]
  exact if_pos rfl

theorem tocNext_bsd_long (htext : 0 ∉ text) (hmax : tocSymbolMax ≤ text.length) :
    tocNext ⟨text ++ 0 :: rest, left, .bsd, .ok, count, remaining + 1⟩ =
      (none, ⟨text ++ 0 :: rest, left, .bsd, .truncated, count, remaining + 1⟩) := by
  rw [tocNext_of_bsd, tocNextBsd, if_neg (Nat.succ_ne_zero _), Toc.peekUntil_long htext rfl hmax]

/-- A string area without a terminator at its end. -/
theorem tocNext_bsd_open {area : Str} (hne : area ≠ []) (harea : 0 ∉ area) :
    tocNext ⟨area ++ rest, left, .bsd, .ok, count, area.length⟩ =
      (none, ⟨area ++ rest, left, .bsd, .truncated, count, area.length⟩) := by
  obtain ⟨n, hn⟩ := Nat.exists_eq_succ_of_ne_zero (List.length_pos_iff.2 hne).ne'
  rw [tocNext_of_bsd, hn, tocNextBsd, if_neg (Nat.succ_ne_zero _)]
  cases hpeek : Toc.peekUntil ⟨area ++ rest, left, .bsd, .ok, count, n.succ⟩ 0 with
  | none => rfl
  | some view =>
    obtain ⟨text, rest', rfl, htext, hio, -, -⟩ := Toc.peekUntil_eq_some hpeek
    have hne' : ∀ c ∈ area, decide (c ≠ 0) = true := fun c hc => by
      simpa using fun heq : c = 0 => harea (heq ▸ hc)
    have htake := takeWhile_text htext rest'
    rw [← hio, List.takeWhile_append_of_pos hne'] at htake
    have hlen : area.length ≤ text.length := by
      rw [← htake, List.length_append]
      exact Nat.le_add_right _ _
    refine if_pos ?_
    rw [List.length_append, List.length_singleton]
    dsimp only
    omega

theorem tocSymbols_congr (h : tocNext toc = tocNext toc') : tocSymbols toc = tocSymbols toc' := by
  cases hnext : tocNext toc' with
  | mk symbol toc'' =>
    cases symbol with
    | none => rw [tocSymbols_none (h.trans hnext), tocSymbols_none hnext]
    | some symbol => rw [tocSymbols_some (h.trans hnext), tocSymbols_some hnext]

/-- After a name of a string area the rest of the area is read. -/
theorem tocSymbols_area {area : Str} (htext : 0 ∉ text) (hleft : text.length < left)
    (hmax : text.length < tocSymbolMax) :
    let behind := tocSymbols
      ⟨area ++ rest, left - (text.length + 1), .bsd, .ok, count, area.length⟩
    tocSymbols ⟨text ++ 0 :: (area ++ rest), left, .bsd, .ok, count,
        text.length + (area.length + 1)⟩ =
      (if text = [] then behind.1 else text :: behind.1, behind.2) := by
  dsimp only
  by_cases hne : text = []
  · subst hne
    obtain ⟨left, rfl⟩ := Nat.exists_eq_add_of_lt hleft
    rw [if_pos rfl, List.nil_append, List.length_nil, Nat.zero_add, Nat.zero_add,
      tocSymbols_congr tocNext_bsd_empty]
    rfl
  · have hnext : tocNext ⟨text ++ 0 :: (area ++ rest), left, .bsd, .ok, count,
        text.length + (area.length + 1)⟩ =
        (some text, ⟨area ++ rest, left - (text.length + 1), .bsd, .ok, count, area.length⟩) := by
      rw [tocNext_bsd hne htext hleft hmax (by omega)]
      congr 2
      omega
    rw [if_neg hne, tocSymbols_some hnext]

/-- A string area that is names with their terminators. -/
def Closed (area : Str) : Prop :=
  ∃ names : List Str, (∀ name ∈ names, 0 ∉ name) ∧ Fits names ∧ area = terminated 0 names

/-- A BSD table gives the names of its string area. -/
theorem tocSymbols_bsd {names : List Str} (hnames : ∀ name ∈ names, 0 ∉ name) (hfits : Fits names)
    (hleft : (terminated 0 names).length ≤ left) :
    let symbols := tocSymbols
      ⟨terminated 0 names ++ rest, left, .bsd, .ok, count, (terminated 0 names).length⟩
    symbols.1 = names.filter (· ≠ []) ∧ symbols.2.err = .ok := by
  induction names generalizing left with
  | nil =>
    have hnext : tocNext ⟨rest, left, .bsd, .ok, count, 0⟩ =
        (none, ⟨rest, left, .bsd, .ok, count, 0⟩) := rfl
    dsimp only [terminated_nil, List.nil_append, List.length_nil]
    rw [tocSymbols_none hnext]
    exact ⟨rfl, rfl⟩
  | cons name names ih =>
    rw [terminated_cons, List.length_append, List.length_cons] at hleft
    rw [terminated_cons, List.length_append, List.length_cons, List.append_assoc, List.cons_append]
    have hname := hnames name List.mem_cons_self
    have hmax := hfits name List.mem_cons_self
    obtain ⟨hall, herr⟩ := @ih (left - (name.length + 1))
      (fun name hname => hnames name (List.mem_cons_of_mem _ hname))
      (fun name hname => hfits name (List.mem_cons_of_mem _ hname)) (by omega)
    dsimp only at hall ⊢
    rw [tocSymbols_area hname (by omega) hmax, hall, List.filter_cons]
    refine ⟨?_, herr⟩
    by_cases hne : name = []
    · rw [if_pos hne, if_neg (by simpa using hne)]
    · rw [if_neg hne, if_pos (by simpa using hne)]

/-- A BSD table whose names were all read was one of names that could be read. -/
theorem closed_of_tocSymbols {area : Str} (hleft : area.length ≤ left)
    (h : (tocSymbols ⟨area ++ rest, left, .bsd, .ok, count, area.length⟩).2.err = .ok) :
    Closed area := by
  generalize hn : area.length = n
  induction n using Nat.strongRecOn generalizing area left with
  | ind n ih =>
    by_cases hne : area = []
    · exact ⟨[], nofun, nofun, hne⟩
    by_cases harea : 0 ∈ area
    · obtain ⟨name, area', rfl, hname⟩ := List.eq_append_cons_of_mem harea
      rw [List.length_append, List.length_cons] at hleft hn h
      rw [List.append_assoc, List.cons_append] at h
      by_cases hmax : name.length < tocSymbolMax
      · have hclosed : Closed area' := by
          refine @ih area'.length (by omega) (left - (name.length + 1)) _ ?_ ?_ rfl
          · omega
          · rw [tocSymbols_area hname (by omega) hmax] at h
            exact h
        obtain ⟨names, hnames, hfits, rfl⟩ := hclosed
        exact ⟨name :: names, List.forall_mem_cons.2 ⟨hname, hnames⟩,
          List.forall_mem_cons.2 ⟨hmax, hfits⟩, terminated_cons.symm⟩
      · rw [← Nat.add_assoc, tocSymbols_none (tocNext_bsd_long hname (Nat.le_of_not_lt hmax))] at h
        cases h
    · rw [tocSymbols_none (tocNext_bsd_open hne harea)] at h
      cases h

end Spn.Compiler
