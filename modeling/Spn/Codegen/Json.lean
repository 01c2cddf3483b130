import Spn.Lib.Decimal
import Spn.Lib.Json
import Spn.Paths

/-! # Writing JSON

`codegen/json.c`: the writer that lays compact JSON out over lines, which sees a few bytes at
a time, and the text of a string.
-/
namespace Spn.Codegen

open Spn.Lib.Json

/-! ## The writer -/

/-- `spn_codegen_json_writer_t`; the depth is a `u32`. -/
structure JsonWriter where
  depth : ℕ
  inString : Bool
  escape : Bool
  pending : Bool
  deriving DecidableEq, Repr

/-- `depth += 1` of a `u32`. -/
def u32Succ (depth : ℕ) : ℕ := (depth + 1) % 2 ^ 32

/-- `depth -= 1` of a `u32`. -/
def u32Pred (depth : ℕ) : ℕ := if depth = 0 then 0xFFFFFFFF else depth - 1

namespace JsonWriter

/-- `spn_codegen_json_writer_init`. -/
def init : JsonWriter := ⟨0, false, false, false⟩

/-- What `spn_codegen_json_writer_newline` writes. -/
def newline (w : JsonWriter) : Str := 0x0a :: (List.replicate w.depth [0x20, 0x20]).flatten

/-- What `spn_codegen_json_writer_pending` writes. -/
def flush (w : JsonWriter) : Str := if w.pending then w.newline else []

def deeper (w : JsonWriter) : JsonWriter := { w with depth := u32Succ w.depth }

def shallower (w : JsonWriter) : JsonWriter := { w with depth := u32Pred w.depth }

/-- A turn of the loop of `spn_codegen_json_writer_write` inside of a string. -/
def stringByte (w : JsonWriter) (c : UInt8) : JsonWriter :=
  if w.escape then { w with escape := false }
  else if c = backslash then { w with escape := true }
  else if c = quote then { w with inString := false }
  else w

/-- A turn of the loop of `spn_codegen_json_writer_write`. -/
def writeByte (w : JsonWriter) (c : UInt8) : JsonWriter × Str :=
  if w.inString then (w.stringByte c, [c])
  else if c = quote then ({ w with pending := false, inString := true }, w.flush ++ [c])
  else if c = 0x7b ∨ c = 0x5b then ({ w.deeper with pending := true }, w.flush ++ [c])
  else if c = 0x7d ∨ c = 0x5d then
    ({ w.shallower with pending := false },
      if w.pending then [c] else w.shallower.newline ++ [c])
  else if c = 0x2c then ({ w with pending := true }, [c])
  else if c = 0x3a then (w, [0x3a, 0x20])
  else ({ w with pending := false }, w.flush ++ [c])

/-- `spn_codegen_json_writer_write`. -/
def write (w : JsonWriter) : Str → JsonWriter × Str
  | [] => (w, [])
  | c :: data =>
    let (w, out) := w.writeByte c
    let (w, rest) := w.write data
    (w, out ++ rest)

/-- The calls of a writer, one after another. -/
def writes (w : JsonWriter) : List Str → JsonWriter × Str
  | [] => (w, [])
  | data :: chunks =>
    let (w, out) := w.write data
    let (w, rest) := w.writes chunks
    (w, out ++ rest)

theorem write_append (w : JsonWriter) (s t : Str) :
    w.write (s ++ t) = (((w.write s).1.write t).1, (w.write s).2 ++ ((w.write s).1.write t).2) := by
  induction s generalizing w with
  | nil => rfl
  | cons c s ih => simp [write, ih]

/-- Where the text is cut into calls makes no difference. -/
theorem writes_eq (w : JsonWriter) (chunks : List Str) :
    w.writes chunks = w.write chunks.flatten := by
  induction chunks generalizing w with
  | nil => rfl
  | cons data chunks ih => simp [writes, write_append, ih]

/-! ## Tokens -/

/-- Outside of strings, with this depth. -/
structure Idle (w : JsonWriter) (depth : ℕ) : Prop where
  inString : w.inString = false
  escape : w.escape = false
  depth : w.depth = depth

theorem isSpace_newline (w : JsonWriter) : ∀ c ∈ w.newline, isSpace c = true := by
  intro c hc
  rcases List.mem_cons.1 hc with rfl | hc
  · rfl
  · obtain ⟨l, hl, hcl⟩ := List.mem_flatten.1 hc
    rw [List.eq_of_mem_replicate hl] at hcl
    rcases List.mem_pair.1 hcl with rfl | rfl <;> rfl

theorem isSpace_flush (w : JsonWriter) : ∀ c ∈ w.flush, isSpace c = true := by
  unfold flush
  split
  · exact w.isSpace_newline
  · exact nofun

/-- The depth after a token. -/
def depthAfter (depth : ℕ) : Token → ℕ
  | .punct .openArray | .punct .openObject => u32Succ depth
  | .punct .closeArray | .punct .closeObject => u32Pred depth
  | _ => depth

/-- A token is sent on between white space. -/
structure Sent (t : Token) (depth : ℕ) (result : JsonWriter × Str) : Prop where
  idle : result.1.Idle (depthAfter depth t)
  text : ∃ before after, (∀ c ∈ before, isSpace c = true) ∧ (∀ c ∈ after, isSpace c = true) ∧
    result.2 = before ++ (t.text ++ after)

theorem write_punct {w : JsonWriter} {depth : ℕ} (h : w.Idle depth) (p : Punct) :
    Sent (.punct p) depth (w.write [p.byte]) := by
  have hnone : ∀ c ∈ ([] : Str), isSpace c = true := nofun
  obtain ⟨hstring, hescape, rfl⟩ := h
  have hopen : ∀ c : UInt8, (c = 0x7b ∨ c = 0x5b) → c ≠ quote →
      w.writeByte c = ({ w.deeper with pending := true }, w.flush ++ [c]) := by
    intro c hc hquote
    simp only [writeByte, hstring, Bool.false_eq_true, if_false, if_neg hquote, if_pos hc]
  have hclose : ∀ c : UInt8, (c = 0x7d ∨ c = 0x5d) → c ≠ quote → ¬(c = 0x7b ∨ c = 0x5b) →
      w.writeByte c = ({ w.shallower with pending := false },
        (if w.pending then [] else w.shallower.newline) ++ [c]) := by
    intro c hc hquote hno
    simp only [writeByte, hstring, Bool.false_eq_true, if_false, if_neg hquote, if_neg hno,
      if_pos hc]
    split <;> rfl
  have hspace : ∀ c ∈ (if w.pending then [] else w.shallower.newline), isSpace c = true := by
    split
    · exact nofun
    · exact w.shallower.isSpace_newline
  cases p with
  | openArray =>
    simp only [write, hopen 0x5b (.inr rfl) (by decide), Punct.byte, List.append_nil]
    exact ⟨⟨hstring, hescape, rfl⟩, w.flush, [], w.isSpace_flush, hnone, rfl⟩
  | openObject =>
    simp only [write, hopen 0x7b (.inl rfl) (by decide), Punct.byte, List.append_nil]
    exact ⟨⟨hstring, hescape, rfl⟩, w.flush, [], w.isSpace_flush, hnone, rfl⟩
  | closeArray =>
    simp only [write, hclose 0x5d (.inr rfl) (by decide) (by decide), Punct.byte, List.append_nil]
    exact ⟨⟨hstring, hescape, rfl⟩, _, [], hspace, hnone, rfl⟩
  | closeObject =>
    simp only [write, hclose 0x7d (.inl rfl) (by decide) (by decide), Punct.byte, List.append_nil]
    exact ⟨⟨hstring, hescape, rfl⟩, _, [], hspace, hnone, rfl⟩
  | comma =>
    have hbyte : w.writeByte 0x2c = ({ w with pending := true }, [0x2c]) := by
      simp [writeByte, hstring, quote]
    simp only [write, Punct.byte, hbyte, List.append_nil]
    exact ⟨⟨hstring, hescape, rfl⟩, [], [], hnone, hnone, rfl⟩
  | colon =>
    have hbyte : w.writeByte 0x3a = (w, [0x3a, 0x20]) := by
      simp [writeByte, hstring, quote]
    simp only [write, Punct.byte, hbyte, List.append_nil]
    exact ⟨⟨hstring, hescape, rfl⟩, [], [0x20], hnone, List.forall_mem_singleton.2 rfl, rfl⟩

/-- The bytes of a body are sent on as they are. -/
theorem write_body {w : JsonWriter} (hstring : w.inString = true) (hescape : w.escape = false)
    {body : Str} (h : Closed body) : w.write body = (w, body) := by
  induction h with
  | nil => rfl
  | @plain c body hquote hslash hbody ih =>
    have hbyte : w.writeByte c = (w, [c]) := by
      simp [writeByte, hstring, stringByte, hescape, hquote, hslash]
    simp only [write, hbyte, ih, List.cons_append, List.nil_append]
  | @escape c body hbody ih =>
    have hslash : w.writeByte backslash = ({ w with escape := true }, [backslash]) := by
      simp [writeByte, hstring, stringByte, hescape]
    have hbyte : ({ w with escape := true } : JsonWriter).writeByte c = (w, [c]) := by
      cases w
      simp_all [writeByte, stringByte]
    simp only [write, hslash, hbyte, ih, List.cons_append, List.nil_append]

theorem write_string {w : JsonWriter} {depth : ℕ} (h : w.Idle depth) {body : Str}
    (hbody : Closed body) : Sent (.string body) depth (w.write (Token.string body).text) := by
  obtain ⟨hstring, hescape, rfl⟩ := h
  have hopen : w.writeByte quote =
      ({ w with pending := false, inString := true }, w.flush ++ [quote]) := by
    simp [writeByte, hstring]
  have hclose : ({ w with pending := false, inString := true } : JsonWriter).writeByte quote =
      ({ w with pending := false, inString := false }, [quote]) := by
    simp [writeByte, stringByte, hescape, quote, backslash]
  have hbytes : ({ w with pending := false, inString := true } : JsonWriter).write body =
      ({ w with pending := false, inString := true }, body) :=
    @write_body { w with pending := false, inString := true } rfl hescape body hbody
  have hwrite : w.write (Token.string body).text =
      ({ w with pending := false, inString := false }, w.flush ++ (Token.string body).text) := by
    simp only [Token.text, write, hopen, write_append, hbytes, hclose]
    simp
  rw [hwrite]
  exact ⟨⟨rfl, hescape, rfl⟩, w.flush, [], w.isSpace_flush, List.forall_mem_nil _, by simp⟩

theorem writeByte_word {w : JsonWriter} (hstring : w.inString = false) {c : UInt8}
    (hc : isWord c = true) : w.writeByte c = ({ w with pending := false }, w.flush ++ [c]) := by
  have hpunct : ∀ p : Punct, c ≠ p.byte := by
    intro p hp
    rw [hp, isWord_byte] at hc
    cases hc
  have hquote : c ≠ quote := by
    rintro rfl
    cases hc
  simp only [writeByte, hstring, Bool.false_eq_true, if_false, if_neg hquote]
  have hopen : ¬(c = 0x7b ∨ c = 0x5b) := not_or.2 ⟨hpunct .openObject, hpunct .openArray⟩
  have hclose : ¬(c = 0x7d ∨ c = 0x5d) := not_or.2 ⟨hpunct .closeObject, hpunct .closeArray⟩
  have hcomma : ¬c = 0x2c := hpunct .comma
  have hcolon : ¬c = 0x3a := hpunct .colon
  rw [if_neg hopen, if_neg hclose, if_neg hcomma, if_neg hcolon]

theorem write_word {w : JsonWriter} {depth : ℕ} (h : w.Idle depth) {text : Str}
    (hok : (Token.word text).Ok) : Sent (.word text) depth (w.write (Token.word text).text) := by
  obtain ⟨hstring, hescape, rfl⟩ := h
  obtain ⟨hne, hword⟩ := hok
  obtain ⟨c, text, rfl⟩ := List.exists_cons_of_ne_nil hne
  have hrest : ∀ {s : Str}, (∀ c ∈ s, isWord c = true) → ∀ {w : JsonWriter}, w.inString = false →
      w.pending = false → w.write s = (w, s) := by
    intro s hs w hstring hpending
    induction s with
    | nil => rfl
    | cons c s ih =>
      have hbyte : w.writeByte c = (w, [c]) := by
        rw [writeByte_word hstring (hs c List.mem_cons_self)]
        cases w
        simp_all [flush]
      simp only [write, hbyte, ih fun c hc => hs c (List.mem_cons_of_mem _ hc), List.cons_append,
        List.nil_append]
  have hwrite : w.write (c :: text) = ({ w with pending := false }, w.flush ++ c :: text) := by
    simp only [write, writeByte_word hstring (hword c List.mem_cons_self)]
    rw [hrest (fun c hc => hword c (List.mem_cons_of_mem _ hc)) (by exact hstring) rfl]
    simp
  rw [Token.text, hwrite]
  exact ⟨⟨hstring, hescape, rfl⟩, w.flush, [], w.isSpace_flush, List.forall_mem_nil _,
    by simp [Token.text]⟩

theorem write_token {w : JsonWriter} {depth : ℕ} (h : w.Idle depth) {t : Token} (ht : t.Ok) :
    Sent t depth (w.write t.text) := by
  cases t with
  | punct p => exact write_punct h p
  | string body => exact write_string h ht
  | word text => exact write_word h ht

/-- Tokens without white space are sent on with white space between them. -/
theorem write_tokens {ts : List Token} (hok : ∀ t ∈ ts, t.Ok) {w : JsonWriter} {depth : ℕ}
    (h : w.Idle depth) : (w.write (textOf ts)).1.Idle (ts.foldl depthAfter depth) ∧
      Spread ts (w.write (textOf ts)).2 := by
  induction ts generalizing w depth with
  | nil => exact ⟨h, .nil nofun⟩
  | cons t ts ih =>
    obtain ⟨hidle, before, after, hbefore, hafter, htext⟩ :=
      write_token h (hok t List.mem_cons_self)
    obtain ⟨hidle', hspread⟩ := ih (fun t ht => hok t (List.mem_cons_of_mem _ ht)) hidle
    rw [textOf, List.flatMap_cons, write_append]
    refine ⟨hidle', ?_⟩
    rw [htext, List.append_assoc, List.append_assoc]
    exact .cons hbefore (hspread.space hafter)

/-! ## The depth -/

/-- The depth is zero and a bracket is closed. -/
def Underflows (w : JsonWriter) (c : UInt8) : Prop :=
  w.inString = false ∧ (c = 0x7d ∨ c = 0x5d) ∧ w.depth = 0

/-- The depth does not go below zero on the way. -/
def NeverBelow (w : JsonWriter) (s : Str) : Prop :=
  ∀ a c b, s = a ++ c :: b → ¬(w.write a).1.Underflows c

theorem neverBelow_nil (w : JsonWriter) : w.NeverBelow [] := by
  intro a c b h
  simp at h

theorem neverBelow_cons {w : JsonWriter} {c : UInt8} {s : Str} :
    w.NeverBelow (c :: s) ↔ ¬w.Underflows c ∧ (w.writeByte c).1.NeverBelow s := by
  constructor
  · exact fun h => ⟨h [] c s rfl, fun a c' b hs => h (c :: a) c' b (by rw [hs]; rfl)⟩
  · rintro ⟨hfirst, hrest⟩ a c' b hs
    cases a with
    | nil =>
      obtain ⟨rfl, -⟩ := List.cons_eq_cons.1 hs
      exact hfirst
    | cons a' a =>
      obtain ⟨rfl, htail⟩ := List.cons_eq_cons.1 hs
      exact hrest a c' b htail

theorem neverBelow_append {w : JsonWriter} {s t : Str} :
    w.NeverBelow (s ++ t) ↔ w.NeverBelow s ∧ (w.write s).1.NeverBelow t := by
  induction s generalizing w with
  | nil => simp [neverBelow_nil, write]
  | cons c s ih => rw [List.cons_append, neverBelow_cons, neverBelow_cons, ih, and_assoc]; rfl

theorem neverBelow_of_inString {w : JsonWriter} (h : w.inString = true) (c : UInt8) :
    ¬w.Underflows c := fun hunder => by
  rw [hunder.1] at h
  cases h

theorem neverBelow_body {body : Str} (h : Closed body) {w : JsonWriter}
    (hstring : w.inString = true) (hescape : w.escape = false) : w.NeverBelow body := by
  induction h with
  | nil => exact w.neverBelow_nil
  | @plain c body hquote hslash hbody ih =>
    have hbyte : w.writeByte c = (w, [c]) := by
      simp [writeByte, hstring, stringByte, hescape, hquote, hslash]
    rw [neverBelow_cons, hbyte]
    exact ⟨neverBelow_of_inString hstring c, ih⟩
  | @escape c body hbody ih =>
    have hslash : w.writeByte backslash = ({ w with escape := true }, [backslash]) := by
      simp [writeByte, hstring, stringByte, hescape]
    have hbyte : ({ w with escape := true } : JsonWriter).writeByte c = (w, [c]) := by
      cases w
      simp_all [writeByte, stringByte]
    rw [neverBelow_cons, hslash, neverBelow_cons, hbyte]
    exact ⟨neverBelow_of_inString hstring _, neverBelow_of_inString hstring c, ih⟩

/-- A token that closes an array or an object. -/
def Closes (t : Token) : Prop := t = .punct .closeArray ∨ t = .punct .closeObject

theorem neverBelow_token {w : JsonWriter} {depth : ℕ} (h : w.Idle depth) {t : Token} (ht : t.Ok) :
    w.NeverBelow t.text ↔ ¬(Closes t ∧ depth = 0) := by
  obtain ⟨hstring, hescape, rfl⟩ := h
  cases t with
  | punct p =>
    rw [Token.text, neverBelow_cons]
    simp only [neverBelow_nil, and_true, Underflows, hstring, true_and, Closes, Token.punct.injEq]
    cases p <;> simp [Punct.byte]
  | string body =>
    have hopen : w.writeByte quote =
        ({ w with pending := false, inString := true }, w.flush ++ [quote]) := by
      simp [writeByte, hstring]
    have hquote : ∀ w : JsonWriter, ¬w.Underflows quote := fun w hunder => by
      rcases hunder.2.1 with h | h <;> exact absurd h (by decide)
    have hbytes : ({ w with pending := false, inString := true } : JsonWriter).write body =
        ({ w with pending := false, inString := true }, body) :=
      @write_body { w with pending := false, inString := true } rfl hescape body ht
    have hno : ¬Closes (.string body) := by simp [Closes]
    simp only [hno, false_and, not_false_eq_true, iff_true]
    rw [Token.text, neverBelow_cons, hopen, neverBelow_append, hbytes, neverBelow_cons]
    exact ⟨hquote _, neverBelow_body ht rfl hescape, hquote _, neverBelow_nil _⟩
  | word text =>
    have hno : ¬Closes (.word text) := by simp [Closes]
    simp only [hno, false_and, not_false_eq_true, iff_true]
    intro a c b hsplit hunder
    have hc : isWord c = true := ht.2 c (by rw [show text = a ++ c :: b from hsplit]; simp)
    rcases hunder.2.1 with rfl | rfl <;> cases hc

/-- No token closes at depth zero. -/
def Stays : ℕ → List Token → Prop
  | _, [] => True
  | depth, t :: ts => ¬(Closes t ∧ depth = 0) ∧ Stays (depthAfter depth t) ts

theorem neverBelow_textOf {ts : List Token} (hok : ∀ t ∈ ts, t.Ok) {w : JsonWriter} {depth : ℕ}
    (h : w.Idle depth) : w.NeverBelow (textOf ts) ↔ Stays depth ts := by
  induction ts generalizing w depth with
  | nil => exact iff_of_true w.neverBelow_nil trivial
  | cons t ts ih =>
    have ht := hok t List.mem_cons_self
    rw [textOf, List.flatMap_cons, neverBelow_append, neverBelow_token h ht, Stays]
    exact and_congr_right fun _ =>
      ih (fun t ht => hok t (List.mem_cons_of_mem _ ht)) (write_token h ht).idle

theorem stays_append {depth : ℕ} {ts us : List Token} :
    Stays depth (ts ++ us) ↔ Stays depth ts ∧ Stays (ts.foldl depthAfter depth) us := by
  induction ts generalizing depth with
  | nil => simp [Stays]
  | cons t ts ih => rw [List.cons_append, Stays, Stays, ih, and_assoc, List.foldl_cons]

/-- Tokens that end at the depth they begin at, and reach so far above it. -/
def Level (ts : List Token) (n : ℕ) : Prop :=
  ∀ depth < 2 ^ 32, ts.foldl depthAfter depth = depth ∧ (Stays depth ts ↔ depth + n < 2 ^ 32)

theorem level_nil : Level [] 0 := fun _ hdepth => ⟨rfl, iff_of_true trivial hdepth⟩

theorem level_cons {t : Token} (ht : ¬Closes t) (hdepth : ∀ depth, depthAfter depth t = depth)
    {ts : List Token} {n : ℕ} (h : Level ts n) : Level (t :: ts) n := by
  intro depth hlt
  obtain ⟨hfold, hstays⟩ := h depth hlt
  rw [List.foldl_cons, hdepth, Stays, hdepth]
  exact ⟨hfold, (and_iff_right fun hcloses => ht hcloses.1).trans hstays⟩

theorem level_append {ts us : List Token} {n m : ℕ} (h : Level ts n) (h' : Level us m) :
    Level (ts ++ us) (max n m) := by
  intro depth hlt
  obtain ⟨hfold, hstays⟩ := h depth hlt
  obtain ⟨hfold', hstays'⟩ := h' depth hlt
  refine ⟨by rw [List.foldl_append, hfold, hfold'], ?_⟩
  rw [stays_append, hfold, hstays, hstays']
  omega

theorem level_container {p q : Punct} (hp : p = .openArray ∧ q = .closeArray ∨
    p = .openObject ∧ q = .closeObject) {ts : List Token} {n : ℕ} (h : Level ts n) :
    Level (.punct p :: (ts ++ [.punct q])) (n + 1) := by
  intro depth hlt
  have hopen : depthAfter depth (.punct p) = u32Succ depth ∧ ¬Closes (.punct p) := by
    rcases hp with ⟨rfl, rfl⟩ | ⟨rfl, rfl⟩ <;> exact ⟨rfl, by simp [Closes]⟩
  have hclose : ∀ d, depthAfter d (.punct q) = u32Pred d ∧ Closes (.punct q) := by
    rcases hp with ⟨rfl, rfl⟩ | ⟨rfl, rfl⟩ <;> exact fun d => ⟨rfl, by simp [Closes]⟩
  have hsucc : u32Succ depth < 2 ^ 32 := Nat.mod_lt _ (by decide)
  obtain ⟨hfold, hstays⟩ := h _ hsucc
  rw [List.foldl_cons, List.foldl_append, hopen.1, hfold, Stays, stays_append, hopen.1, hfold,
    hstays, List.foldl_cons, List.foldl_nil, (hclose _).1, Stays, Stays]
  simp only [hopen.2, (hclose 0).2, false_and, true_and, not_false_eq_true, and_true]
  -- only the last depth of a `u32` is followed by zero
  unfold u32Succ u32Pred
  rcases Nat.lt_or_eq_of_le (Nat.succ_le_of_lt hlt) with hlow | hlast
  · rw [Nat.mod_eq_of_lt hlow, if_neg (Nat.succ_ne_zero _)]
    exact ⟨rfl, by omega⟩
  · rw [← Nat.succ_eq_add_one, hlast, Nat.mod_self, if_pos rfl]
    exact ⟨by omega, by omega⟩

mutual

theorem level_value (v : Value) : Level v.tokens v.nesting := by
  cases v with
  | string body => exact level_cons (by simp [Closes]) (fun _ => rfl) level_nil
  | word text => exact level_cons (by simp [Closes]) (fun _ => rfl) level_nil
  | array items => exact level_container (.inl ⟨rfl, rfl⟩) (level_items items)
  | object members => exact level_container (.inr ⟨rfl, rfl⟩) (level_members members)

theorem level_items (items : Items) : Level items.tokens items.nesting := by
  cases items with
  | nil => exact level_nil
  | cons item rest => exact level_append (level_value item) (level_more rest)

theorem level_more (items : Items) : Level items.more items.nesting := by
  cases items with
  | nil => exact level_nil
  | cons item rest =>
    exact level_cons (by simp [Closes]) (fun _ => rfl)
      (level_append (level_value item) (level_more rest))

theorem level_members (members : Members) : Level members.tokens members.nesting := by
  cases members with
  | nil => exact level_nil
  | cons key value rest =>
    exact level_cons (by simp [Closes]) (fun _ => rfl) (level_cons (by simp [Closes]) (fun _ => rfl)
      (level_append (level_value value) (level_moreMembers rest)))

theorem level_moreMembers (members : Members) : Level members.more members.nesting := by
  cases members with
  | nil => exact level_nil
  | cons key value rest =>
    exact level_cons (by simp [Closes]) (fun _ => rfl) (level_cons (by simp [Closes]) (fun _ => rfl)
      (level_cons (by simp [Closes]) (fun _ => rfl)
        (level_append (level_value value) (level_moreMembers rest))))

end

end JsonWriter

/-! ## Strings -/

/-- `hex[n]`. -/
def hexC8 (n : UInt8) : UInt8 := Lib.hexDigit n

/-- What stands for a byte that is not written as it is. -/
def escaped (c : UInt8) : Str :=
  if c = quote ∨ c = backslash then [backslash, c]
  else [backslash, 0x75, 0x30, 0x30, hexC8 ((c >>> 4) &&& 0xf), hexC8 (c &&& 0xf)]

/-- The loop of `spn_codegen_json_str`; `run` is what has not been written yet. -/
def jsonStrFrom (run : Str) : Str → Str
  | [] => run
  | c :: value =>
    if c ≠ quote ∧ c ≠ backslash ∧ 0x20 ≤ c then jsonStrFrom (run ++ [c]) value
    else run ++ (escaped c ++ jsonStrFrom [] value)

/-- `spn_codegen_json_str`. -/
def jsonStr (value : Str) : Str := quote :: (jsonStrFrom [] value ++ [quote])

theorem jsonStrFrom_eq (run value : Str) : jsonStrFrom run value = run ++ jsonStrFrom [] value := by
  induction value generalizing run with
  | nil => simp [jsonStrFrom]
  | cons c value ih =>
    rw [jsonStrFrom, jsonStrFrom]
    split
    · rw [ih (run ++ [c]), ih ([] ++ [c])]
      simp
    · simp

theorem hexUnit_control {c : UInt8} (h : c < 0x20) :
    hexUnit 0x30 0x30 (hexC8 ((c >>> 4) &&& 0xf)) (hexC8 (c &&& 0xf)) = some c.toNat :=
  Lib.forall_byte (P := fun c => c < 0x20 →
    hexUnit 0x30 0x30 (hexC8 ((c >>> 4) &&& 0xf)) (hexC8 (c &&& 0xf)) = some c.toNat)
    (by decide +kernel) c h

theorem decodeBody_jsonStrFrom (value : Str) :
    decodeBody (jsonStrFrom [] value ++ [quote]) = some value := by
  induction value with
  | nil => rfl
  | cons c value ih =>
    rw [jsonStrFrom]
    split
    · rename_i hplain
      rw [jsonStrFrom_eq, List.nil_append, List.append_assoc, List.singleton_append,
        decodeBody_plain hplain.1 hplain.2.1 (UInt8.not_lt.2 hplain.2.2), ih]
      rfl
    · rename_i hplain
      rw [List.nil_append, escaped]
      split
      · rename_i hsimple
        rw [List.append_assoc, List.cons_append, List.cons_append, List.nil_append,
          decodeBody_simple hsimple, ih]
        rfl
      · rename_i hsimple
        push Not at hsimple
        have hcontrol : c < 0x20 := by
          by_contra hno
          exact hplain ⟨hsimple.1, hsimple.2, UInt8.not_lt.1 hno⟩
        have hlow : c.toNat < 0x80 := Nat.lt_trans (UInt8.lt_iff_toNat_lt.1 hcontrol) (by decide)
        simp only [List.cons_append, List.nil_append]
        rw [decodeBody_unit (hexUnit_control hcontrol) hlow, ih, UInt8.ofNat_toNat]
        rfl

theorem decode_jsonStr (value : Str) : decode (jsonStr value) = some value := by
  rw [jsonStr, decode, if_pos rfl, decodeBody_jsonStrFrom]

/-- Compact JSON is sent on with white space between its tokens, however it is cut into calls,
and is read as the value it was; the depth does not go below zero if and only if the arrays
and objects are not nested as deep as a `u32` can count; and a string is read as the bytes it
was written for. -/
theorem pretty_json :
    (∀ v : Value, (∀ t ∈ v.tokens, t.Ok) → ∀ chunks : List Str, chunks.flatten = v.compact →
      Spread v.tokens (JsonWriter.init.writes chunks).2 ∧
      parse v.compact = some v ∧ parse (JsonWriter.init.writes chunks).2 = some v ∧
      (JsonWriter.init.NeverBelow chunks.flatten ↔ v.nesting < 2 ^ 32)) ∧
    ∀ value, decode (jsonStr value) = some value := by
  refine ⟨fun v hok chunks hchunks => ?_, decode_jsonStr⟩
  have hidle : JsonWriter.init.Idle 0 := ⟨rfl, rfl, rfl⟩
  have hspread := (JsonWriter.write_tokens hok hidle).2
  rw [JsonWriter.writes_eq, hchunks]
  refine ⟨hspread, parse_spread hok (spread_textOf _), parse_spread hok hspread, ?_⟩
  rw [Value.compact, JsonWriter.neverBelow_textOf hok hidle,
    (JsonWriter.level_value v 0 (Nat.two_pow_pos 32)).2, Nat.zero_add]

/-- The pair `[1,"a"]`, written in two calls. -/
theorem pretty_json_pair :
    parse (JsonWriter.init.writes [str "[1", str ",\"a\"]"]).2 =
      some (.array (.cons (.word (str "1")) (.cons (.string (str "a")) .nil))) := by
  have hok : ∀ t ∈ (Value.array (.cons (.word (str "1")) (.cons (.string (str "a")) .nil))).tokens,
      t.Ok := by
    intro t ht
    simp only [Value.tokens, Items.tokens, Items.more, List.append_nil, List.cons_append,
      List.nil_append, List.mem_cons, List.not_mem_nil, or_false] at ht
    rcases ht with rfl | rfl | rfl | rfl | rfl
    · trivial
    · exact ⟨List.cons_ne_nil _ _, List.forall_mem_singleton.2 rfl⟩
    · trivial
    · exact .plain (by decide) (by decide) .nil
    · trivial
  exact (pretty_json.1 _ hok _ (by decide)).2.2.1

/-- Arrays in arrays. -/
def nested : ℕ → Value
  | 0 => .array .nil
  | n + 1 => .array (.cons (nested n) .nil)

theorem nesting_nested (n : ℕ) : (nested n).nesting = n + 1 := by
  induction n with
  | zero => rfl
  | succ n ih => simp [nested, Value.nesting, Items.nesting, ih]

theorem ok_nested (n : ℕ) : ∀ t ∈ (nested n).tokens, t.Ok := by
  induction n with
  | zero =>
    intro t ht
    simp only [nested, Value.tokens, Items.tokens, List.nil_append, List.mem_cons,
      List.not_mem_nil, or_false] at ht
    rcases ht with rfl | rfl <;> trivial
  | succ n ih =>
    intro t ht
    simp only [nested, Value.tokens, Items.tokens, Items.more, List.append_nil, List.mem_cons,
      List.mem_append, List.not_mem_nil, or_false] at ht
    rcases ht with rfl | ht | rfl
    · trivial
    · exact ih t ht
    · trivial

/-- Where arrays are nested as deep as a `u32` can count, the depth wraps to zero. -/
theorem deep_nesting_underflows :
    (∀ t ∈ (nested 0xFFFFFFFF).tokens, t.Ok) ∧
      ¬JsonWriter.init.NeverBelow (nested 0xFFFFFFFF).compact := by
  refine ⟨ok_nested _, fun hnever => ?_⟩
  have hidle : JsonWriter.init.Idle 0 := ⟨rfl, rfl, rfl⟩
  rw [Value.compact, JsonWriter.neverBelow_textOf (ok_nested _) hidle,
    (JsonWriter.level_value _ 0 (by decide)).2, nesting_nested] at hnever
  omega

end Spn.Codegen
