import Mathlib

/-! # Texts of tokens

JSON as a sequence of tokens with white space between them: values and their tokens, the
texts of a token sequence, and a lexer and a parser that read a value back from any of its
texts. A string is kept as the bytes between its quotes; numbers and names are words, which
are not looked into.
-/
namespace Spn.Lib.Json

abbrev Bytes := List UInt8

def quote : UInt8 := 0x22
def backslash : UInt8 := 0x5c

inductive Punct
  | openArray | closeArray | openObject | closeObject | comma | colon
  deriving DecidableEq, Repr

def Punct.byte : Punct → UInt8
  | .openArray => 0x5b | .closeArray => 0x5d | .openObject => 0x7b | .closeObject => 0x7d
  | .comma => 0x2c | .colon => 0x3a

def punctOf (c : UInt8) : Option Punct :=
  [Punct.openArray, .closeArray, .openObject, .closeObject, .comma, .colon].find?
    fun p => p.byte = c

def isSpace (c : UInt8) : Bool := c = 0x20 ∨ c = 0x09 ∨ c = 0x0a ∨ c = 0x0d

/-- A byte of a word. -/
def isWord (c : UInt8) : Bool := !isSpace c && (punctOf c).isNone && c ≠ quote

inductive Token
  | punct (p : Punct)
  | string (body : Bytes)
  | word (text : Bytes)
  deriving DecidableEq, Repr

def Token.text : Token → Bytes
  | .punct p => [p.byte]
  | .string body => quote :: (body ++ [quote])
  | .word text => text

/-- A body in which no quote ends the string: those there are stand after a backslash. -/
inductive Closed : Bytes → Prop
  | nil : Closed []
  | plain {c : UInt8} {body : Bytes} (hquote : c ≠ quote) (hslash : c ≠ backslash)
      (hbody : Closed body) : Closed (c :: body)
  | escape (c : UInt8) {body : Bytes} (hbody : Closed body) : Closed (backslash :: c :: body)

def Token.Ok : Token → Prop
  | .punct _ => True
  | .string body => Closed body
  | .word text => text ≠ [] ∧ ∀ c ∈ text, isWord c = true

/-- Two words do not follow each other. -/
def Apart (t t' : Token) : Prop := ∀ text text', ¬(t = .word text ∧ t' = .word text')

/-! ## Values -/

mutual

inductive Value
  | string (body : Bytes)
  | word (text : Bytes)
  | array (items : Items)
  | object (members : Members)

inductive Items
  | nil
  | cons (item : Value) (rest : Items)

inductive Members
  | nil
  | cons (key : Bytes) (value : Value) (rest : Members)

end

mutual

def Value.tokens : Value → List Token
  | .string body => [.string body]
  | .word text => [.word text]
  | .array items => .punct .openArray :: (items.tokens ++ [.punct .closeArray])
  | .object members => .punct .openObject :: (members.tokens ++ [.punct .closeObject])

def Items.tokens : Items → List Token
  | .nil => []
  | .cons item rest => item.tokens ++ rest.more

/-- What follows an item. -/
def Items.more : Items → List Token
  | .nil => []
  | .cons item rest => .punct .comma :: (item.tokens ++ rest.more)

def Members.tokens : Members → List Token
  | .nil => []
  | .cons key value rest => .string key :: .punct .colon :: (value.tokens ++ rest.more)

/-- What follows a member. -/
def Members.more : Members → List Token
  | .nil => []
  | .cons key value rest =>
    .punct .comma :: .string key :: .punct .colon :: (value.tokens ++ rest.more)

end

mutual

/-- How deep the arrays and objects of a value stand in each other. -/
def Value.nesting : Value → ℕ
  | .string _ | .word _ => 0
  | .array items => items.nesting + 1
  | .object members => members.nesting + 1

def Items.nesting : Items → ℕ
  | .nil => 0
  | .cons item rest => max item.nesting rest.nesting

def Members.nesting : Members → ℕ
  | .nil => 0
  | .cons _ value rest => max value.nesting rest.nesting

end

/-- The text of tokens without white space. -/
def textOf (ts : List Token) : Bytes := ts.flatMap Token.text

/-- The value without white space. -/
def Value.compact (v : Value) : Bytes := textOf v.tokens

/-- A text of tokens: white space before each of them and after the last one. -/
inductive Spread : List Token → Bytes → Prop
  | nil {gap : Bytes} (hgap : ∀ c ∈ gap, isSpace c = true) : Spread [] gap
  | cons {gap : Bytes} (hgap : ∀ c ∈ gap, isSpace c = true) {t : Token} {ts : List Token}
      {s : Bytes} (hrest : Spread ts s) : Spread (t :: ts) (gap ++ (t.text ++ s))

theorem Spread.space {gap : Bytes} (hgap : ∀ c ∈ gap, isSpace c = true) {ts : List Token}
    {s : Bytes} (h : Spread ts s) : Spread ts (gap ++ s) := by
  have hboth : ∀ {gap' : Bytes}, (∀ c ∈ gap', isSpace c = true) →
      ∀ c ∈ gap ++ gap', isSpace c = true := by
    intro gap' hgap' c hc
    rcases List.mem_append.1 hc with hc | hc
    · exact hgap c hc
    · exact hgap' c hc
  cases h with
  | nil hgap' => exact .nil (hboth hgap')
  | cons hgap' hrest =>
    rw [← List.append_assoc]
    exact .cons (hboth hgap') hrest

theorem spread_textOf (ts : List Token) : Spread ts (textOf ts) := by
  induction ts with
  | nil => exact .nil nofun
  | cons t ts ih =>
    have hno : ∀ c ∈ ([] : Bytes), isSpace c = true := nofun
    exact .cons hno ih

/-! ## The lexer -/

/-- Where the lexer is: between tokens, in a word, or in a string, maybe after a backslash. -/
inductive Mode
  | between
  | word (text : Bytes)
  | string (body : Bytes) (escaped : Bool)
  deriving DecidableEq, Repr

structure Lexed where
  mode : Mode
  tokens : List Token
  deriving DecidableEq, Repr

def lexBetween (ts : List Token) (c : UInt8) : Lexed :=
  if isSpace c then ⟨.between, ts⟩
  else match punctOf c with
    | some p => ⟨.between, ts ++ [.punct p]⟩
    | none => if c = quote then ⟨.string [] false, ts⟩ else ⟨.word [c], ts⟩

def lexByte : Lexed → UInt8 → Lexed
  | ⟨.between, ts⟩, c => lexBetween ts c
  | ⟨.word text, ts⟩, c =>
    if isWord c then ⟨.word (text ++ [c]), ts⟩ else lexBetween (ts ++ [.word text]) c
  | ⟨.string body true, ts⟩, c => ⟨.string (body ++ [c]) false, ts⟩
  | ⟨.string body false, ts⟩, c =>
    if c = quote then ⟨.between, ts ++ [.string body]⟩
    else ⟨.string (body ++ [c]) (c = backslash), ts⟩

/-- A word ends where the text does. -/
def Lexed.finish : Lexed → Option (List Token)
  | ⟨.between, ts⟩ => some ts
  | ⟨.word text, ts⟩ => some (ts ++ [.word text])
  | ⟨.string _ _, _⟩ => none

def lex (s : Bytes) : Option (List Token) := (s.foldl lexByte ⟨.between, []⟩).finish

/-- The tokens before this place are these. -/
inductive Lexed.Done : List Token → Lexed → Prop
  | between (ts : List Token) : Done ts ⟨.between, ts⟩
  | word (text : Bytes) (ts : List Token) : Done (ts ++ [.word text]) ⟨.word text, ts⟩

theorem Lexed.Done.finish {ts : List Token} {l : Lexed} (h : l.Done ts) : l.finish = some ts := by
  cases h <;> rfl

theorem Lexed.Done.last {before : List Token} {t : Token} {l : Lexed} (h : l.Done (before ++ [t]))
    {text : Bytes} (hmode : l.mode = .word text) : t = .word text := by
  generalize hts : before ++ [t] = ts at h
  cases h with
  | between => cases hmode
  | word text' ts =>
    have ht : t = .word text' := by simpa using (List.append_inj' hts rfl).2
    rw [ht]
    exact congrArg Token.word (Mode.word.inj hmode)

/-- A byte that is in no word ends the word before it. -/
theorem lexByte_done {ts : List Token} {l : Lexed} (h : l.Done ts) {c : UInt8}
    (hc : isWord c = false) : lexByte l c = lexBetween ts c := by
  cases h with
  | between => rfl
  | word text ts => simp [lexByte, hc]

theorem isWord_of_isSpace {c : UInt8} (h : isSpace c = true) : isWord c = false := by
  simp [isWord, h]

theorem isWord_byte (p : Punct) : isWord p.byte = false := by cases p <;> decide

theorem lexBetween_byte (ts : List Token) (p : Punct) :
    lexBetween ts p.byte = ⟨.between, ts ++ [.punct p]⟩ := by
  cases p <;> rfl

theorem lex_gap {ts : List Token} {l : Lexed} (h : l.Done ts) {gap : Bytes}
    (hgap : ∀ c ∈ gap, isSpace c = true) :
    gap = [] ∨ gap.foldl lexByte l = ⟨.between, ts⟩ := by
  induction gap generalizing l with
  | nil => exact .inl rfl
  | cons c gap ih =>
    have hc := hgap c List.mem_cons_self
    have hstep : lexByte l c = ⟨.between, ts⟩ := by
      rw [lexByte_done h (isWord_of_isSpace hc), lexBetween, if_pos hc]
    right
    rw [List.foldl_cons, hstep]
    rcases ih (.between ts) fun c hc => hgap c (List.mem_cons_of_mem _ hc) with rfl | hrest
    · rfl
    · exact hrest

theorem lex_body {body : Bytes} (h : Closed body) (before : Bytes) (ts : List Token) :
    (body ++ [quote]).foldl lexByte ⟨.string before false, ts⟩ =
      ⟨.between, ts ++ [.string (before ++ body)]⟩ := by
  induction h generalizing before with
  | nil => simp [lexByte]
  | @plain c body hquote hslash hbody ih =>
    have hstep : lexByte ⟨.string before false, ts⟩ c = ⟨.string (before ++ [c]) false, ts⟩ := by
      simp [lexByte, hquote, hslash]
    rw [List.cons_append, List.foldl_cons, hstep, ih]
    simp
  | escape c hbody ih =>
    have hslash : lexByte ⟨.string before false, ts⟩ backslash =
        ⟨.string (before ++ [backslash]) true, ts⟩ := rfl
    have hstep : lexByte ⟨.string (before ++ [backslash]) true, ts⟩ c =
        ⟨.string (before ++ [backslash] ++ [c]) false, ts⟩ := rfl
    rw [List.cons_append, List.cons_append, List.foldl_cons, List.foldl_cons, hslash, hstep, ih]
    simp

theorem lex_word {text : Bytes} (h : ∀ c ∈ text, isWord c = true) (before : Bytes)
    (ts : List Token) :
    text.foldl lexByte ⟨.word before, ts⟩ = ⟨.word (before ++ text), ts⟩ := by
  induction text generalizing before with
  | nil => simp
  | cons c text ih =>
    have hstep : lexByte ⟨.word before, ts⟩ c = ⟨.word (before ++ [c]), ts⟩ := by
      simp [lexByte, h c List.mem_cons_self]
    rw [List.foldl_cons, hstep, ih fun c hc => h c (List.mem_cons_of_mem _ hc)]
    simp

/-- A token is read, unless it is a word right after another one. -/
theorem lex_token {ts : List Token} {l : Lexed} (h : l.Done ts) {t : Token} (ht : t.Ok)
    (hapart : ∀ text, t = .word text → l.mode = .between) :
    (t.text.foldl lexByte l).Done (ts ++ [t]) := by
  cases t with
  | punct p =>
    rw [Token.text, List.foldl_cons, List.foldl_nil, lexByte_done h (isWord_byte p),
      lexBetween_byte]
    exact .between _
  | string body =>
    have hstep : lexByte l quote = ⟨.string [] false, ts⟩ := lexByte_done h rfl
    rw [Token.text, List.foldl_cons, hstep, lex_body ht]
    exact .between _
  | word text =>
    obtain ⟨hne, hword⟩ := ht
    obtain ⟨c, text, rfl⟩ := List.exists_cons_of_ne_nil hne
    have hbetween : l = ⟨.between, ts⟩ := by
      cases h with
      | between => rfl
      | word text' ts => exact absurd (hapart _ rfl) (by simp)
    have hc := hword c List.mem_cons_self
    simp only [isWord, Bool.and_eq_true, Bool.not_eq_true', Option.isNone_iff_eq_none,
      decide_eq_true_eq] at hc
    have hstep : lexByte ⟨.between, ts⟩ c = ⟨.word [c], ts⟩ := by
      simp [lexByte, lexBetween, hc.1.1, hc.1.2, hc.2]
    rw [hbetween, Token.text, List.foldl_cons, hstep,
      lex_word fun c hc => hword c (List.mem_cons_of_mem _ hc)]
    exact .word _ _

/-- Tokens are read back from every text of them. -/
theorem lex_spread {ts : List Token} (hok : ∀ t ∈ ts, t.Ok) (hapart : ts.IsChain Apart) {s : Bytes}
    (h : Spread ts s) : lex s = some ts := by
  suffices hall : ∀ (before : List Token) (l : Lexed), l.Done before →
      (∀ text text', l.mode = .word text → ts.head? ≠ some (.word text')) →
      (s.foldl lexByte l).finish = some (before ++ ts) from
    hall [] ⟨.between, []⟩ (.between []) (fun _ _ hmode => by cases hmode)
  induction h with
  | nil hgap =>
    intro before l hdone _
    rw [List.append_nil]
    rcases lex_gap hdone hgap with rfl | hbetween
    · exact hdone.finish
    · rw [hbetween]
      rfl
  | @cons gap hgap t ts s hrest ih =>
    intro before l hdone hmode
    have hread : ((gap ++ t.text).foldl lexByte l).Done (before ++ [t]) := by
      rw [List.foldl_append]
      rcases lex_gap hdone hgap with rfl | hbetween
      · refine lex_token hdone (hok t List.mem_cons_self) fun text ht => ?_
        cases hdone with
        | between => rfl
        | word text' before => exact absurd (by rw [ht]; rfl) (hmode text' text rfl)
      · rw [hbetween]
        exact lex_token (.between before) (hok t List.mem_cons_self) fun _ _ => rfl
    have hnext := ih (fun t ht => hok t (List.mem_cons_of_mem _ ht)) hapart.tail (before ++ [t]) _
      hread ?_
    · rwa [← List.append_assoc, List.foldl_append, List.append_cons]
    · intro text text' hword hhead
      obtain rfl := hread.last hword
      cases ts with
      | nil => cases hhead
      | cons t' ts =>
        obtain rfl := Option.some.inj hhead
        exact hapart.rel text text' ⟨rfl, rfl⟩

/-! ## Tokens of a value -/

theorem isChain_punct (p : Punct) {ts ts' : List Token} (h : ts.IsChain Apart)
    (h' : ts'.IsChain Apart) : (ts ++ .punct p :: ts').IsChain Apart := by
  refine List.isChain_append.2 ⟨h, ?_, ?_⟩
  · cases ts' with
    | nil => exact List.isChain_singleton _
    | cons t ts' =>
      refine List.isChain_cons_cons.2 ⟨?_, h'⟩
      rintro text text' ⟨hpunct, -⟩
      cases hpunct
  · intro t _ t' ht' text text' hwords
    obtain rfl := Option.some.inj ht'
    cases hwords.2

mutual

theorem Value.isChain (v : Value) : v.tokens.IsChain Apart := by
  cases v with
  | string body => exact List.isChain_singleton _
  | word text => exact List.isChain_singleton _
  | array items =>
    have hitems := isChain_punct .closeArray items.isChain List.isChain_nil
    exact isChain_punct .openArray List.isChain_nil hitems
  | object members =>
    have hmembers := isChain_punct .closeObject members.isChain List.isChain_nil
    exact isChain_punct .openObject List.isChain_nil hmembers

theorem Items.isChain (items : Items) : items.tokens.IsChain Apart := by
  cases items with
  | nil => exact List.isChain_nil
  | cons item rest => exact rest.isChain_more item.isChain

/-- What follows an item begins with a comma, if there is anything. -/
theorem Items.isChain_more (items : Items) {ts : List Token} (h : ts.IsChain Apart) :
    (ts ++ items.more).IsChain Apart := by
  cases items with
  | nil => rwa [Items.more, List.append_nil]
  | cons item rest => exact isChain_punct .comma h (rest.isChain_more item.isChain)

theorem Members.isChain (members : Members) : members.tokens.IsChain Apart := by
  cases members with
  | nil => exact List.isChain_nil
  | cons key value rest =>
    exact isChain_punct .colon (List.isChain_singleton (.string key))
      (rest.isChain_more value.isChain)

theorem Members.isChain_more (members : Members) {ts : List Token} (h : ts.IsChain Apart) :
    (ts ++ members.more).IsChain Apart := by
  cases members with
  | nil => rwa [Members.more, List.append_nil]
  | cons key value rest =>
    have hmember := isChain_punct .colon (List.isChain_singleton (.string key))
      (rest.isChain_more value.isChain)
    exact isChain_punct .comma h hmember

end

/-! ## The parser -/

mutual

/-- A value at the front of tokens, with so many steps. -/
def parseValue : ℕ → List Token → Option (Value × List Token)
  | _ + 1, .string body :: ts => some (.string body, ts)
  | _ + 1, .word text :: ts => some (.word text, ts)
  | _ + 1, .punct .openArray :: .punct .closeArray :: ts => some (.array .nil, ts)
  | _ + 1, .punct .openObject :: .punct .closeObject :: ts => some (.object .nil, ts)
  | n + 1, .punct .openArray :: ts => do
    let (item, ts) ← parseValue n ts
    let (rest, ts) ← parseItems n ts
    return (.array (.cons item rest), ts)
  | n + 1, .punct .openObject :: .string key :: .punct .colon :: ts => do
    let (value, ts) ← parseValue n ts
    let (rest, ts) ← parseMembers n ts
    return (.object (.cons key value rest), ts)
  | _, _ => none

/-- What follows an item, to the end of the array. -/
def parseItems : ℕ → List Token → Option (Items × List Token)
  | _ + 1, .punct .closeArray :: ts => some (.nil, ts)
  | n + 1, .punct .comma :: ts => do
    let (item, ts) ← parseValue n ts
    let (rest, ts) ← parseItems n ts
    return (.cons item rest, ts)
  | _, _ => none

/-- What follows a member, to the end of the object. -/
def parseMembers : ℕ → List Token → Option (Members × List Token)
  | _ + 1, .punct .closeObject :: ts => some (.nil, ts)
  | n + 1, .punct .comma :: .string key :: .punct .colon :: ts => do
    let (value, ts) ← parseValue n ts
    let (rest, ts) ← parseMembers n ts
    return (.cons key value rest, ts)
  | _, _ => none

end

/-- The value that a text is of. -/
def parse (s : Bytes) : Option Value := do
  let ts ← lex s
  let (v, rest) ← parseValue ts.length ts
  if rest = [] then some v else none

theorem Value.tokens_ne (v : Value) (p : Punct) (h : p = .closeArray ∨ p = .closeObject)
    (ts ts' : List Token) : v.tokens ++ ts ≠ .punct p :: ts' := by
  cases v <;> simp [Value.tokens] <;> rintro rfl <;> simp at h

theorem parseValue_array {n : ℕ} {ts : List Token} (h : ∀ ts', ts ≠ .punct .closeArray :: ts') :
    parseValue (n + 1) (.punct .openArray :: ts) = (do
      let (item, ts) ← parseValue n ts
      let (rest, ts) ← parseItems n ts
      return (.array (.cons item rest), ts)) := by
  rw [parseValue]
  exact h

mutual

theorem parseValue_tokens (v : Value) {n : ℕ} (hn : v.tokens.length ≤ n) (ts : List Token) :
    parseValue n (v.tokens ++ ts) = some (v, ts) := by
  cases n with
  | zero => cases v <;> simp [Value.tokens] at hn
  | succ n =>
    cases v with
    | string body => rfl
    | word text => rfl
    | array items =>
      cases items with
      | nil => rfl
      | cons item rest =>
        have htext : (Value.array (.cons item rest)).tokens ++ ts =
            .punct .openArray :: (item.tokens ++ (rest.more ++ .punct .closeArray :: ts)) := by
          simp [Value.tokens, Items.tokens]
        simp only [Value.tokens, Items.tokens, List.length_cons, List.length_append] at hn
        rw [htext, parseValue_array fun ts' => item.tokens_ne _ (.inl rfl) _ ts',
          parseValue_tokens item (by omega)]
        have hrest := parseItems_more rest (n := n) (by omega) ts
        simp only [Option.bind_eq_bind, Option.bind_some, hrest]
        rfl
    | object members =>
      cases members with
      | nil => rfl
      | cons key value rest =>
        have htext : (Value.object (.cons key value rest)).tokens ++ ts =
            .punct .openObject :: .string key :: .punct .colon ::
              (value.tokens ++ (rest.more ++ .punct .closeObject :: ts)) := by
          simp [Value.tokens, Members.tokens]
        simp only [Value.tokens, Members.tokens, List.length_cons, List.length_append] at hn
        rw [htext, parseValue, parseValue_tokens value (by omega)]
        have hrest := parseMembers_more rest (n := n) (by omega) ts
        simp only [Option.bind_eq_bind, Option.bind_some, hrest]
        rfl

theorem parseItems_more (items : Items) {n : ℕ} (hn : items.more.length + 1 ≤ n)
    (ts : List Token) :
    parseItems n (items.more ++ .punct .closeArray :: ts) = some (items, ts) := by
  cases n with
  | zero => omega
  | succ n =>
    cases items with
    | nil => rfl
    | cons item rest =>
      have htext : (Items.cons item rest).more ++ .punct .closeArray :: ts =
          .punct .comma :: (item.tokens ++ (rest.more ++ .punct .closeArray :: ts)) := by
        simp [Items.more]
      simp only [Items.more, List.length_cons, List.length_append] at hn
      rw [htext, parseItems, parseValue_tokens item (by omega)]
      have hrest := parseItems_more rest (n := n) (by omega) ts
      simp only [Option.bind_eq_bind, Option.bind_some, hrest]
      rfl

theorem parseMembers_more (members : Members) {n : ℕ} (hn : members.more.length + 1 ≤ n)
    (ts : List Token) :
    parseMembers n (members.more ++ .punct .closeObject :: ts) = some (members, ts) := by
  cases n with
  | zero => omega
  | succ n =>
    cases members with
    | nil => rfl
    | cons key value rest =>
      have htext : (Members.cons key value rest).more ++ .punct .closeObject :: ts =
          .punct .comma :: .string key :: .punct .colon ::
            (value.tokens ++ (rest.more ++ .punct .closeObject :: ts)) := by
        simp [Members.more]
      simp only [Members.more, List.length_cons, List.length_append] at hn
      rw [htext, parseMembers, parseValue_tokens value (by omega)]
      have hrest := parseMembers_more rest (n := n) (by omega) ts
      simp only [Option.bind_eq_bind, Option.bind_some, hrest]
      rfl

end

/-- A value is read back from every text of its tokens. -/
theorem parse_spread {v : Value} (hok : ∀ t ∈ v.tokens, t.Ok) {s : Bytes}
    (h : Spread v.tokens s) : parse s = some v := by
  have hvalue := parseValue_tokens v (Nat.le_refl _) []
  rw [List.append_nil] at hvalue
  simp [parse, lex_spread hok v.isChain h, hvalue]

/-! ## What a string stands for -/

def hexValue (c : UInt8) : Option ℕ :=
  if 0x30 ≤ c ∧ c ≤ 0x39 then some (c.toNat - 0x30)
  else if 0x61 ≤ c ∧ c ≤ 0x66 then some (c.toNat - 0x61 + 10)
  else if 0x41 ≤ c ∧ c ≤ 0x46 then some (c.toNat - 0x41 + 10)
  else none

/-- Four hexadecimal digits. -/
def hexUnit (a b c d : UInt8) : Option ℕ := do
  return (((← hexValue a) * 16 + (← hexValue b)) * 16 + (← hexValue c)) * 16 + (← hexValue d)

/-- A code point in UTF-8. -/
def utf8 (n : ℕ) : Bytes :=
  if n < 0x80 then [UInt8.ofNat n]
  else if n < 0x800 then [UInt8.ofNat (0xc0 + n / 64), UInt8.ofNat (0x80 + n % 64)]
  else if n < 0x10000 then
    [UInt8.ofNat (0xe0 + n / 4096), UInt8.ofNat (0x80 + n / 64 % 64), UInt8.ofNat (0x80 + n % 64)]
  else [UInt8.ofNat (0xf0 + n / 262144), UInt8.ofNat (0x80 + n / 4096 % 64),
    UInt8.ofNat (0x80 + n / 64 % 64), UInt8.ofNat (0x80 + n % 64)]

/-- The byte for a letter after a backslash. -/
def simpleEscape (c : UInt8) : Option UInt8 :=
  if c = quote ∨ c = backslash ∨ c = 0x2f then some c
  else if c = 0x62 then some 0x08
  else if c = 0x66 then some 0x0c
  else if c = 0x6e then some 0x0a
  else if c = 0x72 then some 0x0d
  else if c = 0x74 then some 0x09
  else none

/-- The bytes that the rest of a string stands for, up to the quote at its end. A pair of
surrogates is one code point, and one without the other is none. -/
def decodeBody : Bytes → Option Bytes
  | [] => none
  | c :: s =>
    if c = quote then if s = [] then some [] else none
    else if c = backslash then
      match s with
      | 0x75 :: a :: b :: c :: d :: s =>
        match hexUnit a b c d with
        | none => none
        | some n =>
          if 0xd800 ≤ n ∧ n < 0xdc00 then
            match s with
            | 0x5c :: 0x75 :: a :: b :: c :: d :: s =>
              match hexUnit a b c d with
              | none => none
              | some m =>
                if 0xdc00 ≤ m ∧ m < 0xe000 then
                  (decodeBody s).map (utf8 (0x10000 + (n - 0xd800) * 0x400 + (m - 0xdc00)) ++ ·)
                else none
            | _ => none
          else if 0xdc00 ≤ n ∧ n < 0xe000 then none
          else (decodeBody s).map (utf8 n ++ ·)
      | e :: s =>
        match simpleEscape e with
        | none => none
        | some b => (decodeBody s).map (b :: ·)
      | [] => none
    else if c < 0x20 then none
    else (decodeBody s).map (c :: ·)

/-- The bytes that a string stands for. -/
def decode : Bytes → Option Bytes
  | [] => none
  | c :: s => if c = quote then decodeBody s else none

theorem decodeBody_plain {c : UInt8} (hquote : c ≠ quote) (hslash : c ≠ backslash)
    (hcontrol : ¬c < 0x20) (s : Bytes) : decodeBody (c :: s) = (decodeBody s).map (c :: ·) := by
  rw [decodeBody.eq_def]
  simp only [if_neg hquote, if_neg hslash, if_neg hcontrol]

theorem decodeBody_simple {c : UInt8} (h : c = quote ∨ c = backslash) (s : Bytes) :
    decodeBody (backslash :: c :: s) = (decodeBody s).map (c :: ·) := by
  have hslash : backslash ≠ quote := by decide
  rcases h with rfl | rfl <;> rw [decodeBody.eq_def] <;> rfl

theorem decodeBody_unit {a b c d : UInt8} {n : ℕ} (h : hexUnit a b c d = some n) (hn : n < 0x80)
    (s : Bytes) : decodeBody (backslash :: 0x75 :: a :: b :: c :: d :: s) =
      (decodeBody s).map (UInt8.ofNat n :: ·) := by
  have hslash : backslash ≠ quote := by decide
  have hhigh : ¬(0xd800 ≤ n ∧ n < 0xdc00) := by omega
  have hlow : ¬(0xdc00 ≤ n ∧ n < 0xe000) := by omega
  rw [decodeBody.eq_def]
  simp only [if_neg hslash, if_true, h, if_neg hhigh, if_neg hlow, utf8, if_pos hn]
  rfl

end Spn.Lib.Json
