import Spn.Toml.Lossless

/-! # What is found in a document

What a path finds in a document, by its pieces. Where the editor finds an entry, the document is one
with a place in it that any other value can take.
-/
namespace Spn.Toml

variable {T U : Type} {path own q : List Str} {at_ : ℕ} {more rest u : Str}

/-! ## Finding -/

mutual

/-- What a pair of such a key and value has at a path. -/
def Value.under (own path : List Str) : Value → Option Value
  | .leaf kind text => if own = path then some (.leaf kind text) else none
  | .empty gap => if own = path then some (.empty gap) else none
  | .table pairs =>
    if own <+: path then
      if own.length = path.length then some (.table pairs) else pairs.get (path.drop own.length)
    else none

def Pairs.get (path : List Str) : Pairs → Option Value
  | .one head value _ => value.under head.path path
  | .more head value _ rest => (value.under head.path path).or (rest.get path)

end

/-- What a value has at a path that goes on in it. -/
def Value.within (path : List Str) : Value → Option Value
  | .leaf _ _ => none
  | .empty _ => none
  | .table pairs => pairs.get path

/-- What the lines up to the next header have at a path. -/
def entryAt (path : List Str) : List Line → Option Value
  | [] => none
  | .header .. :: _ => none
  | .entry head value _ :: rest => (value.under head.path path).or (entryAt path rest)
  | .blank _ :: rest => entryAt path rest
  | .comment _ _ :: rest => entryAt path rest

/-- What a section has at a path, its lines being these. -/
def sectionAt (own path : List Str) (doc : List Line) : Option Value :=
  if own <+: path ∧ own.length ≠ path.length then entryAt (path.drop own.length) doc else none

/-- What the sections from the next header on have at a path: the last has the say. -/
def sectionsAt (path : List Str) : List Line → Option Value
  | [] => none
  | .header _ own _ _ :: rest => (sectionsAt path rest).or (sectionAt own path rest)
  | .entry _ _ _ :: rest => sectionsAt path rest
  | .blank _ :: rest => sectionsAt path rest
  | .comment _ _ :: rest => sectionsAt path rest

/-- What a document has at a path. -/
def valueAt (path : List Str) (doc : List Line) : Option Value :=
  (sectionsAt path doc).or (sectionAt [] path doc)

/-! ## Places -/

/-- Paths of which neither goes on from the other. -/
def Apart (q path : List Str) : Prop := ¬ q <+: path ∧ ¬ path <+: q

/-- How a piece is written, when it fits, and what it has at a path. Lines are looked at in two ways,
for the entries up to the next header and for the sections from there on: `other` is the way that
`get` is not. -/
structure Shape (T : Type) where
  text : T → Str
  fits : T → Prop
  get : List Str → T → Option Value
  other : List Str → T → Option Value

/-- The place of an entry's value: what stands before and after it, and the piece with any other
value in the place of the old one. -/
structure Hole (s : Shape T) (path : List Str) (entry : Entry) (at_ : ℕ) (front back : Str)
    (old : Value) (fill : Value → T) : Prop where
  kind : entry.kind = old.kind
  value : entry.value = ⟨at_ + front.length, at_ + front.length + old.text.length⟩
  entries : entry.entries = old.entries (at_ + front.length)
  text : ∀ w, s.text (fill w) = front ++ (w.text ++ back)
  fits : ∀ w, s.fits (fill old) → (∀ nested, w.Fits nested) → s.fits (fill w)
  whole : s.fits (fill old) → ∃ nested, old.Fits nested
  next : s.fits (fill old) → peek back ≠ quote
  same : ∀ w, s.get path (fill w) = some w
  apart : ∀ w q, Apart q path → s.get q (fill w) = s.get q (fill old)
  within : ∀ r, r ≠ [] → ∃ before after : Option Value, ∀ w,
    s.get (path ++ r) (fill w) = before.or ((w.within r).or after)
  other : ∀ w q, s.other q (fill w) = s.other q (fill old)

/-- What is found in the text of a piece is what the piece has, and has its place there. -/
def Found (s : Shape T) (found : Option Entry) (path : List Str) (at_ : ℕ) (x : T) : Prop :=
  (found = none ∧ s.get path x = none) ∨
    ∃ entry front back old fill, found = some entry ∧ fill old = x ∧
      Hole s path entry at_ front back old fill

theorem peek_append_ne (hu : peek u ≠ quote) (hmore : peek more ≠ quote) :
    peek (u ++ more) ≠ quote := by
  cases u with
  | nil => exact hmore
  | cons c u => exact hu

/-- A piece in a larger one. What comes in the place of the piece here looks the same in the other
way, as only the value at the path may change. -/
structure Shape.Inside (s : Shape T) (s' : Shape U) (g : T → U) (pre post : Str)
    (path path' : List Str) (here : T) : Prop where
  text : ∀ x, s'.text (g x) = pre ++ (s.text x ++ post)
  fits : ∀ x, s'.fits (g x) → s.fits x
  refits : ∀ x y old, s'.fits (g x) → s.get path x = some old → s.fits y → s'.fits (g y)
  next : ∀ x, s'.fits (g x) → peek post ≠ quote
  same : ∀ x w, (∀ q, s.other q x = s.other q here) → s.get path x = some w →
    s'.get path' (g x) = some w
  apart : ∀ x y, (∀ q, Apart q path → s.get q x = s.get q y) →
    (∀ q, s.other q x = s.other q y) → ∀ q, Apart q path' → s'.get q (g x) = s'.get q (g y)
  within : ∀ r, r ≠ [] → ∃ before after : Option Value, ∀ x, (∀ q, s.other q x = s.other q here) →
    s'.get (path' ++ r) (g x) = before.or ((s.get (path ++ r) x).or after)
  other : ∀ x y, (∀ q, s.other q x = s.other q y) → ∀ q, s'.other q (g x) = s'.other q (g y)

theorem Hole.inside {s : Shape T} {s' : Shape U} {g : T → U} {pre post : Str}
    {path path' : List Str} {entry : Entry} {front back : Str} {old : Value} {fill : Value → T}
    (h : Hole s path entry (at_ + pre.length) front back old fill)
    (hin : s.Inside s' g pre post path path' (fill old)) :
    Hole s' path' entry at_ (pre ++ front) (back ++ post) old fun w => g (fill w) where
  kind := h.kind
  value := by
    rw [h.value, List.length_append]
    simp only [Nat.add_assoc]
  entries := by
    rw [h.entries, List.length_append, Nat.add_assoc]
  text w := by
    rw [hin.text, h.text]
    simp only [List.append_assoc]
  fits w hfits hw := hin.refits _ _ old hfits (h.same old) (h.fits w (hin.fits _ hfits) hw)
  whole hfits := h.whole (hin.fits _ hfits)
  next hfits := peek_append_ne (h.next (hin.fits _ hfits)) (hin.next _ hfits)
  same w := hin.same _ w (h.other w) (h.same w)
  apart w q hq := hin.apart _ _ (h.apart w) (h.other w) q hq
  within r hr := by
    obtain ⟨before, after, hwithin⟩ := h.within r hr
    obtain ⟨first, last, hget⟩ := hin.within r hr
    refine ⟨first.or before, after.or last, fun w => ?_⟩
    rw [hget _ (h.other w), hwithin]
    simp only [Option.or_assoc]
  other w q := hin.other _ _ (h.other w) q

theorem Found.inside {s : Shape T} {s' : Shape U} {found : Option Entry} {g : T → U}
    {pre post : Str} {path path' : List Str} {x : T} (h : Found s found path (at_ + pre.length) x)
    (hin : s.Inside s' g pre post path path' x) (hnone : s.get path x = none →
      s'.get path' (g x) = none) : Found s' found path' at_ (g x) := by
  rcases h with ⟨hfound, hget⟩ | ⟨entry, front, back, old, fill, hfound, rfl, hole⟩
  · exact .inl ⟨hfound, hnone hget⟩
  · exact .inr ⟨entry, _, _, old, _, hfound, rfl, hole.inside hin⟩

/-- What the first of two pieces has is found, or else what the second has. -/
theorem Found.or {s : Shape T} {s' : Shape U} {first second : Option Entry} {g : T → U}
    {pre post : Str} {path path' : List Str} {x : T}
    (hfirst : Found s first path (at_ + pre.length) x)
    (hin : s.Inside s' g pre post path path' x)
    (hsecond : s.get path x = none → Found s' second path' at_ (g x)) :
    Found s' (first.or second) path' at_ (g x) := by
  rcases hfirst with ⟨rfl, hget⟩ | ⟨entry, front, back, old, fill, rfl, rfl, hole⟩
  · exact hsecond hget
  · exact .inr ⟨entry, _, _, old, _, rfl, rfl, hole.inside hin⟩

/-! ## Values and pairs -/

def valueShape (own : List Str) (nested : Bool) : Shape Value :=
  ⟨Value.text, Value.Fits nested, Value.under own, fun _ _ => none⟩

def pairsShape : Shape Pairs := ⟨Pairs.text, Pairs.Fits, Pairs.get, fun _ _ => none⟩

@[simp] theorem Value.under_self (v : Value) : v.under path path = some v := by
  cases v <;> simp [Value.under]

theorem Value.under_missed (v : Value) (h : ¬ own <+: q) : v.under own q = none := by
  have hne : own ≠ q := by
    rintro rfl
    exact h List.prefix_rfl
  cases v <;> simp [Value.under, h, hne]

theorem Value.under_table {pairs : Pairs} (hown : own <+: q) (hne : own ≠ q) :
    (Value.table pairs).under own q = pairs.get (q.drop own.length) := by
  rw [Value.under, if_pos hown, if_neg fun hlength => hne (hown.eq_of_length hlength)]

theorem Value.under_append (v : Value) {r : List Str} (hr : r ≠ []) :
    v.under path (path ++ r) = v.within r := by
  have hne : path ≠ path ++ r := by simpa using hr
  cases v with
  | leaf kind text => exact if_neg hne
  | empty gap => exact if_neg hne
  | table pairs =>
    rw [Value.under_table (List.prefix_append path r) hne, List.drop_left]
    rfl

theorem drop_prefix_append (hown : own <+: path) (r : List Str) :
    (path ++ r).drop own.length = path.drop own.length ++ r :=
  List.drop_append_of_le_length hown.length_le

theorem ne_append_of (hown : own <+: path) {r : List Str} (hr : r ≠ []) :
    own ≠ path ++ r := by
  rintro rfl
  have hlength := hown.length_le
  rw [List.length_append] at hlength
  have hpos := List.length_pos_of_ne_nil hr
  omega

theorem Apart.drop (h : Apart q path) (hq : own <+: q) (hpath : own <+: path) :
    Apart (q.drop own.length) (path.drop own.length) := by
  obtain ⟨t, rfl⟩ := hq
  obtain ⟨r, rfl⟩ := hpath
  simpa only [Apart, List.drop_left, List.prefix_append_right_inj] using h

theorem table_inside {nested : Bool} {pairs : Pairs} (hown : own <+: path) (hne : own ≠ path) :
    pairsShape.Inside (valueShape own nested) .table [leftBrace] [] (path.drop own.length)
      path pairs where
  text x := by simp [valueShape, pairsShape, Value.text]
  fits _ h := h
  refits _ _ _ _ _ h := h
  next _ _ := by decide
  same x w _ h := (Value.under_table hown hne).trans h
  apart x y hget _ q hq := by
    by_cases hprefix : own <+: q
    · have hother : own ≠ q := by
        rintro rfl
        exact hq.1 hown
      exact ((Value.under_table hprefix hother).trans (hget _ (hq.drop hprefix hown))).trans
        (Value.under_table hprefix hother).symm
    · exact (Value.under_missed _ hprefix).trans
        (Value.under_missed _ hprefix).symm
  within r hr := ⟨none, none, fun x _ => by
    have hget : (Value.table x).under own (path ++ r) = x.get (path.drop own.length ++ r) := by
      rw [Value.under_table (hown.trans (List.prefix_append path r)) (ne_append_of hown hr),
        drop_prefix_append hown]
    simpa only [valueShape, pairsShape, Option.none_or, Option.or_none] using hget⟩
  other _ _ _ _ := rfl

/-- A pair's own value, in its place. -/
theorem hole_self {nested : Bool} (v : Value) (key : Span) (lineEnd : ℕ) :
    Hole (valueShape path nested) path
      (.mk path v.kind key ⟨at_, at_ + v.text.length⟩ lineEnd (v.entries at_)) at_ [] [] v
      fun w => w where
  kind := rfl
  value := rfl
  entries := rfl
  text w := (List.append_nil w.text).symm
  fits w _ hw := hw nested
  whole h := ⟨nested, h⟩
  next _ := by decide
  same w := w.under_self
  apart w q hq := (w.under_missed hq.2).trans (v.under_missed hq.2).symm
  within r hr := ⟨none, none, fun w =>
    (w.under_append hr).trans (by rw [Option.none_or, Option.or_none])⟩
  other _ _ := rfl

theorem one_inside (head : Head) (trail : Str) {value : Value} :
    (valueShape head.path true).Inside pairsShape (fun v => .one head v trail) head.text
      (trail ++ [rightBrace]) path path value where
  text _ := rfl
  fits _ h := h.2.1
  refits _ _ _ h _ hv := ⟨h.1, hv, h.2.2⟩
  next _ h := (Stops.trail h.2.2 (.inr rfl) []).peek (.inl rfl)
  same _ _ _ h := h
  apart _ _ hget _ q hq := hget q hq
  within r _ := ⟨none, none, fun x _ => by
    simp only [pairsShape, valueShape, Pairs.get, Option.none_or, Option.or_none]⟩
  other _ _ _ _ := rfl

theorem first_inside (head : Head) (trail : Str) (rest : Pairs) {value : Value} :
    (valueShape head.path true).Inside pairsShape (fun v => .more head v trail rest) head.text
      (trail ++ comma :: rest.text) path path value where
  text _ := rfl
  fits _ h := h.2.1
  refits _ _ _ h _ hv := ⟨h.1, hv, h.2.2⟩
  next _ h := (Stops.trail h.2.2.1 (.inl rfl) _).peek (.inl rfl)
  same x w _ h := by
    have h : x.under head.path path = some w := h
    simp only [pairsShape, Pairs.get, h, Option.some_or]
  apart x y hget _ q hq := by
    have h : x.under head.path q = y.under head.path q := hget q hq
    simp only [pairsShape, Pairs.get, h]
  within r _ := ⟨none, rest.get (path ++ r), fun x _ => by
    simp only [pairsShape, valueShape, Pairs.get, Option.none_or]⟩
  other _ _ _ _ := rfl

theorem rest_inside {head : Head} {value : Value} {rest : Pairs} (trail : Str)
    (hnone : value.under head.path path = none) :
    pairsShape.Inside pairsShape (fun rest => .more head value trail rest)
      (head.text ++ (value.text ++ (trail ++ [comma]))) [] path path rest where
  text _ := by simp [pairsShape, Pairs.text]
  fits _ h := h.2.2.2
  refits _ _ _ h _ hrest := ⟨h.1, h.2.1, h.2.2.1, hrest⟩
  next _ _ := by decide
  same x w _ h := by
    have h : x.get path = some w := h
    simp only [pairsShape, Pairs.get, hnone, h, Option.none_or]
  apart x y hget _ q hq := by
    have h : x.get q = y.get q := hget q hq
    simp only [pairsShape, Pairs.get, h]
  within r _ := ⟨value.under head.path (path ++ r), none, fun x _ => by
    simp only [pairsShape, Pairs.get, Option.or_none]⟩
  other _ _ _ _ := rfl

mutual

/-- What is found in a pair's value, and where. -/
theorem Value.found (nested : Bool) (v : Value) (own path : List Str) (at_ : ℕ) (key : Span)
    (lineEnd : ℕ) :
    Found (valueShape own nested)
      ((Entry.mk own v.kind key ⟨at_, at_ + v.text.length⟩ lineEnd (v.entries at_)).find path)
      path at_ v := by
  by_cases hown : own <+: path
  · by_cases heq : own = path
    · subst heq
      exact .inr ⟨_, [], [], v, fun w => w, by rw [Entry.find, if_pos hown, if_pos rfl], rfl,
        hole_self v key lineEnd⟩
    · have hlength : own.length ≠ path.length := fun h => heq (hown.eq_of_length h)
      rw [Entry.find, if_pos hown, if_neg hlength]
      match v with
      | .leaf kind text => exact .inl ⟨by simp [Value.entries, findIn], if_neg heq⟩
      | .empty gap => exact .inl ⟨by simp [Value.entries, findIn], if_neg heq⟩
      | .table pairs =>
        exact (pairs.found (path.drop own.length) (at_ + 1)).inside
          (table_inside hown heq) fun h => (Value.under_table hown heq).trans h
  · exact .inl ⟨by rw [Entry.find, if_neg hown], v.under_missed hown⟩

theorem Pairs.found (p : Pairs) (path : List Str) (at_ : ℕ) :
    Found pairsShape (findIn path (p.entries at_)) path at_ p := by
  match p with
  | .one head value trail =>
    rw [Pairs.entries, findIn, findIn, Option.or_none]
    exact (value.found true head.path path (at_ + head.text.length) _ 0).inside
      (one_inside head trail) fun h => h
  | .more head value trail rest =>
    rw [Pairs.entries, findIn]
    refine (value.found true head.path path (at_ + head.text.length) _ 0).or
      (first_inside head trail rest) fun hnone => ?_
    refine Found.inside ?_ (rest_inside trail hnone) fun h => Option.or_eq_none_iff.2 ⟨hnone, h⟩
    simpa only [List.length_append, List.length_singleton] using rest.found path
      (at_ + (head.text.length + (value.text.length + (trail.length + 1))))

end

/-! ## Lines and sections -/

def linesShape (get other : List Str → List Line → Option Value) : Shape (List Line) :=
  ⟨textOf, LinesFit, get, other⟩

theorem line_inside {get other get' other' : List Str → List Line → Option Value}
    {path path' : List Str} {here : List Line} (line : Line) (hnil : get path [] = none)
    (hsame : ∀ x w, (∀ q, other q x = other q here) → get path x = some w →
      get' path' (line :: x) = some w)
    (hapart : ∀ x y, (∀ q, Apart q path → get q x = get q y) → (∀ q, other q x = other q y) →
      ∀ q, Apart q path' → get' q (line :: x) = get' q (line :: y))
    (hwithin : ∀ r, r ≠ [] → ∃ before after : Option Value, ∀ x, (∀ q, other q x = other q here) →
      get' (path' ++ r) (line :: x) = before.or ((get (path ++ r) x).or after))
    (hother : ∀ x y, (∀ q, other q x = other q y) → ∀ q,
      other' q (line :: x) = other' q (line :: y)) :
    (linesShape get other).Inside (linesShape get' other') (fun x => line :: x) line.text [] path
      path' here where
  text x := by simp [linesShape, text_cons]
  fits _ h := h.2.2
  refits x y old h hget hy := by
    refine ⟨h.1, fun _ => h.2.1 ?_, hy⟩
    rintro rfl
    have hget : get path [] = some old := hget
    rw [hnil] at hget
    cases hget
  next _ _ := by decide
  same := hsame
  apart := hapart
  within := hwithin
  other := hother

theorem value_inside (head : Head) (tail : Str) (rest : List Line) {value : Value} :
    (valueShape head.path false).Inside (linesShape entryAt sectionsAt)
      (fun v => .entry head v tail :: rest) head.text (tail ++ textOf rest) path path value where
  text _ := by simp [linesShape, valueShape, text_cons, Line.text]
  fits _ h := h.1.2.2.1
  refits _ _ _ h _ hv := ⟨⟨h.1.1, h.1.2.1, hv, h.1.2.2.2⟩, h.2.1, h.2.2⟩
  next _ h := (stops_lineEnd (skipLineEnd_tail h.1.2.2.2 h.2.1)).peek (.inl rfl)
  same x w _ h := by
    have h : x.under head.path path = some w := h
    simp only [linesShape, entryAt, h, Option.some_or]
  apart x y hget _ q hq := by
    have h : x.under head.path q = y.under head.path q := hget q hq
    simp only [linesShape, entryAt, h]
  within r _ := ⟨none, entryAt (path ++ r) rest, fun x _ => by
    simp only [linesShape, valueShape, entryAt, Option.none_or]⟩
  other _ _ _ _ := rfl

/-- What is found before the next header. -/
theorem entries_found (doc : List Line) (path : List Str) (at_ : ℕ) :
    Found (linesShape entryAt sectionsAt) (findIn path (entriesOf at_ doc)) path at_ doc := by
  induction doc generalizing at_ with
  | nil => exact .inl ⟨rfl, rfl⟩
  | cons line rest ih =>
    cases line with
    | blank c =>
      exact (ih _).inside (line_inside (.blank c) rfl (fun _ _ _ h => h)
        (fun _ _ h _ q hq => h q hq) (fun _ _ => ⟨none, none, fun _ _ => Option.or_none.symm⟩)
        fun _ _ h => h) fun h => h
    | comment text stop =>
      exact (ih _).inside (line_inside (.comment text stop) rfl (fun _ _ _ h => h)
        (fun _ _ h _ q hq => h q hq) (fun _ _ => ⟨none, none, fun _ _ => Option.or_none.symm⟩)
        fun _ _ h => h) fun h => h
    | header array own key tail => exact .inl ⟨rfl, rfl⟩
    | entry head value tail =>
      rw [entriesOf, findIn]
      refine (value.found false head.path path (at_ + head.text.length) _ _).or
        (value_inside head tail rest) fun hnone => ?_
      have hnone : value.under head.path path = none := hnone
      refine (ih _).inside (line_inside (.entry head value tail) rfl (fun x w _ h => ?_)
        (fun x y h _ q hq => ?_) (fun r _ => ⟨value.under head.path (path ++ r), none,
          fun x _ => ?_⟩) fun _ _ h => h) fun h => ?_
      · rw [entryAt, hnone, h, Option.none_or]
      · rw [entryAt, entryAt, h q hq]
      · rw [entryAt, Option.or_none]
      · exact Option.or_eq_none_iff.2 ⟨hnone, h⟩

/-- What is found in sections: the last has the say. -/
def findLast (path : List Str) (sections : List Section) : Option Entry :=
  sections.foldl (fun found s => (s.find path).or found) none

theorem findLast_foldl (path : List Str) (sections : List Section) (found : Option Entry) :
    sections.foldl (fun found s => (s.find path).or found) found =
      (findLast path sections).or found := by
  rw [findLast]
  induction sections generalizing found with
  | nil => rfl
  | cons s sections ih =>
    rw [List.foldl_cons, List.foldl_cons, ih, ih ((s.find path).or none), Option.or_none,
      Option.or_assoc]

theorem findLast_cons (path : List Str) (s : Section) (sections : List Section) :
    findLast path (s :: sections) = (findLast path sections).or (s.find path) := by
  rw [findLast, List.foldl_cons, findLast_foldl, Option.or_none]

theorem sectionAt_congr {x y : List Line} (h : ∀ q, entryAt q x = entryAt q y)
    (own q : List Str) : sectionAt own q x = sectionAt own q y := by
  rw [sectionAt, sectionAt, h]

theorem sectionAt_apart {x y : List Line}
    (h : ∀ q, Apart q (path.drop own.length) → entryAt q x = entryAt q y) (hown : own <+: path)
    (hq : Apart q path) : sectionAt own q x = sectionAt own q y := by
  rw [sectionAt, sectionAt]
  split_ifs with hin
  · exact h _ (hq.drop hin.1 hown)
  · rfl

theorem sectionAt_append (hown : own <+: path) {r : List Str} (hr : r ≠ []) (doc : List Line) :
    sectionAt own (path ++ r) doc = entryAt (path.drop own.length ++ r) doc := by
  have hlength : own.length ≠ (path ++ r).length := fun h =>
    ne_append_of hown hr ((hown.trans (List.prefix_append path r)).eq_of_length h)
  rw [sectionAt, if_pos ⟨hown.trans (List.prefix_append path r), hlength⟩, drop_prefix_append hown]

/-- What is found from the next header on. -/
theorem sections_found (doc : List Line) (path : List Str) (at_ : ℕ) :
    Found (linesShape sectionsAt entryAt) (findLast path (sectionsOf at_ doc)) path at_ doc := by
  induction doc generalizing at_ with
  | nil => exact .inl ⟨rfl, rfl⟩
  | cons line rest ih =>
    cases line with
    | blank c =>
      exact (ih _).inside (line_inside (.blank c) rfl (fun _ _ _ h => h)
        (fun _ _ h _ q hq => h q hq) (fun _ _ => ⟨none, none, fun _ _ => Option.or_none.symm⟩)
        fun _ _ h => h) fun h => h
    | comment text stop =>
      exact (ih _).inside (line_inside (.comment text stop) rfl (fun _ _ _ h => h)
        (fun _ _ h _ q hq => h q hq) (fun _ _ => ⟨none, none, fun _ _ => Option.or_none.symm⟩)
        fun _ _ h => h) fun h => h
    | entry head value tail =>
      refine (ih _).inside (line_inside (.entry head value tail) rfl (fun _ _ _ h => h)
        (fun _ _ h _ q hq => h q hq) (fun _ _ => ⟨none, none, fun _ _ => Option.or_none.symm⟩)
        fun x y h q => ?_) fun h => h
      rw [entryAt, entryAt, h]
    | header array own key tail =>
      rw [sectionsOf, findLast_cons]
      refine (ih _).or (line_inside (.header array own key tail) rfl (fun x w _ h => ?_)
        (fun x y h hother q hq => ?_) (fun r _ => ⟨none, sectionAt own (path ++ r) rest,
          fun x hx => ?_⟩) fun _ _ _ _ => rfl) fun hnone => ?_
      · rw [sectionsAt, h, Option.some_or]
      · rw [sectionsAt, sectionsAt, h q hq, sectionAt_congr hother]
      · rw [sectionsAt, sectionAt_congr hx, Option.none_or]
      · have hnone : sectionsAt path rest = none := hnone
        rw [Section.find]
        split_ifs with hin
        · refine (entries_found rest (path.drop own.length) _).inside (line_inside
            (.header array own key tail) rfl (fun x w hx h => ?_) (fun x y h hother q hq => ?_)
            (fun r hr => ⟨sectionsAt (path ++ r) rest, none, fun x hx => ?_⟩)
            fun _ _ _ _ => rfl) fun h => ?_
          · rw [sectionsAt, hx, hnone, Option.none_or, sectionAt, if_pos hin, h]
          · rw [sectionsAt, sectionsAt, hother, sectionAt_apart h hin.1 hq]
          · rw [sectionsAt, hx, sectionAt_append hin.1 hr, Option.or_none]
          · refine Option.or_eq_none_iff.2 ⟨hnone, ?_⟩
            rw [sectionAt, if_pos hin]
            exact h
        · refine .inl ⟨rfl, Option.or_eq_none_iff.2 ⟨hnone, ?_⟩⟩
          rw [sectionAt, if_neg hin]

/-! ## Documents -/

def docShape : Shape (List Line) := ⟨textOf, LinesFit, valueAt, fun _ _ => none⟩

theorem doc_inside {get other : List Str → List Line → Option Value} {path path' : List Str}
    {doc : List Line}
    (hsame : ∀ x w, (∀ q, other q x = other q doc) → get path x = some w →
      valueAt path' x = some w)
    (hapart : ∀ x y, (∀ q, Apart q path → get q x = get q y) → (∀ q, other q x = other q y) →
      ∀ q, Apart q path' → valueAt q x = valueAt q y)
    (hwithin : ∀ r, r ≠ [] → ∃ before after : Option Value, ∀ x, (∀ q, other q x = other q doc) →
      valueAt (path' ++ r) x = before.or ((get (path ++ r) x).or after)) :
    (linesShape get other).Inside docShape (fun x => x) [] [] path path' doc where
  text x := (List.append_nil _).symm
  fits _ h := h
  refits _ _ _ _ _ hy := hy
  next _ _ := by decide
  same := hsame
  apart := hapart
  within := hwithin
  other _ _ _ _ := rfl

/-- What the editor finds in the text of a document. -/
theorem found_doc (doc : List Line) (path : List Str) :
    Found docShape (Edit.find ⟨textOf doc, sectionsIn doc, []⟩ path) path 0 doc := by
  rw [Edit.find, sectionsIn, ← findLast, findLast_cons]
  refine (sections_found doc path 0).or (doc_inside (fun x w _ h => ?_)
    (fun x y h hother q hq => ?_) fun r _ => ⟨none, sectionAt [] (path ++ r) doc,
      fun x hx => ?_⟩) fun hnone => ?_
  · rw [valueAt, h, Option.some_or]
  · rw [valueAt, valueAt, h q hq, sectionAt_congr hother]
  · rw [valueAt, sectionAt_congr hx, Option.none_or]
  · have hnone : sectionsAt path doc = none := hnone
    rw [Section.find]
    split_ifs with hin
    · refine (entries_found doc (path.drop 0) 0).inside (doc_inside (fun x w hx h => ?_)
        (fun x y h hother q hq => ?_) fun r hr => ⟨sectionsAt (path ++ r) doc, none,
          fun x hx => ?_⟩) fun h => ?_
      · rw [valueAt, hx, hnone, Option.none_or, sectionAt, if_pos hin]
        exact h
      · rw [valueAt, valueAt, hother, @sectionAt_apart path [] q x y h hin.1 hq]
      · rw [valueAt, hx, sectionAt_append hin.1 hr, Option.or_none]
        rfl
      · refine Option.or_eq_none_iff.2 ⟨hnone, ?_⟩
        rw [sectionAt, if_pos hin]
        exact h
    · refine .inl ⟨rfl, Option.or_eq_none_iff.2 ⟨hnone, ?_⟩⟩
      rw [sectionAt, if_neg hin]

end Spn.Toml
