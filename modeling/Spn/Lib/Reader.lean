import Mathlib

/-! # Readers

A reader takes what it reads from the front of a text, or fails. A loop of readers goes on
until the text is at its end; its turns are counted, and a reader that always takes
something never runs out of them.
-/
namespace Spn.Lib

/-- What is read, and what is left of the text. -/
abbrev Reader (ε β α : Type) := StateT (List β) (Except ε) α

namespace Reader

variable {ε β α γ τ : Type} {p : Reader ε β α} {f : α → Reader ε β γ} {s rest : List β}

theorem bind_ok {a : α} (h : p s = .ok (a, rest)) : (p >>= f) s = f a rest := by
  change (p s >>= fun x => f x.1 x.2) = f a rest
  rw [h]
  rfl

theorem bind_error {e : ε} (h : p s = .error e) : (p >>= f) s = .error e := by
  change (p s >>= fun x => f x.1 x.2) = .error e
  rw [h]
  rfl

theorem bind_eq_ok {c : γ} : (p >>= f) s = .ok (c, rest) ↔
    ∃ a between, p s = .ok (a, between) ∧ f a between = .ok (c, rest) := by
  cases h : p s with
  | ok x =>
    rw [bind_ok h]
    exact ⟨fun hf => ⟨x.1, x.2, rfl, hf⟩, by rintro ⟨a, between, heq, hf⟩; cases heq; exact hf⟩
  | error e => simp [bind_error h]

theorem bind_eq_error {e : ε} : (p >>= f) s = .error e ↔
    p s = .error e ∨ ∃ a between, p s = .ok (a, between) ∧ f a between = .error e := by
  cases h : p s with
  | ok x =>
    rw [bind_ok h]
    refine ⟨fun hf => .inr ⟨x.1, x.2, rfl, hf⟩, ?_⟩
    rintro (herror | ⟨a, between, heq, hf⟩)
    · cases herror
    · cases heq
      exact hf
  | error e' => simp [bind_error h]

theorem pure_eq_ok {a b : α} : (pure a : Reader ε β α) s = .ok (b, rest) ↔ b = a ∧ rest = s := by
  change Except.ok (a, s) = .ok (b, rest) ↔ _
  simp [eq_comm]

/-! ## The loop -/

/-- Reads one after another until nothing is left, for so many turns. -/
def manyFrom (p : Reader ε β α) (stuck : ε) : ℕ → List β → Except ε (List α)
  | _, [] => .ok []
  | 0, _ :: _ => .error stuck
  | fuel + 1, c :: s =>
    match p (c :: s) with
    | .error e => .error e
    | .ok (a, rest) => (manyFrom p stuck fuel rest).map (a :: ·)

/-- The loop, with a turn for each byte. -/
def many (p : Reader ε β α) (stuck : ε) (s : List β) : Except ε (List α) :=
  manyFrom p stuck s.length s

/-- A reader that puts nothing back. -/
def Keeps (p : Reader ε β α) : Prop := ∀ s a rest, p s = .ok (a, rest) → rest.length ≤ s.length

/-- A reader that takes something whenever it succeeds. -/
def Takes (p : Reader ε β α) : Prop := ∀ s a rest, p s = .ok (a, rest) → rest.length < s.length

/-- A failure that a reader does not have. -/
def Never (e : ε) (p : Reader ε β α) : Prop := ∀ s, p s ≠ .error e

theorem Takes.keeps (h : Takes p) : Keeps p :=
  fun s a rest hread => Nat.le_of_lt (h s a rest hread)

theorem keeps_pure (a : α) : Keeps (pure a : Reader ε β α) := by
  intro s b rest h
  exact Nat.le_of_eq (congrArg List.length (pure_eq_ok.1 h).2)

theorem Keeps.bind (hp : Keeps p) (hf : ∀ a, Keeps (f a)) : Keeps (p >>= f) := by
  intro s c rest h
  obtain ⟨a, between, hread, hnext⟩ := bind_eq_ok.1 h
  exact Nat.le_trans (hf a _ _ _ hnext) (hp _ _ _ hread)

theorem Takes.bind (hp : Takes p) (hf : ∀ a, Keeps (f a)) : Takes (p >>= f) := by
  intro s c rest h
  obtain ⟨a, between, hread, hnext⟩ := bind_eq_ok.1 h
  exact Nat.lt_of_le_of_lt (hf a _ _ _ hnext) (hp _ _ _ hread)

theorem never_pure (e : ε) (a : α) : Never e (pure a : Reader ε β α) := nofun

theorem Never.bind {e : ε} (hp : Never e p) (hf : ∀ a, Never e (f a)) : Never e (p >>= f) := by
  intro s h
  rcases bind_eq_error.1 h with hread | ⟨a, between, -, hnext⟩
  · exact hp s hread
  · exact hf a between hnext

variable {stuck : ε}

theorem manyFrom_of_le (hp : Takes p) {fuel fuel' : ℕ} (h : s.length ≤ fuel)
    (h' : s.length ≤ fuel') : manyFrom p stuck fuel s = manyFrom p stuck fuel' s := by
  induction fuel generalizing fuel' s with
  | zero =>
    obtain rfl := List.length_eq_zero_iff.1 (Nat.le_zero.1 h)
    cases fuel' <;> rfl
  | succ fuel ih =>
    cases s with
    | nil => cases fuel' <;> rfl
    | cons c s =>
      cases fuel' with
      | zero => cases h'
      | succ fuel' =>
        simp only [manyFrom]
        cases hread : p (c :: s) with
        | error e => rfl
        | ok x =>
          have hlt := hp _ _ _ hread
          simp only [List.length_cons] at h h' hlt
          simp only
          have hih : manyFrom p stuck fuel x.2 = manyFrom p stuck fuel' x.2 :=
            ih (by omega) (by omega)
          rw [hih]

@[simp] theorem many_nil : many p stuck [] = .ok [] := rfl

theorem many_ok (hp : Takes p) {a : α} (h : p s = .ok (a, rest)) :
    many p stuck s = (many p stuck rest).map (a :: ·) := by
  have hlt := hp _ _ _ h
  cases s with
  | nil => cases hlt
  | cons c s =>
    rw [many, List.length_cons, manyFrom, h]
    simp only [List.length_cons] at hlt
    simp only
    have hfuel : manyFrom p stuck s.length rest = manyFrom p stuck rest.length rest :=
      manyFrom_of_le hp (by omega) (Nat.le_refl _)
    rw [hfuel]
    rfl

theorem many_error {e : ε} (hne : s ≠ []) (h : p s = .error e) : many p stuck s = .error e := by
  cases s with
  | nil => exact absurd rfl hne
  | cons c s => rw [many, List.length_cons, manyFrom, h]

/-- The loop fails only where the reader does. -/
theorem many_fails (hp : Takes p) {e : ε} (h : many p stuck s = .error e) :
    ∃ rest, p rest = .error e := by
  generalize hn : s.length = n
  induction n using Nat.strongRecOn generalizing s with
  | ind n ih =>
    cases s with
    | nil => cases h
    | cons c s =>
      cases hread : p (c :: s) with
      | error e' =>
        rw [many_error (List.cons_ne_nil _ _) hread] at h
        cases h
        exact ⟨_, hread⟩
      | ok x =>
        obtain ⟨a, rest⟩ := x
        rw [many_ok hp hread] at h
        cases hmany : many p stuck rest with
        | ok as =>
          rw [hmany] at h
          cases h
        | error e' =>
          rw [hmany] at h
          cases h
          exact ih _ (hn ▸ hp _ _ _ hread) hmany rfl

/-- The loop has ended before its turns are over. -/
theorem many_ne_stuck (hp : Takes p) (hstuck : Never stuck p) (s : List β) :
    many p stuck s ≠ .error stuck := by
  intro h
  obtain ⟨rest, hread⟩ := many_fails hp h
  exact hstuck rest hread

/-- What holds of all that the reader reads holds of all that the loop reads. -/
theorem many_forall (hp : Takes p) {Good : α → Prop}
    (hgood : ∀ s a rest, p s = .ok (a, rest) → Good a) {as : List α}
    (h : many p stuck s = .ok as) : ∀ a ∈ as, Good a := by
  generalize hn : s.length = n
  induction n using Nat.strongRecOn generalizing s as with
  | ind n ih =>
    cases s with
    | nil =>
      obtain rfl := Except.ok.inj h
      exact nofun
    | cons c s =>
      cases hread : p (c :: s) with
      | error e =>
        rw [many_error (List.cons_ne_nil _ _) hread] at h
        cases h
      | ok x =>
        obtain ⟨a, rest⟩ := x
        rw [many_ok hp hread] at h
        cases hmany : many p stuck rest with
        | error e =>
          rw [hmany] at h
          cases h
        | ok as' =>
          rw [hmany] at h
          obtain rfl := Except.ok.inj h
          intro b hb
          obtain rfl | hb := List.mem_cons.1 hb
          · exact hgood _ _ _ hread
          · exact ih _ (hn ▸ hp _ _ _ hread) hmany rfl b hb

/-- Texts that are read one by one are read in the loop. -/
theorem many_flatMap (hp : Takes p) {text : τ → List β} {value : τ → α} {ts : List τ}
    (h : ∀ t ∈ ts, ∀ rest, p (text t ++ rest) = .ok (value t, rest)) :
    many p stuck (ts.flatMap text ++ rest) = (many p stuck rest).map (ts.map value ++ ·) := by
  induction ts with
  | nil => cases hrest : many p stuck rest <;> simp [hrest, Except.map]
  | cons t ts ih =>
    have hread := h t List.mem_cons_self (ts.flatMap text ++ rest)
    rw [List.flatMap_cons, List.append_assoc, many_ok hp hread,
      ih fun t ht => h t (List.mem_cons_of_mem _ ht)]
    cases many p stuck rest <;> simp [Except.map]

/-- What the loop has read is a sequence of texts that the reader reads. -/
theorem many_eq_ok (hp : Takes p) {Good : τ → Prop} {text : τ → List β} {value : τ → α}
    (hinv : ∀ s a rest, p s = .ok (a, rest) → ∃ t, Good t ∧ s = text t ++ rest ∧ a = value t)
    {as : List α} (h : many p stuck s = .ok as) :
    ∃ ts : List τ, (∀ t ∈ ts, Good t) ∧ s = ts.flatMap text ∧ as = ts.map value := by
  generalize hn : s.length = n
  induction n using Nat.strongRecOn generalizing s as with
  | ind n ih =>
    cases s with
    | nil =>
      obtain rfl := Except.ok.inj h
      exact ⟨[], nofun, rfl, rfl⟩
    | cons c s =>
      cases hread : p (c :: s) with
      | error e =>
        rw [many_error (List.cons_ne_nil _ _) hread] at h
        cases h
      | ok x =>
        obtain ⟨a, rest⟩ := x
        rw [many_ok hp hread] at h
        cases hmany : many p stuck rest with
        | error e =>
          rw [hmany] at h
          cases h
        | ok as' =>
          rw [hmany] at h
          obtain rfl := Except.ok.inj h
          obtain ⟨t, ht, hs, rfl⟩ := hinv _ _ _ hread
          obtain ⟨ts, hts, rfl, rfl⟩ := ih _ (hn ▸ hp _ _ _ hread) hmany rfl
          refine ⟨t :: ts, ?_, by rw [hs, List.flatMap_cons], rfl⟩
          intro t' ht'
          obtain rfl | ht' := List.mem_cons.1 ht'
          · exact ht
          · exact hts t' ht'

/-- The loop fails where the reader does, after texts that it has read. -/
theorem many_eq_error (hp : Takes p) {Good : τ → Prop} {text : τ → List β} {value : τ → α}
    (hinv : ∀ s a rest, p s = .ok (a, rest) → ∃ t, Good t ∧ s = text t ++ rest ∧ a = value t)
    {e : ε} (h : many p stuck s = .error e) :
    ∃ (ts : List τ) (rest : List β),
      (∀ t ∈ ts, Good t) ∧ s = ts.flatMap text ++ rest ∧ p rest = .error e := by
  generalize hn : s.length = n
  induction n using Nat.strongRecOn generalizing s with
  | ind n ih =>
    cases s with
    | nil => cases h
    | cons c s =>
      cases hread : p (c :: s) with
      | error e' =>
        rw [many_error (List.cons_ne_nil _ _) hread] at h
        cases h
        exact ⟨[], c :: s, nofun, rfl, hread⟩
      | ok x =>
        obtain ⟨a, rest⟩ := x
        rw [many_ok hp hread] at h
        cases hmany : many p stuck rest with
        | ok as' =>
          rw [hmany] at h
          cases h
        | error e' =>
          rw [hmany] at h
          cases h
          obtain ⟨t, ht, hs, -⟩ := hinv _ _ _ hread
          obtain ⟨ts, rest', hts, rfl, hrest⟩ := ih _ (hn ▸ hp _ _ _ hread) hmany rfl
          refine ⟨t :: ts, rest', ?_, by rw [hs, List.flatMap_cons, List.append_assoc], hrest⟩
          intro t' ht'
          obtain rfl | ht' := List.mem_cons.1 ht'
          · exact ht
          · exact hts t' ht'

end Reader
end Spn.Lib
