import Mathlib

/-! # Framed encodings

An encoding is framed when a reader can tell where it ends: a value followed by anything is
read in one way. Framed encodings compose, so what is written by one field after another
determines every field.
-/
namespace Spn.Lib

section

variable {α β γ : Type*} {P : α → Prop} {Q : γ → Prop} {enc : α → List β} {enc' : γ → List β}

/-- What is encoded and what follows it are determined by the whole, for the values of
interest. -/
def Framed (P : α → Prop) (enc : α → List β) : Prop :=
  ∀ a b x y, P a → P b → enc a ++ x = enc b ++ y → a = b ∧ x = y

namespace Framed

theorem inj (h : Framed P enc) {a b : α} (ha : P a) (hb : P b) (heq : enc a = enc b) : a = b :=
  (h a b [] [] ha hb (by rw [heq])).1

theorem mono {P' : α → Prop} (h : Framed P enc) (himp : ∀ a, P' a → P a) : Framed P' enc :=
  fun a b x y ha hb heq => h a b x y (himp a ha) (himp b hb) heq

/-- Encodings of one length are framed. -/
theorem of_length {n : ℕ} (hlength : ∀ a, P a → (enc a).length = n)
    (hinj : ∀ a b, P a → P b → enc a = enc b → a = b) : Framed P enc := by
  intro a b x y ha hb heq
  obtain ⟨henc, hrest⟩ := List.append_inj heq (by rw [hlength a ha, hlength b hb])
  exact ⟨hinj a b ha hb henc, hrest⟩

/-- One byte for each value. -/
theorem single {f : α → β} (hinj : ∀ a b, P a → P b → f a = f b → a = b) :
    Framed P fun a => [f a] := by
  refine of_length (n := 1) (fun _ _ => rfl) fun a b ha hb heq => hinj a b ha hb ?_
  exact (List.cons_eq_cons.1 heq).1

theorem comap {f : γ → α} (h : Framed P enc) (hinj : Function.Injective f) :
    Framed (fun c => P (f c)) fun c => enc (f c) := by
  intro c d x y hc hd heq
  obtain ⟨hf, hrest⟩ := h _ _ x y hc hd heq
  exact ⟨hinj hf, hrest⟩

theorem pair (h : Framed P enc) (h' : Framed Q enc') :
    Framed (fun p : α × γ => P p.1 ∧ Q p.2) fun p => enc p.1 ++ enc' p.2 := by
  rintro ⟨a, c⟩ ⟨b, d⟩ x y ⟨ha, hc⟩ ⟨hb, hd⟩ heq
  simp only [List.append_assoc] at heq
  obtain ⟨rfl, hnext⟩ := h a b _ _ ha hb heq
  obtain ⟨rfl, hrest⟩ := h' c d x y hc hd hnext
  exact ⟨rfl, hrest⟩

/-- Lists of one length are read one element after another. -/
theorem flatMap (h : Framed P enc) {as bs : List α} {x y : List β} (ha : ∀ a ∈ as, P a)
    (hb : ∀ b ∈ bs, P b) (hlength : as.length = bs.length)
    (heq : as.flatMap enc ++ x = bs.flatMap enc ++ y) : as = bs ∧ x = y := by
  induction as generalizing bs with
  | nil =>
    obtain rfl := List.length_eq_zero_iff.1 hlength.symm
    exact ⟨rfl, heq⟩
  | cons a as ih =>
    cases bs with
    | nil => cases hlength
    | cons b bs =>
      rw [List.flatMap_cons, List.flatMap_cons, List.append_assoc, List.append_assoc] at heq
      obtain ⟨rfl, hnext⟩ := h a b _ _ (ha _ List.mem_cons_self) (hb _ List.mem_cons_self) heq
      obtain ⟨rfl, hrest⟩ := ih (fun c hc => ha c (List.mem_cons_of_mem _ hc))
        (fun c hc => hb c (List.mem_cons_of_mem _ hc)) (Nat.succ.inj hlength) hnext
      exact ⟨rfl, hrest⟩

/-- A list after its length. -/
theorem counted {N : ℕ → Prop} {count : ℕ → List β} (hcount : Framed N count)
    (h : Framed P enc) : Framed (fun as : List α => N as.length ∧ ∀ a ∈ as, P a)
      fun as => count as.length ++ as.flatMap enc := by
  rintro as bs x y ⟨hn, ha⟩ ⟨hm, hb⟩ heq
  simp only [List.append_assoc] at heq
  obtain ⟨hlength, heq⟩ := hcount _ _ _ _ hn hm heq
  exact h.flatMap ha hb hlength heq

/-- A string after its length. -/
theorem counted_raw {N : ℕ → Prop} {count : ℕ → List β} (hcount : Framed N count) :
    Framed (fun s : List β => N s.length) fun s => count s.length ++ s := by
  intro s r x y hs hr heq
  simp only [List.append_assoc] at heq
  obtain ⟨hlength, heq⟩ := hcount _ _ _ _ hs hr heq
  exact List.append_inj heq hlength

end Framed
end
end Spn.Lib
