import Mathlib

/-! # Decimal and hexadecimal text

Numbers as bytes of text: decimal numbers of any length, and bytes as two lower-case
hexadecimal digits each.
-/
namespace Spn.Lib

/-! ## Decimal numbers -/

def isDigit (c : UInt8) : Bool := 0x30 ≤ c ∧ c ≤ 0x39

def digit (c : UInt8) : ℕ := c.toNat - 0x30

/-- The number that digits stand for. -/
def numeral (digits : List UInt8) : ℕ := digits.foldl (fun n c => n * 10 + digit c) 0

def Digits (digits : List UInt8) : Prop := digits ≠ [] ∧ ∀ c ∈ digits, isDigit c = true

/-- No digit follows. -/
def Stops (rest : List UInt8) : Prop := ∀ c ∈ rest.head?, isDigit c = false

/-- A number in decimal. -/
def decimal (n : ℕ) : List UInt8 := (Nat.toDigits 10 n).map fun c => c.toNat.toUInt8

theorem byte_of_digit {c : Char} (h : c.isDigit = true) :
    c.toNat.toUInt8.toNat = c.toNat ∧ 0x30 ≤ c.toNat ∧ c.toNat ≤ 0x39 := by
  simp only [Char.isDigit, Bool.and_eq_true, decide_eq_true_eq, ge_iff_le,
    UInt32.le_iff_toNat_le] at h
  have hlow : 0x30 ≤ c.toNat := h.1
  have hhigh : c.toNat ≤ 0x39 := h.2
  refine ⟨?_, hlow, hhigh⟩
  simp only [Nat.toUInt8, UInt8.toNat_ofNat']
  omega

theorem digits_decimal (n : ℕ) : Digits (decimal n) := by
  refine ⟨by simp [decimal], fun c hc => ?_⟩
  obtain ⟨d, hd, rfl⟩ := List.mem_map.1 hc
  obtain ⟨hbyte, hlow, hhigh⟩ := byte_of_digit (Nat.isDigit_of_mem_toDigits (by decide) (by decide) hd)
  simp only [isDigit, decide_eq_true_eq, UInt8.le_iff_toNat_le, hbyte]
  exact ⟨hlow, hhigh⟩

theorem numeral_decimal (n : ℕ) : numeral (decimal n) = n := by
  have hfold : ∀ (cs : List Char) (m : ℕ), (∀ c ∈ cs, c.isDigit = true) →
      (cs.map fun c => c.toNat.toUInt8).foldl (fun n c => n * 10 + digit c) m =
        cs.foldl (fun n c => 10 * n + (c.toNat - '0'.toNat)) m := by
    intro cs
    induction cs with
    | nil => exact fun _ _ => rfl
    | cons c cs ih =>
      intro m hcs
      obtain ⟨hbyte, -, -⟩ := byte_of_digit (hcs c List.mem_cons_self)
      rw [List.map_cons, List.foldl_cons, List.foldl_cons,
        ih _ fun d hd => hcs d (List.mem_cons_of_mem _ hd), digit, hbyte, Nat.mul_comm]
      rfl
  have hdigits : ∀ c ∈ Nat.toDigits 10 n, c.isDigit = true :=
    fun c hc => Nat.isDigit_of_mem_toDigits (by decide) (by decide) hc
  exact (hfold _ 0 hdigits).trans Nat.ofDigitChars_ten_toDigits

theorem stops_nil : Stops [] := nofun

theorem stops_cons {c : UInt8} (h : isDigit c = false) (rest : List UInt8) : Stops (c :: rest) := by
  intro d hd
  obtain rfl := Option.some.inj hd
  exact h

/-! ## Bytes in hexadecimal -/

/-- The digit for a number below 16. -/
def hexDigit (n : UInt8) : UInt8 := if n < 10 then 0x30 + n else 0x61 + (n - 10)

/-- The number for a digit. -/
def unhexDigit (c : UInt8) : Option UInt8 :=
  if 0x30 ≤ c ∧ c ≤ 0x39 then some (c - 0x30)
  else if 0x61 ≤ c ∧ c ≤ 0x66 then some (c - 0x61 + 10)
  else none

def hex (bytes : List UInt8) : List UInt8 :=
  bytes.flatMap fun b : UInt8 => [hexDigit (b >>> 4), hexDigit (b &&& 0xf)]

/-- Two digits for each byte. -/
def unhex : List UInt8 → Option (List UInt8)
  | [] => some []
  | [_] => none
  | a :: b :: rest => do
    let high ← unhexDigit a
    let low ← unhexDigit b
    return ((high <<< 4) ||| low) :: (← unhex rest)

/-- A statement about a byte, checked for each. -/
theorem forall_byte {P : UInt8 → Prop} (h : ∀ n < 256, P (UInt8.ofNat n)) (b : UInt8) : P b := by
  have hb := h b.toNat b.toNat_lt
  rwa [UInt8.ofNat_toNat] at hb

theorem unhexDigit_high (b : UInt8) : unhexDigit (hexDigit (b >>> 4)) = some (b >>> 4) :=
  forall_byte (P := fun b => unhexDigit (hexDigit (b >>> 4)) = some (b >>> 4)) (by decide +kernel) b

theorem unhexDigit_low (b : UInt8) : unhexDigit (hexDigit (b &&& 0xf)) = some (b &&& 0xf) :=
  forall_byte (P := fun b => unhexDigit (hexDigit (b &&& 0xf)) = some (b &&& 0xf))
    (by decide +kernel) b

theorem nibbles (b : UInt8) : ((b >>> 4) <<< 4) ||| (b &&& 0xf) = b :=
  forall_byte (P := fun b => ((b >>> 4) <<< 4) ||| (b &&& 0xf) = b) (by decide +kernel) b

theorem length_hex (bytes : List UInt8) : (hex bytes).length = 2 * bytes.length := by
  induction bytes with
  | nil => rfl
  | cons b bytes ih =>
    simp only [hex, List.flatMap_cons, List.length_append, List.length_cons, List.length_nil] at ih ⊢
    omega

theorem unhex_hex (bytes : List UInt8) : unhex (hex bytes) = some bytes := by
  induction bytes with
  | nil => rfl
  | cons b bytes ih =>
    have hcons : hex (b :: bytes) = hexDigit (b >>> 4) :: hexDigit (b &&& 0xf) :: hex bytes := rfl
    rw [hcons, unhex, unhexDigit_high, unhexDigit_low, ih]
    exact congrArg (fun c => some (c :: bytes)) (nibbles b)

end Spn.Lib
