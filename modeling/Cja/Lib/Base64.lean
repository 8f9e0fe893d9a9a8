import Mathlib

/-!
# Base64 digits

`encode` cuts bytes into digits of six bits, the last of them filled up with zeros;
`decode` puts them together again and drops what was filled up. The two alphabets give
the digits their characters. Padding and the treatment of other characters are left to
the formats that use them.
-/
namespace Base64

abbrev Digit := Fin 64

/-! ## Bytes and digits -/

def first (a : UInt8) : Digit := ⟨a.toNat / 4, by have := a.toNat_lt; omega⟩

def second (a b : UInt8) : Digit :=
  ⟨a.toNat % 4 * 16 + b.toNat / 16, by have := b.toNat_lt; omega⟩

def third (b c : UInt8) : Digit :=
  ⟨b.toNat % 16 * 4 + c.toNat / 64, by have := c.toNat_lt; omega⟩

def fourth (c : UInt8) : Digit := ⟨c.toNat % 64, by omega⟩

def encode : List UInt8 → List Digit
  | [] => []
  | [a] => [first a, second a 0]
  | [a, b] => [first a, second a b, third b 0]
  | a :: b :: c :: rest => first a :: second a b :: third b c :: fourth c :: encode rest

def byte₁ (p q : Digit) : UInt8 := UInt8.ofNat (p * 4 + q / 16)

def byte₂ (q r : Digit) : UInt8 := UInt8.ofNat (q % 16 * 16 + r / 4)

def byte₃ (r t : Digit) : UInt8 := UInt8.ofNat (r % 4 * 64 + t)

/-- A single digit left over is an error; the bits of an incomplete byte are dropped. -/
def decode : List Digit → Option (List UInt8)
  | [] => some []
  | [_] => none
  | [p, q] => some [byte₁ p q]
  | [p, q, r] => some [byte₁ p q, byte₂ q r]
  | p :: q :: r :: t :: rest =>
      (decode rest).map fun bytes => byte₁ p q :: byte₂ q r :: byte₃ r t :: bytes

theorem byte₁_first (a b : UInt8) : byte₁ (first a) (second a b) = a := by
  apply UInt8.toNat_inj.mp
  have ha := a.toNat_lt
  have hb := b.toNat_lt
  simp only [byte₁, first, second, UInt8.toNat_ofNat']
  omega

theorem byte₂_second (a b c : UInt8) : byte₂ (second a b) (third b c) = b := by
  apply UInt8.toNat_inj.mp
  have hb := b.toNat_lt
  have hc := c.toNat_lt
  simp only [byte₂, second, third, UInt8.toNat_ofNat']
  omega

theorem byte₃_third (b c : UInt8) : byte₃ (third b c) (fourth c) = c := by
  apply UInt8.toNat_inj.mp
  have hc := c.toNat_lt
  simp only [byte₃, third, fourth, UInt8.toNat_ofNat']
  omega

theorem decode_encode (bytes : List UInt8) : decode (encode bytes) = some bytes := by
  induction bytes using encode.induct with
  | case1 => rfl
  | case2 a => simp [encode, decode, byte₁_first]
  | case3 a b => simp [encode, decode, byte₁_first, byte₂_second]
  | case4 a b c rest ih =>
      simp [encode, decode, ih, byte₁_first, byte₂_second, byte₃_third]

/-- Every number of digits but one over a multiple of four stands for bytes. -/
theorem decode_isSome_iff (digits : List Digit) :
    (decode digits).isSome = true ↔ digits.length % 4 ≠ 1 := by
  induction digits using decode.induct with
  | case1 => simp [decode]
  | case2 p => simp [decode]
  | case3 p q => simp [decode]
  | case4 p q r => simp [decode]
  | case5 p q r t rest ih =>
      simp only [decode, Option.isSome_map, ih, List.length_cons]
      omega

/-! ## Alphabets -/

/-- Distinct characters for the digits. -/
structure Alphabet where
  char : Digit → Char
  injective : Function.Injective char

namespace Alphabet

variable (A : Alphabet)

def digit (c : Char) : Option Digit := (List.finRange 64).find? fun d => A.char d = c

theorem digit_eq_some {c : Char} {d : Digit} : A.digit c = some d ↔ A.char d = c := by
  constructor
  · intro h
    simpa using List.find?_some h
  · rintro rfl
    unfold digit
    cases hf : (List.finRange 64).find? fun e => A.char e = A.char d with
    | none => simpa using List.find?_eq_none.mp hf d (List.mem_finRange d)
    | some e =>
        have he : A.char e = A.char d := by simpa using List.find?_some hf
        rw [A.injective he]

@[simp] theorem digit_char (d : Digit) : A.digit (A.char d) = some d := (digit_eq_some A).mpr rfl

/-- The digits of a text; `none` where a character is not in the alphabet. -/
def digits : List Char → Option (List Digit)
  | [] => some []
  | c :: cs => (A.digit c).bind fun d => (digits cs).map (d :: ·)

@[simp] theorem digits_map (ds : List Digit) : A.digits (ds.map A.char) = some ds := by
  induction ds with
  | nil => rfl
  | cons d ds ih => simp [digits, ih]

theorem map_digits {text : List Char} {ds : List Digit} (h : A.digits text = some ds) :
    ds.map A.char = text := by
  induction text generalizing ds with
  | nil =>
      cases h
      rfl
  | cons c cs ih =>
      simp only [digits, Option.bind_eq_some_iff, Option.map_eq_some_iff] at h
      obtain ⟨d, hd, ds', hds, rfl⟩ := h
      rw [List.map_cons, (digit_eq_some A).mp hd, ih hds]

/-- A character that is not in the alphabet spoils the text. -/
theorem digits_eq_none {text : List Char} {c : Char} (hc : c ∈ text) (h : A.digit c = none) :
    A.digits text = none := by
  cases hd : A.digits text with
  | none => rfl
  | some ds =>
      rw [← map_digits A hd, List.mem_map] at hc
      obtain ⟨d, -, rfl⟩ := hc
      rw [digit_char] at h
      cases h

end Alphabet

def letters : List Char := "ABCDEFGHIJKLMNOPQRSTUVWXYZabcdefghijklmnopqrstuvwxyz0123456789".toList

def charAt (last two : Char) (d : Digit) : Char := (letters ++ [last, two]).getD d two

/-- `+` and `/`. -/
def standard : Alphabet := ⟨charAt '+' '/', by decide +kernel⟩

/-- `-` and `_`. -/
def urlSafe : Alphabet := ⟨charAt '-' '_', by decide +kernel⟩

end Base64
