/-!
# Decimal numerals

Whole numbers are written in base ten without leading zeros, a minus sign in front of a negative
one.  They are read more freely: either sign may be written, and leading zeros are allowed.
-/

namespace AttributeStore.Text

/-- The decimal digits of a natural number, without leading zeros. -/
def digitsOf (n : Nat) : List Char := Nat.toDigits 10 n

/-- The number that a text of decimal digits denotes. -/
def digitsValue (digits : List Char) : Nat := Nat.ofDigitChars 10 digits 0

/-- The decimal numeral of an integer. -/
def numeral : Int → List Char
  | .ofNat n => digitsOf n
  | .negSucc n => '-' :: digitsOf (n + 1)

/-- Splits off one leading sign: whether it is a minus, and the rest of the text. -/
def splitSign : List Char → Bool × List Char
  | '-' :: rest => (true, rest)
  | '+' :: rest => (false, rest)
  | text => (false, text)

/-- The integer with a given sign and absolute value. -/
def signed (negative : Bool) (n : Nat) : Int := if negative then -n else n

/-- Reads an optional sign followed by one or more digits, with nothing around them. -/
def readInteger? (text : List Char) : Option Int :=
  let (negative, digits) := splitSign text
  if digits ≠ [] ∧ digits.all Char.isDigit then some (signed negative (digitsValue digits))
  else none

theorem digitsValue_digitsOf (n : Nat) : digitsValue (digitsOf n) = n :=
  Nat.ofDigitChars_toDigits (by decide) (by decide)

theorem digitsOf_ne_nil (n : Nat) : digitsOf n ≠ [] := Nat.toDigits_ne_nil

theorem isDigit_of_mem_digitsOf {n : Nat} {c : Char} (h : c ∈ digitsOf n) : c.isDigit :=
  Nat.isDigit_of_mem_toDigits (by decide) (by decide) h

/-- No number but zero is written with a zero in front. -/
theorem head?_digitsOf_ne_zero {n : Nat} (hn : n ≠ 0) : (digitsOf n).head? ≠ some '0' := by
  induction n using Nat.strongRecOn with
  | ind n ih =>
    by_cases hlt : n < 10
    · have hdigit : ∀ k, k < 10 → k ≠ 0 → k.digitChar ≠ '0' := by decide
      simp [digitsOf, Nat.toDigits_of_lt_base hlt, hdigit n hlt hn]
    · have hquotient : n / 10 ≠ 0 := by omega
      have hhead := ih (n / 10) (by omega) hquotient
      rw [digitsOf, Nat.toDigits_of_base_le (by decide) (Nat.not_lt.1 hlt), List.head?_append]
      rw [digitsOf] at hhead
      cases h : Nat.toDigits 10 (n / 10) with
      | nil => exact absurd h Nat.toDigits_ne_nil
      | cons c rest => simpa [h] using hhead

/-- A text that starts with a digit has no sign. -/
theorem splitSign_of_isDigit {c : Char} (h : c.isDigit) (rest : List Char) :
    splitSign (c :: rest) = (false, c :: rest) := by
  unfold splitSign
  split <;> simp_all

theorem splitSign_digitsOf (n : Nat) : splitSign (digitsOf n) = (false, digitsOf n) := by
  cases h : digitsOf n with
  | nil => exact absurd h (digitsOf_ne_nil n)
  | cons c rest =>
    have hdigit : c.isDigit := isDigit_of_mem_digitsOf (h ▸ List.mem_cons_self)
    exact splitSign_of_isDigit hdigit rest

/-- A numeral is read as its integer. -/
theorem readInteger?_numeral (i : Int) : readInteger? (numeral i) = some i := by
  have hall (n : Nat) : (digitsOf n).all Char.isDigit = true :=
    List.all_eq_true.2 fun _ h => isDigit_of_mem_digitsOf h
  cases i with
  | ofNat n =>
    simp [readInteger?, numeral, splitSign_digitsOf, hall, digitsOf_ne_nil, signed,
      digitsValue_digitsOf]
  | negSucc n =>
    simp [readInteger?, numeral, splitSign, hall, digitsOf_ne_nil, signed, digitsValue_digitsOf]
    omega

/-- A plus sign in front of digits changes nothing. -/
theorem readInteger?_plus_digits {digits : List Char} (h : ∀ c ∈ digits, c.isDigit) :
    readInteger? ('+' :: digits) = readInteger? digits := by
  cases digits with
  | nil => rfl
  | cons c rest =>
    have hplus : splitSign ('+' :: c :: rest) = splitSign (c :: rest) :=
      (splitSign_of_isDigit (h c List.mem_cons_self) rest).symm
    rw [readInteger?, hplus, ← readInteger?]

end AttributeStore.Text
