/-!
# Binary floating-point formats

A format is given by the widths of its fraction and exponent fields.  Every finite number of a
format is a whole multiple of one *unit*, the least positive number, which is `2 ^ -scale`.  The
bits of a number without its sign are its *magnitude*; magnitudes are ordered as the numbers that
they encode, and the first magnitude past the finite ones is the infinity of the format.

## Main definitions

* `Format`: the widths of a format, with `Format.single` and `Format.double`.
* `Format.units`: the number of units that a magnitude stands for.
* `Format.nearest`: the magnitude nearest to a quotient, a tie going to the even one.
-/

namespace AttributeStore.Binary

/-- The whole number nearest to a quotient; a tie goes to the even one. -/
def roundQuotient (num den : Nat) : Nat :=
  let below := num / den
  let twice := 2 * (num % den)
  if twice < den then below
  else if den < twice then below + 1
  else below + below % 2

/-- The widths of the two fields behind the sign bit. -/
structure Format where
  /-- Bits of the fraction field. -/
  fractionBits : Nat
  /-- Bits of the exponent field. -/
  exponentBits : Nat
deriving DecidableEq

namespace Format

/-- The format of 32 bits. -/
def single : Format := ⟨23, 8⟩

/-- The format of 64 bits. -/
def double : Format := ⟨52, 11⟩

variable (f : Format)

/-- The position of the sign bit, which is the number of bits of a magnitude. -/
def signBit : Nat := f.fractionBits + f.exponentBits

/-- The unit of the format is `2 ^ -scale`. -/
def scale : Nat := Nat.pow 2 (f.exponentBits - 1) + f.fractionBits - 2

/-- The magnitude of the infinities; the magnitudes below it are those of the finite numbers. -/
def infinity : Nat := (Nat.pow 2 f.exponentBits - 1) * Nat.pow 2 f.fractionBits

/-- The number of units that a magnitude stands for.  With an exponent field of zero the fraction
field counts units; otherwise a leading one is put in front of it, and each further step of the
exponent doubles the number. -/
def units (magnitude : Nat) : Nat :=
  let leadingOne := Nat.pow 2 f.fractionBits
  let exponent := magnitude / leadingOne
  let fraction := magnitude % leadingOne
  if exponent = 0 then fraction else (leadingOne + fraction) * Nat.pow 2 (exponent - 1)

/-- The magnitude nearest to `num / den` units; a tie goes to the even magnitude, and what lies
beyond the largest finite number by half a step or more becomes infinity.

The quotient is rounded to a multiple of `2 ^ k` units, where `k` leaves as many bits as a
significand has.  The rounded significand may carry into the next exponent, and adding it to the
exponent field gives the right magnitude in this case too. -/
def nearest (num den : Nat) : Nat :=
  let k := (num / den).log2 - f.fractionBits
  min (k * Nat.pow 2 f.fractionBits + roundQuotient num (den * Nat.pow 2 k)) f.infinity

theorem nearest_le_infinity (num den : Nat) : f.nearest num den ≤ f.infinity :=
  Nat.min_le_right _ _

end Format

end AttributeStore.Binary
