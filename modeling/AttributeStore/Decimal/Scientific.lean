import AttributeStore.Binary.Number
import AttributeStore.Text.Numeral

/-!
# Decimals in scientific form

A decimal is a whole significand times a power of ten.  `Binary.ofScientific` rounds one to a
binary number; for exponents so large that the answer is infinite or zero whatever the digits
are, it answers without forming the power.
-/

namespace AttributeStore

/-- The decimal `significand * 10 ^ exponent`. -/
structure Scientific where
  /-- All digits, as one whole number. -/
  significand : Nat
  /-- The power of ten that the last digit stands for. -/
  exponent : Int
deriving DecidableEq

namespace Scientific

variable (d : Scientific)

/-- The power of ten that the first digit stands for. -/
def leadingExponent : Int := d.exponent + (Text.digitsOf d.significand).length - 1

/-- The numerator of a decimal as a quotient of whole numbers. -/
def numerator : Nat := d.significand * Nat.pow 10 d.exponent.toNat

/-- The denominator of a decimal as a quotient of whole numbers. -/
def denominator : Nat := Nat.pow 10 (-d.exponent).toNat

end Scientific

namespace Binary

variable {f : Format}

/-- The number nearest to a decimal, under a given sign.  A leading exponent of at least
`2 ^ (exponentBits - 1)` puts the decimal beyond the finite numbers, and one below `-scale - 1`
puts it below half a unit. -/
def ofScientific (negative : Bool) (d : Scientific) : Binary f :=
  let leading := d.leadingExponent
  if d.significand = 0 then number negative 0
  else if (Nat.pow 2 (f.exponentBits - 1) : Nat) ≤ leading then infinite negative
  else if leading < -(f.scale : Int) - 1 then number negative 0
  else ofQuotient negative d.numerator d.denominator

end Binary

end AttributeStore
