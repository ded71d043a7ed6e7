import AttributeStore.Binary.Format

/-!
# Binary floating-point numbers

A number of a format is a sign and a magnitude, and all patterns that encode no number are one
value `nan`.  Conversions into a format round once, to the nearest number, from the exact value;
conversions into whole numbers cut the fraction off.
-/

namespace AttributeStore

/-- The numbers of a binary format, its infinities included, and one value for what is not a
number. -/
inductive Binary (f : Binary.Format) where
  /-- No number. -/
  | nan
  /-- A number by its sign and its magnitude. -/
  | number (negative : Bool) (magnitude : Fin (f.infinity + 1))
deriving DecidableEq

namespace Binary

/-- Numbers of 32 bits. -/
abbrev Single := Binary Format.single

/-- Numbers of 64 bits. -/
abbrev Double := Binary Format.double

variable {f : Format}

/-- The infinity of a sign. -/
def infinite (negative : Bool) : Binary f := number negative (Fin.last f.infinity)

/-- The number that a bit pattern encodes, the sign in its highest bit. -/
def ofBits (bits : Nat) : Binary f :=
  let magnitude := bits % Nat.pow 2 f.signBit
  if h : magnitude ≤ f.infinity then
    number (bits.testBit f.signBit) ⟨magnitude, Nat.lt_succ_of_le h⟩
  else nan

/-- The bit pattern of a number.  The one for `nan` is quiet and positive. -/
def toBits : Binary f → Nat
  | nan => f.infinity + Nat.pow 2 (f.fractionBits - 1)
  | number negative magnitude => negative.toNat * Nat.pow 2 f.signBit + magnitude

/-- The number nearest to the quotient `num / den`, under a given sign. -/
def ofQuotient (negative : Bool) (num den : Nat) : Binary f :=
  number negative
    ⟨f.nearest (num * Nat.pow 2 f.scale) den, Nat.lt_succ_of_le (f.nearest_le_infinity _ _)⟩

/-- The number nearest to an integer. -/
def ofInt (i : Int) : Binary f := ofQuotient (i < 0) i.natAbs 1

/-- The nearest number of another format. -/
def convert {g : Format} : Binary f → Binary g
  | nan => nan
  | number negative magnitude =>
    if magnitude = Fin.last f.infinity then infinite negative
    else ofQuotient negative (f.units magnitude) (Nat.pow 2 f.scale)

/-- The whole part of a number, with the sign kept.  An infinity gives the power of two that
follows the finite numbers, and `nan` gives zero. -/
def truncate : Binary f → Int
  | nan => 0
  | number true magnitude => -(f.units magnitude / Nat.pow 2 f.scale : Nat)
  | number false magnitude => (f.units magnitude / Nat.pow 2 f.scale : Nat)

/-- Numeric equality: the two zeros are equal, and `nan` is not equal to itself. -/
def eq : Binary f → Binary f → Bool
  | number s m, number t n => m = n && (s = t || m.val = 0)
  | _, _ => false

end Binary

end AttributeStore
