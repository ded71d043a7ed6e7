import AttributeStore.Decimal.Shortest

/-!
# Layouts of floating-point numbers

A layout says which numbers are written positionally and how the others are written with an
exponent.  The digits are always the shortest ones that read back; a positional number has at
least one digit on either side of the point.
-/

namespace AttributeStore.Decimal

/-- The decisions of a printer of floating-point numbers. -/
structure Layout where
  /-- The least leading exponent that is written positionally. -/
  positionalFrom : Int
  /-- The least leading exponent above these that is written with an exponent again. -/
  positionalBelow : Int
  /-- Whether a nonnegative exponent carries a plus sign. -/
  plusInExponent : Bool
  /-- The choice between two equally near shortest decimals. -/
  tie : Tie

/-- A text of digits without the zeros at its end. -/
def dropTrailingZeros (digits : List Char) : List Char :=
  (digits.reverse.dropWhile (· = '0')).reverse

/-- The positional form of the digits, the first of which stands for `10 ^ exponent`. -/
def positional (digits : List Char) (exponent : Int) : List Char :=
  if exponent < 0 then
    '0' :: '.' :: (List.replicate (-exponent - 1).toNat '0' ++ digits)
  else
    let whole := exponent.toNat + 1
    let padded := digits ++ List.replicate (whole + 1 - digits.length) '0'
    padded.take whole ++ '.' :: padded.drop whole

/-- The digits with a point behind the first one, if more follow. -/
def pointed : List Char → List Char
  | [] => []
  | [digit] => [digit]
  | digit :: rest => digit :: '.' :: rest

namespace Layout

variable (layout : Layout)

/-- The exponent behind its mark. -/
def exponentText (exponent : Int) : List Char :=
  'e' :: (if layout.plusInExponent ∧ 0 ≤ exponent then ['+'] else []) ++ Text.numeral exponent

/-- The form of the digits, the first of which stands for `10 ^ exponent`. -/
def digitsText (digits : List Char) (exponent : Int) : List Char :=
  if layout.positionalFrom ≤ exponent ∧ exponent < layout.positionalBelow then
    positional digits exponent
  else pointed digits ++ layout.exponentText exponent

/-- The text of a finite magnitude without its sign. -/
def magnitudeText (f : Binary.Format) (magnitude : Nat) : List Char :=
  if magnitude = 0 then ['0', '.', '0']
  else
    let d := shortest f layout.tie magnitude
    layout.digitsText (dropTrailingZeros (Text.digitsOf d.significand)) d.leadingExponent

/-- The text of a finite number.  A zero keeps its sign too. -/
def finiteText {f : Binary.Format} (negative : Bool) (magnitude : Fin (f.infinity + 1)) :
    List Char :=
  (if negative then ['-'] else []) ++ layout.magnitudeText f magnitude

end Layout

end AttributeStore.Decimal
