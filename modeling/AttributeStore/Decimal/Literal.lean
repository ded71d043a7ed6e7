import AttributeStore.Decimal.Scientific
import AttributeStore.Text.Blank

/-!
# Floating-point literals

The grammar of the texts that read as floating-point numbers: blank characters around it, an
optional sign, then either one of the words `Infinity` and `NaN`, or a decimal, which may carry
an exponent and one of the letters `f`, `F`, `d` and `D` behind it.
-/

namespace AttributeStore.Decimal

/-- The digits at the head of a text, and the rest of it. -/
def splitDigits (text : List Char) : List Char × List Char :=
  (text.takeWhile Char.isDigit, text.dropWhile Char.isDigit)

/-- Reads nothing as the exponent zero, and otherwise a mark and an integer. -/
def readExponent? : List Char → Option Int
  | [] => some 0
  | mark :: rest => if mark = 'e' ∨ mark = 'E' then Text.readInteger? rest else none

/-- Splits off a point and the digits behind it. -/
def splitFraction : List Char → List Char × List Char
  | '.' :: rest => splitDigits rest
  | text => ([], text)

/-- Reads a decimal without a sign: digits, of which some may stand behind a point but at least
one has to stand somewhere, and an optional exponent. -/
def readUnsigned? (text : List Char) : Option Scientific :=
  let (whole, afterWhole) := splitDigits text
  let (fraction, afterFraction) := splitFraction afterWhole
  if whole = [] ∧ fraction = [] then none
  else (readExponent? afterFraction).map fun exponent =>
    ⟨Text.digitsValue (whole ++ fraction), exponent - fraction.length⟩

/-- The letters that may follow a decimal. -/
def isTypeLetter (c : Char) : Bool := c = 'f' || c = 'F' || c = 'd' || c = 'D'

/-- A text without one letter of `isTypeLetter` at its end. -/
def dropTypeLetter (text : List Char) : List Char :=
  match text.reverse with
  | [] => []
  | last :: rest => if isTypeLetter last then rest.reverse else text

/-- Reads one of the words for numbers without digits, in upper or lower case. -/
def readWord? (f : Binary.Format) (negative : Bool) (word : List Char) : Option (Binary f) :=
  let lower := word.map Char.toLower
  if lower = ['i', 'n', 'f'] ∨ lower = ['i', 'n', 'f', 'i', 'n', 'i', 't', 'y'] then
    some (.infinite negative)
  else if lower = ['n', 'a', 'n'] then some .nan
  else none

/-- Reads a decimal or a word behind an optional sign, with nothing around it. -/
def readNumber? (f : Binary.Format) (text : List Char) : Option (Binary f) :=
  let (negative, body) := Text.splitSign text
  match readUnsigned? body with
  | some d => some (.ofScientific negative d)
  | none => readWord? f negative body

/-- The characters of decimals with their signs. -/
def isDecimalChar (c : Char) : Bool :=
  c.isDigit || c = '.' || c = 'e' || c = 'E' || c = '+' || c = '-'

/-- Reads a floating-point literal as the nearest number of the format.  Of the words only two are
taken, in one spelling, and what has other characters than those of a decimal is not read at all. -/
def readBinary? (f : Binary.Format) (text : List Char) : Option (Binary f) :=
  let trimmed := Text.trim text
  let unsigned := (Text.splitSign trimmed).2
  if unsigned = ['I', 'n', 'f', 'i', 'n', 'i', 't', 'y'] ∨ unsigned = ['N', 'a', 'N'] then
    readNumber? f trimmed
  else
    let number := dropTypeLetter trimmed
    if number.all isDecimalChar then readNumber? f number else none

end AttributeStore.Decimal
