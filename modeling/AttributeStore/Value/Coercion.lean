import AttributeStore.Decimal.Literal
import AttributeStore.Value.Text

/-!
# Reading values as primitives

`Value.coerce? p` reads a value as the primitive kind `p`.  The numeric kinds are one family: an
integer is wrapped to the width asked for or rounded to the format asked for, and a
floating-point number is rounded, or cut off and clamped.  Every other value is read through its
text.

## Main definitions

* `Primitive`, `Primitive.Carrier`: the primitive kinds and the types of their values.
* `Value.readInteger?`, `Value.readFloating?`, `Value.readBool?`, `Value.readChar?`: reading a
  value as one of a family of kinds.
* `Value.coerce?`: reading a value as a primitive.
-/

namespace AttributeStore

/-- The kinds that a value can be read as. -/
inductive Primitive where
  /-- Truth values. -/
  | bool
  /-- Integers of 8 bits. -/
  | byte
  /-- Integers of 16 bits. -/
  | short
  /-- Integers of 32 bits. -/
  | int
  /-- Integers of 64 bits. -/
  | long
  /-- Floating-point numbers of 32 bits. -/
  | float
  /-- Floating-point numbers of 64 bits. -/
  | double
  /-- Characters. -/
  | char
deriving DecidableEq

namespace Primitive

/-- The type of the values of a primitive kind. -/
abbrev Carrier : Primitive → Type
  | bool => Bool
  | byte => Int8
  | short => Int16
  | int => Int32
  | long => Int64
  | float => Binary.Single
  | double => Binary.Double
  | char => Char

/-- A primitive as an attribute value. -/
def toValue : (p : Primitive) → p.Carrier → Value
  | bool, b => .bool b
  | byte, n => .byte n
  | short, n => .short n
  | int, n => .int n
  | long, n => .long n
  | float, x => .float x
  | double, x => .double x
  | char, c => .char c

/-- The name of a primitive kind, as errors give it. -/
def name : Primitive → String
  | bool => "boolean"
  | byte => "byte"
  | short => "short"
  | int => "int"
  | long => "long"
  | float => "float"
  | double => "double"
  | char => "char"

end Primitive

namespace Value

/-- The integer that a value of an integer kind holds. -/
def integer? : Value → Option Int
  | byte n => some n.toInt
  | short n => some n.toInt
  | int n => some n.toInt
  | long n => some n.toInt
  | _ => none

/-- The floating-point number that a value holds, in the wider format, which has all numbers of
the narrower one. -/
def floating? : Value → Option Binary.Double
  | float x => some x.convert
  | double x => some x
  | _ => none

/-- Reads a value as an integer type: `wrap` takes any integer to the type, `cut` takes a
floating-point number to it, and a text has to denote an integer from `least` to `greatest`. -/
def readInteger? {α : Type} (wrap : Int → α) (cut : Binary.Double → α) (least greatest : Int)
    (v : Value) : Option α :=
  match v.integer?, v.floating? with
  | some n, _ => some (wrap n)
  | none, some x => some (cut x)
  | none, none =>
    (Text.readInteger? v.chars).bind fun n =>
      if least ≤ n ∧ n ≤ greatest then some (wrap n) else none

/-- Reads a value as a floating-point number. -/
def readFloating? (f : Binary.Format) (v : Value) : Option (Binary f) :=
  match v.integer?, v.floating? with
  | some n, _ => some (.ofInt n)
  | none, some x => some x.convert
  | none, none => Decimal.readBinary? f v.chars

/-- Reads a value as a truth value: its text has to be one of the two words, in either case. -/
def readBool? : Value → Option Bool
  | bool b => some b
  | v =>
    let lower := v.chars.map Char.toLower
    if lower = ['t', 'r', 'u', 'e'] then some true
    else if lower = ['f', 'a', 'l', 's', 'e'] then some false
    else none

/-- Reads a value as a character: a string has to hold exactly one. -/
def readChar? : Value → Option Char
  | char c => some c
  | string s =>
    match s.toList with
    | [c] => some c
    | _ => none
  | _ => none

/-- A floating-point number cut off and clamped to 32 bits. -/
def cutToInt (x : Binary.Double) : Int32 := .ofIntClamp x.truncate

/-- A floating-point number cut off and clamped to 64 bits. -/
def cutToLong (x : Binary.Double) : Int64 := .ofIntClamp x.truncate

/-- Reads a value as a primitive.  A floating-point number is read as one of the two narrow
integer kinds by wrapping what it gives as an integer of 32 bits. -/
def coerce? : (p : Primitive) → Value → Option p.Carrier
  | .bool, v => v.readBool?
  | .byte, v => v.readInteger? .ofInt (fun x => (cutToInt x).toInt8) Int8.minValue.toInt
      Int8.maxValue.toInt
  | .short, v => v.readInteger? .ofInt (fun x => (cutToInt x).toInt16) Int16.minValue.toInt
      Int16.maxValue.toInt
  | .int, v => v.readInteger? .ofInt cutToInt Int32.minValue.toInt Int32.maxValue.toInt
  | .long, v => v.readInteger? .ofInt cutToLong Int64.minValue.toInt Int64.maxValue.toInt
  | .float, v => v.readFloating? .single
  | .double, v => v.readFloating? .double
  | .char, v => v.readChar?

end Value

end AttributeStore
