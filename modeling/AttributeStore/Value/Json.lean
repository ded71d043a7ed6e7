import AttributeStore.Decimal.Layout
import AttributeStore.Json.Basic
import AttributeStore.Value.Basic

/-!
# Values as JSON

The JSON tree of a value.  What JSON has no form for becomes the nearest thing that it has: a
number without digits becomes `null`, a character or an object becomes its text, and all
sequences become arrays.
-/

namespace AttributeStore

namespace Binary

/-- Number tokens of the 32-bit format are positional from `10 ^ -6` to below `10 ^ 13`. -/
def singleTokenLayout : Decimal.Layout :=
  { positionalFrom := -6, positionalBelow := 13, plusInExponent := true, tie := .even }

/-- Number tokens of the 64-bit format are positional from `10 ^ -5` to below `10 ^ 16`. -/
def doubleTokenLayout : Decimal.Layout :=
  { positionalFrom := -5, positionalBelow := 16, plusInExponent := true, tie := .even }

variable {f : Format}

/-- A finite number as a number token, anything else as `null`. -/
def toJson (layout : Decimal.Layout) : Binary f → Json
  | nan => .null
  | number negative magnitude =>
    if magnitude = Fin.last f.infinity then .null
    else .number (String.ofList (layout.finiteText negative magnitude))

end Binary

namespace Value

mutual

/-- The JSON tree of a value. -/
def toJson : Value → Json
  | null => .null
  | bool b => .bool b
  | byte n => .ofInt n.toInt
  | short n => .ofInt n.toInt
  | int n => .ofInt n.toInt
  | long n => .ofInt n.toInt
  | float x => x.toJson Binary.singleTokenLayout
  | double x => x.toJson Binary.doubleTokenLayout
  | char c => .string c.toString
  | string s => .string s
  | list items => .array (toJsonItems items)
  | array items => .array (toJsonItems items)
  | map entries => .object (toJsonMembers entries)
  | set items => .array (toJsonItems items)
  | object o => .string o.text
termination_by structural v => v

/-- The JSON trees of the items of a sequence. -/
def toJsonItems : List Value → List Json
  | [] => []
  | item :: rest => item.toJson :: toJsonItems rest

/-- The JSON trees of the entries of a map. -/
def toJsonMembers : List (String × Value) → List (String × Json)
  | [] => []
  | (key, v) :: rest => (key, v.toJson) :: toJsonMembers rest

end

/-- The compact JSON text of a value. -/
def json (v : Value) : String := v.toJson.compact

end Value

end AttributeStore
