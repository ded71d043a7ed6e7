import AttributeStore.Text.Inspected
import AttributeStore.Value.Text

/-!
# Values for programmers

The inspection of a value names its kind and shows strings and characters between quotes, so
that values of different kinds are told apart.
-/

namespace AttributeStore

namespace Text

/-- A constructor name with its argument in parentheses. -/
def applied (name : String) (argument : List Char) : List Char :=
  name.toList ++ '(' :: argument ++ [')']

/-- The inspection of one entry of a map. -/
def inspectEntry (key : String) (shown : List Char) : List Char :=
  inspectString key ++ ':' :: ' ' :: shown

end Text

namespace Value

mutual

/-- The characters of the inspection of a value. -/
def inspectChars : Value → List Char
  | null => ['N', 'u', 'l', 'l']
  | bool b => Text.applied "Bool" (bool b).chars
  | byte n => Text.applied "Byte" (byte n).chars
  | short n => Text.applied "Short" (short n).chars
  | int n => Text.applied "Int" (int n).chars
  | long n => Text.applied "Long" (long n).chars
  | float x => Text.applied "Float" x.chars
  | double x => Text.applied "Double" x.chars
  | char c => Text.applied "Char" (Text.inspected '\'' [c])
  | string s => Text.applied "String" (Text.inspectString s)
  | list items => Text.applied "List" (Text.bracketed (inspectItems items))
  | array items => Text.applied "Array" (Text.bracketed (inspectItems items))
  | map entries => Text.applied "Map" (Text.braced (inspectEntries entries))
  | set items =>
    Text.applied "Set" ("AttributeSet \x7b items: ".toList ++ Text.bracketed (inspectItems items) ++
      [' ', '\x7d'])
  | object o => Text.applied "Opaque" (Text.applied "OpaqueValue" o.inspection.toList)
termination_by structural v => v

/-- The inspections of the items of a sequence. -/
def inspectItems : List Value → List (List Char)
  | [] => []
  | item :: rest => item.inspectChars :: inspectItems rest

/-- The inspections of the entries of a map. -/
def inspectEntries : List (String × Value) → List (List Char)
  | [] => []
  | (key, v) :: rest => Text.inspectEntry key v.inspectChars :: inspectEntries rest

end

/-- The inspection of a value. -/
def inspect (v : Value) : String := String.ofList v.inspectChars

end Value

end AttributeStore
