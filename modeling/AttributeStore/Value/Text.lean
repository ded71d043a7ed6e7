import AttributeStore.Decimal.Layout
import AttributeStore.Value.Basic

/-!
# The text of a value

Every value has a text for readers, which is also what coercions of other kinds start from.
Sequences and sets stand in square brackets, maps in braces with an equals sign behind each key,
and a comma and a blank separate what follows each other.
-/

namespace AttributeStore

namespace Text

/-- Items one behind the other, a comma and a blank between two of them. -/
def commaSeparated (items : List (List Char)) : List Char := [',', ' '].intercalate items

/-- Items in square brackets. -/
def bracketed (items : List (List Char)) : List Char := '[' :: commaSeparated items ++ [']']

/-- Items in braces. -/
def braced (items : List (List Char)) : List Char := '\x7b' :: commaSeparated items ++ ['\x7d']

end Text

namespace Binary

/-- Texts are positional from `10 ^ -4` to below `10 ^ 16`. -/
def textLayout : Decimal.Layout :=
  { positionalFrom := -4, positionalBelow := 16, plusInExponent := false, tie := .up }

variable {f : Format}

/-- The text of a number: its shortest digits, or a word for what has none. -/
def chars : Binary f → List Char
  | nan => ['N', 'a', 'N']
  | number negative magnitude =>
    if magnitude = Fin.last f.infinity then (if negative then ['-'] else []) ++ ['i', 'n', 'f']
    else textLayout.finiteText negative magnitude

end Binary

namespace Value

mutual

/-- The characters of the text of a value. -/
def chars : Value → List Char
  | null => ['n', 'u', 'l', 'l']
  | bool true => ['t', 'r', 'u', 'e']
  | bool false => ['f', 'a', 'l', 's', 'e']
  | byte n => Text.numeral n.toInt
  | short n => Text.numeral n.toInt
  | int n => Text.numeral n.toInt
  | long n => Text.numeral n.toInt
  | float x => x.chars
  | double x => x.chars
  | char c => [c]
  | string s => s.toList
  | list items => Text.bracketed (charsOfItems items)
  | array items => Text.bracketed (charsOfItems items)
  | map entries => Text.braced (charsOfEntries entries)
  | set items => Text.bracketed (charsOfItems items)
  | object o => o.text.toList
termination_by structural v => v

/-- The texts of the items of a sequence. -/
def charsOfItems : List Value → List (List Char)
  | [] => []
  | item :: rest => item.chars :: charsOfItems rest

/-- The texts of the entries of a map. -/
def charsOfEntries : List (String × Value) → List (List Char)
  | [] => []
  | (key, v) :: rest => (key.toList ++ '=' :: v.chars) :: charsOfEntries rest

end

/-- The text of a value. -/
def text (v : Value) : String := String.ofList v.chars

end Value

end AttributeStore
