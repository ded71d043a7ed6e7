import AttributeStore.Text.Numeral

/-!
# Quoted texts for programmers

The form of characters and texts between quotes in which nothing is invisible: the quote of the
form itself and the backslash are escaped, and control characters of the ASCII range are named by
a letter or by their code point in braces.
-/

namespace AttributeStore.Text

/-- The escaped form of a character between two marks `quote`. -/
def inspectChar (quote c : Char) : List Char :=
  if c = quote ∨ c = '\\' then ['\\', c]
  else if c = '\x00' then ['\\', '0']
  else if c = '\t' then ['\\', 't']
  else if c = '\r' then ['\\', 'r']
  else if c = '\n' then ['\\', 'n']
  else if c.toNat < 0x20 ∨ c = '\x7f' then
    ['\\', 'u', '\x7b'] ++ Nat.toDigits 16 c.toNat ++ ['\x7d']
  else [c]

/-- A text between two marks `quote`. -/
def inspected (quote : Char) (text : List Char) : List Char :=
  quote :: text.flatMap (inspectChar quote) ++ [quote]

/-- A text between double quotes. -/
def inspectString (s : String) : List Char := inspected '"' s.toList

end AttributeStore.Text
