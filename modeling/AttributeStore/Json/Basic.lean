import AttributeStore.Text.Numeral

/-!
# Compact JSON

JSON trees and their compact text: no blank between tokens, and in strings only what has to be
escaped is.
-/

namespace AttributeStore

/-- A JSON tree.  A number is kept as the token that it is written with. -/
inductive Json where
  /-- The literal for no value. -/
  | null
  /-- A truth value. -/
  | bool (b : Bool)
  /-- A number by its token. -/
  | number (token : String)
  /-- A text. -/
  | string (s : String)
  /-- An ordered sequence. -/
  | array (items : List Json)
  /-- Trees under keys, in the order in which they are written. -/
  | object (members : List (String × Json))

namespace Json

/-- The number token of an integer. -/
def ofInt (i : Int) : Json := number (String.ofList (Text.numeral i))

/-- The lower-case hexadecimal digit of a number below sixteen. -/
def hexDigit (n : Nat) : Char := Nat.digitChar n

/-- The form of a character inside a string: quotes, backslashes and control characters are
escaped, everything else stands for itself. -/
def escapeChar (c : Char) : List Char :=
  if c = '"' then ['\\', '"']
  else if c = '\\' then ['\\', '\\']
  else if c = '\x08' then ['\\', 'b']
  else if c = '\x0c' then ['\\', 'f']
  else if c = '\n' then ['\\', 'n']
  else if c = '\r' then ['\\', 'r']
  else if c = '\t' then ['\\', 't']
  else if c.toNat < 0x20 then
    ['\\', 'u', '0', '0', hexDigit (c.toNat / 16), hexDigit (c.toNat % 16)]
  else [c]

/-- The string token of a text. -/
def quoted (text : List Char) : List Char := '"' :: text.flatMap escapeChar ++ ['"']

/-- Items with a comma between two of them. -/
def separated (items : List (List Char)) : List Char := [','].intercalate items

mutual

/-- The characters of the compact text of a tree. -/
def chars : Json → List Char
  | null => ['n', 'u', 'l', 'l']
  | bool true => ['t', 'r', 'u', 'e']
  | bool false => ['f', 'a', 'l', 's', 'e']
  | number token => token.toList
  | string s => quoted s.toList
  | array items => '[' :: separated (charsOfItems items) ++ [']']
  | object members => '\x7b' :: separated (charsOfMembers members) ++ ['\x7d']
termination_by structural v => v

/-- The texts of the items of an array. -/
def charsOfItems : List Json → List (List Char)
  | [] => []
  | item :: rest => item.chars :: charsOfItems rest

/-- The texts of the members of an object. -/
def charsOfMembers : List (String × Json) → List (List Char)
  | [] => []
  | (key, tree) :: rest => (quoted key.toList ++ ':' :: tree.chars) :: charsOfMembers rest

end

/-- The compact text of a tree. -/
def compact (tree : Json) : String := String.ofList tree.chars

end Json

end AttributeStore
