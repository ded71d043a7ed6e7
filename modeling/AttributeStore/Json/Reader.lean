import AttributeStore.Decimal.Literal
import AttributeStore.Json.Basic

/-!
# Reading JSON

`read?` takes a text to the JSON tree that it denotes.  It reads all of JSON and not only compact
texts: blank characters may stand around every token, every escape is known, and a code point
beyond the first plane may be escaped as two surrogates.  The members of an object are given in the
order in which they stand.

The readers of parts of a text give what they read with what follows it.  Those that call themselves
stop after a given number of nested calls, for which the length of the text is enough.

## Main definitions

* `isNumberToken`: the grammar of number tokens.
* `readChar?`, `readChars?`: the characters of string tokens.
* `readTree?`, `readItems?`, `readMembers?`: trees, and what stands in brackets and braces.
* `read?`: a whole text.
-/

namespace AttributeStore.Json

/-- A text without the blank characters in front of it. -/
def skipSpace (text : List Char) : List Char := text.dropWhile Char.isWhitespace

/-! ### Strings -/

/-- The value of a hexadecimal digit. -/
def hexValue? (c : Char) : Option Nat :=
  if c.isDigit then some (c.toNat - '0'.toNat)
  else if 'a' ≤ c ∧ c ≤ 'f' then some (c.toNat - 'a'.toNat + 10)
  else if 'A' ≤ c ∧ c ≤ 'F' then some (c.toNat - 'A'.toNat + 10)
  else none

/-- Reads four hexadecimal digits. -/
def readUnit? : List Char → Option (Nat × List Char)
  | a :: b :: c :: d :: rest =>
    match hexValue? a, hexValue? b, hexValue? c, hexValue? d with
    | some a, some b, some c, some d => some (((a * 16 + b) * 16 + c) * 16 + d, rest)
    | _, _, _, _ => none
  | _ => none

/-- Reads the code point behind `\u`, which is two units if the first one is a high surrogate. -/
def readCodePoint? (text : List Char) : Option (Nat × List Char) :=
  match readUnit? text with
  | none => none
  | some (high, rest) =>
    if 0xD800 ≤ high ∧ high < 0xDC00 then
      match rest with
      | '\\' :: 'u' :: rest =>
        match readUnit? rest with
        | none => none
        | some (low, rest) =>
          if 0xDC00 ≤ low ∧ low < 0xE000 then
            some (0x10000 + (high - 0xD800) * 0x400 + (low - 0xDC00), rest)
          else none
      | _ => none
    else some (high, rest)

/-- The character that a letter behind a backslash stands for. -/
def unescape? : Char → Option Char
  | '"' => some '"'
  | '\\' => some '\\'
  | '/' => some '/'
  | 'b' => some '\x08'
  | 'f' => some '\x0c'
  | 'n' => some '\n'
  | 'r' => some '\r'
  | 't' => some '\t'
  | _ => none

/-- Reads one character inside a string, escaped or not.  A control character has to be escaped, and
a surrogate alone is no character. -/
def readChar? : List Char → Option (Char × List Char)
  | [] => none
  | '"' :: _ => none
  | '\\' :: 'u' :: rest =>
    (readCodePoint? rest).bind fun (codePoint, rest) =>
      if codePoint.isValidChar then some (Char.ofNat codePoint, rest) else none
  | '\\' :: letter :: rest => (unescape? letter).map (·, rest)
  | c :: rest => if c = '\\' ∨ c.toNat < 0x20 then none else some (c, rest)

/-- Reads the characters of a string up to the closing quote. -/
def readChars? : Nat → List Char → Option (List Char × List Char)
  | 0, _ => none
  | _ + 1, '"' :: rest => some ([], rest)
  | limit + 1, text =>
    (readChar? text).bind fun (c, rest) =>
      (readChars? limit rest).map fun (cs, rest) => (c :: cs, rest)

/-! ### Numbers -/

/-- A character that number tokens are made of. -/
def isNumberChar (c : Char) : Bool :=
  c.isDigit || c = '-' || c = '+' || c = '.' || c = 'e' || c = 'E'

/-- Digits of which the first is a zero only if it is the only one. -/
def isWholePart (digits : List Char) : Bool :=
  digits = ['0'] || (digits ≠ [] && digits.head? ≠ some '0')

/-- The point with digits behind it and the exponent, where each may be missing. -/
def isNumberEnd : List Char → Bool
  | '.' :: rest =>
    let (fraction, exponent) := Decimal.splitDigits rest
    fraction ≠ [] && (Decimal.readExponent? exponent).isSome
  | exponent => (Decimal.readExponent? exponent).isSome

/-- A number token without a sign. -/
def isUnsignedToken (token : List Char) : Bool :=
  let (whole, numberEnd) := Decimal.splitDigits token
  isWholePart whole && isNumberEnd numberEnd

/-- A number token.  The sign may only be a minus. -/
def isNumberToken : List Char → Bool
  | '-' :: token => isUnsignedToken token
  | token => isUnsignedToken token

/-- Reads a number token, which ends where no more characters of number tokens follow. -/
def readNumber? (text : List Char) : Option (Json × List Char) :=
  let token := text.takeWhile isNumberChar
  if isNumberToken token then
    some (.number (String.ofList token), text.dropWhile isNumberChar)
  else none

/-! ### Trees -/

/-- Reads a literal or a number. -/
def readScalar? : List Char → Option (Json × List Char)
  | 'n' :: 'u' :: 'l' :: 'l' :: rest => some (.null, rest)
  | 't' :: 'r' :: 'u' :: 'e' :: rest => some (.bool true, rest)
  | 'f' :: 'a' :: 'l' :: 's' :: 'e' :: rest => some (.bool false, rest)
  | text => readNumber? text

mutual

/-- Reads a tree. -/
def readTree? : Nat → List Char → Option (Json × List Char)
  | 0, _ => none
  | limit + 1, text =>
    match skipSpace text with
    | '"' :: rest =>
      (readChars? limit rest).map fun (cs, rest) => (.string (String.ofList cs), rest)
    | '[' :: rest =>
      match skipSpace rest with
      | ']' :: rest => some (.array [], rest)
      | _ => (readItems? limit rest).map fun (items, rest) => (.array items, rest)
    | '\x7b' :: rest =>
      match skipSpace rest with
      | '\x7d' :: rest => some (.object [], rest)
      | _ => (readMembers? limit rest).map fun (members, rest) => (.object members, rest)
    | text => readScalar? text

/-- Reads the items of an array, of which there is at least one, and the closing bracket. -/
def readItems? : Nat → List Char → Option (List Json × List Char)
  | 0, _ => none
  | limit + 1, text =>
    (readTree? limit text).bind fun (item, rest) =>
      match skipSpace rest with
      | ',' :: rest => (readItems? limit rest).map fun (items, rest) => (item :: items, rest)
      | ']' :: rest => some ([item], rest)
      | _ => none

/-- Reads the members of an object, of which there is at least one, and the closing brace. -/
def readMembers? : Nat → List Char → Option (List (String × Json) × List Char)
  | 0, _ => none
  | limit + 1, text =>
    match skipSpace text with
    | '"' :: rest =>
      (readChars? limit rest).bind fun (key, rest) =>
        match skipSpace rest with
        | ':' :: rest =>
          (readTree? limit rest).bind fun (tree, rest) =>
            match skipSpace rest with
            | ',' :: rest =>
              (readMembers? limit rest).map fun (members, rest) =>
                ((String.ofList key, tree) :: members, rest)
            | '\x7d' :: rest => some ([(String.ofList key, tree)], rest)
            | _ => none
        | _ => none
    | _ => none

end

/-- Reads a whole text, behind which only blank characters may stand. -/
def read? (text : String) : Option Json :=
  (readTree? text.length text.toList).bind fun (tree, rest) =>
    if skipSpace rest = [] then some tree else none

end AttributeStore.Json
