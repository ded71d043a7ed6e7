/-!
# White space around a text

`isBlank` is the Unicode property `White_Space`, and `trim` removes the blank characters at both
ends of a text.
-/

namespace AttributeStore.Text

/-- The ranges of the Unicode property `White_Space`, each with its first and last code point, in
ascending order. -/
def blankRanges : List (Nat × Nat) :=
  [(0x09, 0x0D), (0x20, 0x20), (0x85, 0x85), (0xA0, 0xA0), (0x1680, 0x1680), (0x2000, 0x200A),
    (0x2028, 0x2029), (0x202F, 0x202F), (0x205F, 0x205F), (0x3000, 0x3000)]

/-- A character with the property `White_Space`. -/
def isBlank (c : Char) : Bool :=
  blankRanges.any fun range => range.1 ≤ c.toNat && c.toNat ≤ range.2

/-- A text without its leading blank characters. -/
def trimLeft (text : List Char) : List Char := text.dropWhile isBlank

/-- A text without the blank characters at its ends. -/
def trim (text : List Char) : List Char := (trimLeft (trimLeft text).reverse).reverse

end AttributeStore.Text
