/-!
# Attribute names

A name is a letter or an underscore followed by letters, digits and underscores, all of them
ASCII.  `IsValidName` states the rule and is decidable, so that the checks of the write path run
the statement itself.
-/

namespace AttributeStore

/-- A character that may open a name. -/
def IsNameStart (c : Char) : Prop := c.isAlpha ∨ c = '_'

/-- A character that may stand anywhere after the first one of a name. -/
def IsNameChar (c : Char) : Prop := c.isAlphanum ∨ c = '_'

instance (c : Char) : Decidable (IsNameStart c) := inferInstanceAs (Decidable (_ ∨ _))

instance (c : Char) : Decidable (IsNameChar c) := inferInstanceAs (Decidable (_ ∨ _))

/-- The name rule on characters: a nonempty text whose first character may open a name. -/
def IsNameText : List Char → Prop
  | [] => False
  | c :: rest => IsNameStart c ∧ ∀ d ∈ rest, IsNameChar d

instance : (text : List Char) → Decidable (IsNameText text)
  | [] => inferInstanceAs (Decidable False)
  | c :: rest =>
    have : Decidable (∀ d ∈ rest, IsNameChar d) := rest.decidableBAll IsNameChar
    inferInstanceAs (Decidable (IsNameStart c ∧ ∀ d ∈ rest, IsNameChar d))

/-- The attributes that plain values may be stored under. -/
def IsValidName (name : String) : Prop := IsNameText name.toList

instance (name : String) : Decidable (IsValidName name) :=
  inferInstanceAs (Decidable (IsNameText _))

end AttributeStore
