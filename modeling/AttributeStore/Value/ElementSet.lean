import AttributeStore.Value.Equality

/-!
# Sets of values

Values have no order and need not be equal to themselves, so a set keeps its elements in the
order of their insertion and finds them by equality.
-/

namespace AttributeStore

/-- The elements of a set in the order of their insertion. -/
structure ElementSet where
  /-- The elements. -/
  items : List Value

namespace ElementSet

/-- The set without elements. -/
def empty : ElementSet := ⟨[]⟩

variable (s : ElementSet)

/-- Whether an element is equal to a value. -/
def contains (v : Value) : Bool := s.items.any fun item => item.eq v

/-- Adds a value at the end, unless an element is equal to it, and tells whether it was added. -/
def add (v : Value) : Bool × ElementSet :=
  if s.contains v then (false, s) else (true, ⟨s.items ++ [v]⟩)

/-- The set with a value added. -/
def insert (v : Value) : ElementSet := (s.add v).2

/-- The number of elements. -/
def size : Nat := s.items.length

/-- Whether the set has no elements. -/
def isEmpty : Bool := s.items.isEmpty

/-- The set as a value. -/
def toValue : Value := .set s.items

/-- Equality of sets, as that of the set values. -/
def eq (t : ElementSet) : Bool := s.toValue.eq t.toValue

/-- The set of the values of a list, inserted one by one. -/
def ofList (values : List Value) : ElementSet := values.foldl insert empty

end ElementSet

end AttributeStore
