import AttributeStore.Value.Equality

/-!
# List views

A list view reads a stored list or array as a list.  Over a list it presents the items as they
are; over an array it presents nested arrays as lists, down to the first item that is no array.
-/

namespace AttributeStore

namespace Value

mutual

/-- Turns an array into a list, and the arrays that are its items likewise. -/
def arraysToLists : Value → Value
  | array items => list (arraysToListsItems items)
  | v => v
termination_by structural v => v

/-- Turns the arrays of a sequence into lists. -/
def arraysToListsItems : List Value → List Value
  | [] => []
  | item :: rest => item.arraysToLists :: arraysToListsItems rest

end

end Value

/-- A read-only list over the items of a stored list or array. -/
structure ListView where
  /-- The stored items. -/
  stored : List Value
  /-- Whether the items are stored as an array. -/
  converted : Bool

namespace ListView

/-- The view of a list or array. -/
def ofValue? : Value → Option ListView
  | .list items => some ⟨items, false⟩
  | .array items => some ⟨items, true⟩
  | _ => none

variable (view : ListView)

/-- The stored value. -/
def source : Value := if view.converted then .array view.stored else .list view.stored

/-- The form in which an item is presented. -/
def present (item : Value) : Value := if view.converted then item.arraysToLists else item

/-- The number of items. -/
def length : Nat := view.stored.length

/-- The item at an index, as it is presented. -/
def get? (index : Nat) : Option Value := view.stored[index]?.map view.present

/-- All items, as they are presented. -/
def toList : List Value := view.stored.map view.present

/-- Whether the view shows values equal to those of a list, one by one. -/
def eq (values : List Value) : Bool :=
  view.length = values.length && (view.toList.zip values).all fun pair => pair.1.eq pair.2

end ListView

end AttributeStore
