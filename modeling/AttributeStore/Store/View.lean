import AttributeStore.Store.Basic

/-!
# Live views

A live view shows all values of a map.  It keeps nothing but the map it was taken of, and whenever
it is asked, it answers from what the map holds at this moment.  A map is written out by a view.
-/

namespace AttributeStore

/-- A view of all values of a map. -/
structure LiveView where
  /-- The map. -/
  source : MapId

/-- Takes a view of a map. -/
def MapId.view (m : MapId) : LiveView := ⟨m⟩

namespace LiveView

variable (view : LiveView) (store : Store)

/-- The value under a key. -/
def get? (key : String) : Option Value :=
  (store.holder? view.source key).map fun id => (store.holder id).value

/-- Whether there is a value under a key. -/
def contains (key : String) : Bool := (store.contents view.source).contains key

/-- The number of values. -/
def size : Nat := (store.contents view.source).size

/-- Whether there are no values. -/
def isEmpty : Bool := (store.contents view.source).isEmpty

/-- All values under their keys. -/
def values : Dict Value := (store.contents view.source).values

/-- All keys with their values, one after the other. -/
def items : List (String × Value) := (view.values store).entries

/-- The text of a view: the values are put into the order of their keys one by one, as they are
listed, and then their texts are written. -/
def text (listing : (view.values store).Listing) : String :=
  let sorted := Dict.ofList listing.entries
  String.ofList (Text.braced (sorted.entries.map fun e => e.1.toList ++ '=' :: e.2.chars))

/-- The inspection of a view: those of its values, as they are listed. -/
def inspect (listing : (view.values store).Listing) : String :=
  String.ofList (Text.braced (listing.entries.map fun e => Text.inspectEntry e.1 e.2.inspectChars))

end LiveView

/-- The text of a map is that of a view of it. -/
def Store.text (store : Store) (m : MapId) (listing : (m.view.values store).Listing) : String :=
  m.view.text store listing

end AttributeStore
