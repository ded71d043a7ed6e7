import AttributeStore.Dict
import AttributeStore.Error
import AttributeStore.Holder.Basic
import AttributeStore.Value.Coercion
import AttributeStore.Value.ElementSet
import AttributeStore.Value.Json
import AttributeStore.Value.ListView

/-!
# Reading a map

What can be read from a map depends on nothing but its contents: the present states of its
holders under their keys.  What goes through all of them does so in the order of a listing.

## Main definitions

* `Contents.get`: the value under a key, and `Contents.getAs`, `Contents.getAsOr`,
  `Contents.getAsString`, `Contents.getAsList`, `Contents.getAsMap`, `Contents.getAsSet`: the same
  as a value of one kind.
* `Contents.values`, `Contents.serializable`: all values, and those that may be exported.
* `Contents.snapshotValues`, `Contents.snapshot`: what may be exported, in the order of the keys,
  and as JSON.
* `Contents.inspect`: a map for programmers.
-/

namespace AttributeStore

/-- The states of the holders of a map under their keys. -/
abbrev Contents := Dict Holder

namespace Contents

variable (c : Contents)

/-- The values under their keys. -/
def values : Dict Value := c.map (·.value)

/-- The value under a key.  A stored null is a value. -/
def get (key : String) : Except AttributeError Value :=
  match c.get? key with
  | some h => .ok h.value
  | none => .error (.undefined key)

/-- The value under a key as a primitive. -/
def getAs (p : Primitive) (key : String) : Except AttributeError p.Carrier := do
  let v ← c.get key
  if v.isNull then .error (.undefined key)
  else
    match v.coerce? p with
    | some a => .ok a
    | none => .error (.ofValue key v p.name)

/-- The value under a key as a primitive, or `fallback` if there is no such key. -/
def getAsOr (p : Primitive) (key : String) (fallback : p.Carrier) :
    Except AttributeError p.Carrier :=
  if c.contains key then c.getAs p key else .ok fallback

/-- The text of the value under a key; nothing for a stored null. -/
def getAsString (key : String) : Except AttributeError (Option String) := do
  let v ← c.get key
  return if v.isNull then none else some v.text

/-- A list view of the list or array under a key; nothing for a stored null. -/
def getAsList (key : String) : Except AttributeError (Option ListView) := do
  let v ← c.get key
  if v.isNull then return none
  else
    match ListView.ofValue? v with
    | some view => return some view
    | none => .error (.ofValue key v "List")

/-- The entries of the map value under a key. -/
def getAsMap (key : String) : Except AttributeError (List (String × Value)) := do
  match ← c.get key with
  | .map entries => return entries
  | v => .error (.ofValue key v "Map")

/-- The elements of the set value under a key; nothing for a stored null. -/
def getAsSet (key : String) : Except AttributeError (Option ElementSet) := do
  match ← c.get key with
  | .null => return none
  | .set items => return some ⟨items⟩
  | v => .error (.ofValue key v "Set")

/-- The values that may be exported, under their keys. -/
def serializable : Dict Value := values (c.filter (·.persistable))

/-- The values that may be exported, put under their keys one by one, as the map lists them. -/
def snapshotValues (listing : c.Listing) : Dict Value :=
  .ofList ((listing.entries.filter fun e => e.2.persistable).map fun e => (e.1, e.2.value))

/-- The JSON tree of the values that may be exported. -/
def snapshot (listing : c.Listing) : Json :=
  .object ((c.snapshotValues listing).entries.map fun e => (e.1, e.2.toJson))

/-- The inspection of a map: those of its holders, as the map lists them. -/
def inspect (listing : c.Listing) : String :=
  String.ofList (Text.braced (listing.entries.map fun e => Text.inspectEntry e.1 e.2.inspectChars))

end Contents

end AttributeStore
