import AttributeStore.Value.Text

/-!
# Errors

The ways in which an access to an attribute fails, and the wording of each.
-/

namespace AttributeStore

/-- Why an access to an attribute failed. -/
inductive AttributeError where
  /-- Nothing is stored under the key, or a null where a primitive was asked for. -/
  | undefined (key : String)
  /-- The stored value, given by its text, cannot be read as the kind asked for. -/
  | cannotCoerce (key value target : String)
  /-- A plain value was to be stored under something that is no name. -/
  | invalidName (key : String)
deriving DecidableEq

namespace AttributeError

/-- The error of a value that cannot be read as a kind. -/
def ofValue (key : String) (v : Value) (target : String) : AttributeError :=
  cannotCoerce key v.text target

/-- The key that the error is about. -/
def key : AttributeError → String
  | undefined key => key
  | cannotCoerce key _ _ => key
  | invalidName key => key

/-- The wording of an error. -/
def message : AttributeError → String
  | undefined key => "attribute undefined: " ++ key
  | cannotCoerce key value target =>
    "cannot coerce attribute " ++ key ++ " with value " ++ value ++ " to " ++ target
  | invalidName key =>
    "attribute [" ++ key ++ "] violates attribute name restriction, attribute not added"

end AttributeError

end AttributeStore
