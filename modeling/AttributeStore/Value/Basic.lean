import AttributeStore.Binary.Number
import AttributeStore.Dict

/-!
# Attribute values

`Value` is the closed set of kinds that an attribute can hold.  The entries of a map value stand
in ascending order of their keys, and the elements of a set value are pairwise unequal; the
builders `Value.ofPairs` and `ElementSet.ofList` make such values.
-/

namespace AttributeStore

/-- A handle to an object of which only its identity and its texts are known. -/
structure Object where
  /-- Two handles are handles to one object if their identities agree. -/
  identity : Nat
  /-- The object as a reader sees it. -/
  text : String
  /-- The object as a programmer sees it. -/
  inspection : String
deriving DecidableEq

/-- An attribute value. -/
inductive Value where
  /-- The absence of a value, which can be stored too. -/
  | null
  /-- A truth value. -/
  | bool (b : Bool)
  /-- An integer of 8 bits. -/
  | byte (n : Int8)
  /-- An integer of 16 bits. -/
  | short (n : Int16)
  /-- An integer of 32 bits. -/
  | int (n : Int32)
  /-- An integer of 64 bits. -/
  | long (n : Int64)
  /-- A floating-point number of 32 bits. -/
  | float (x : Binary.Single)
  /-- A floating-point number of 64 bits. -/
  | double (x : Binary.Double)
  /-- One character. -/
  | char (c : Char)
  /-- A text. -/
  | string (s : String)
  /-- An ordered sequence. -/
  | list (items : List Value)
  /-- A fixed sequence, which list views present as a list. -/
  | array (items : List Value)
  /-- Values under keys. -/
  | map (entries : List (String × Value))
  /-- Pairwise unequal values in the order of their insertion. -/
  | set (items : List Value)
  /-- Any other object. -/
  | object (o : Object)

namespace Value

instance : Inhabited Value := ⟨null⟩

/-- The map value with the given entries; of two entries with one key the later one stays. -/
def ofPairs (pairs : List (String × Value)) : Value := map (Dict.ofList pairs).entries

/-- The value of something that may be missing. -/
def ofOption : Option Value → Value
  | none => null
  | some v => v

/-- Whether a value is the absence of one. -/
def isNull : Value → Bool
  | null => true
  | _ => false

/-- Whether a value is an integer or a floating-point number. -/
def isNumber : Value → Bool
  | byte _ | short _ | int _ | long _ | float _ | double _ => true
  | _ => false

/-- The name of the kind of a value. -/
def kindName : Value → String
  | null => "null"
  | bool _ => "boolean"
  | byte _ => "byte"
  | short _ => "short"
  | int _ => "int"
  | long _ => "long"
  | float _ => "float"
  | double _ => "double"
  | char _ => "char"
  | string _ => "String"
  | list _ => "List"
  | array _ => "Array"
  | map _ => "Map"
  | set _ => "Set"
  | object _ => "Object"

end Value

end AttributeStore
