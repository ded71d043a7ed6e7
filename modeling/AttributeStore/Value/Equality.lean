import AttributeStore.Value.Basic

/-!
# Equality of values

Values of different kinds are never equal.  Numbers compare as numbers, sequences and maps item
by item, and objects by identity.  Two set values are equal if they have equally many elements
and the second one contains each element of the first one.
-/

namespace AttributeStore.Value

mutual

/-- Equality of values. -/
def eq : Value → Value → Bool
  | null, null => true
  | bool a, bool b => a = b
  | byte a, byte b => a = b
  | short a, short b => a = b
  | int a, int b => a = b
  | long a, long b => a = b
  | float a, float b => a.eq b
  | double a, double b => a.eq b
  | char a, char b => a = b
  | string a, string b => a = b
  | list as, list bs => eqItems as bs
  | array as, array bs => eqItems as bs
  | map as, map bs => eqEntries as bs
  | set as, set bs => as.length = bs.length && allIn as bs
  | object a, object b => a.identity = b.identity
  | _, _ => false
termination_by structural v => v

/-- Equality of sequences, item by item. -/
def eqItems : List Value → List Value → Bool
  | [], [] => true
  | a :: as, b :: bs => a.eq b && eqItems as bs
  | _, _ => false

/-- Equality of entries, key by key and value by value. -/
def eqEntries : List (String × Value) → List (String × Value) → Bool
  | [], [] => true
  | (k, a) :: as, (l, b) :: bs => k = l && a.eq b && eqEntries as bs
  | _, _ => false

/-- Whether each of the first values is equal to some of the second ones.  The recursion is on the
first values, so these stand on the left, where `ElementSet.contains` has them on the right: for the
elements of sets this is the same (`ElementSet.eq_eq_all_contains`). -/
def allIn : List Value → List Value → Bool
  | [], _ => true
  | a :: as, bs => bs.any (fun b => a.eq b) && allIn as bs

end

end AttributeStore.Value
