import AttributeStore.Value.Inspect

/-!
# Holders

A holder owns one value for as long as it exists.  Beside the value it carries two flags, which
are only ever raised, and the kind of its making.
-/

namespace AttributeStore

/-- How a holder came into being. -/
inductive HolderKind where
  /-- A caller made it. -/
  | basic
  /-- A plain write to a map made it, or a caller asked for such a holder. -/
  | composite
deriving DecidableEq

/-- The name of a kind. -/
def HolderKind.name : HolderKind → String
  | basic => "Basic"
  | composite => "Composite"

/-- One value with its flags. -/
structure Holder where
  /-- The value. -/
  value : Value
  /-- Whether plain writes are kept from replacing the holder. -/
  locked : Bool
  /-- Whether the value may be exported. -/
  persistable : Bool
  /-- How the holder came into being. -/
  kind : HolderKind

namespace Holder

/-- A holder with no flag raised. -/
def fresh (value : Value) (kind : HolderKind) : Holder :=
  { value, locked := false, persistable := false, kind }

instance : Inhabited Holder := ⟨fresh .null .basic⟩

/-- The holder that a plain write stores in the place of `old`.  Only the permission to export is
handed on. -/
def superseding (old : Option Holder) (value : Value) : Holder :=
  { fresh value .composite with persistable := old.any (·.persistable) }

/-- The holder with its lock closed. -/
def lock (h : Holder) : Holder := { h with locked := true }

/-- The holder with the permission to export its value. -/
def markPersistable (h : Holder) : Holder := { h with persistable := true }

/-- Whether the holder is of the kind that plain writes make. -/
def isComposite (h : Holder) : Bool := h.kind = .composite

/-- The characters of the inspection of a holder. -/
def inspectChars (h : Holder) : List Char :=
  "AttributeHolder \x7b value: ".toList ++ h.value.inspectChars ++
    ", locked: ".toList ++ (Value.bool h.locked).chars ++
    ", persistable: ".toList ++ (Value.bool h.persistable).chars ++
    ", kind: ".toList ++ h.kind.name.toList ++ [' ', '\x7d']

/-- The inspection of a holder. -/
def inspect (h : Holder) : String := String.ofList h.inspectChars

end Holder

end AttributeStore
