import AttributeStore.Holder.Pool

/-!
# Events

What a map tells its subscribers about: one event for each change, and one for each plain write
that a lock refused.
-/

namespace AttributeStore

/-- A change of a map, or a write that was refused. -/
inductive Event where
  /-- A plain value was stored in a new holder, in the place of another one if the key had one. -/
  | set (key : String) (holder : HolderId) (replaced : Option HolderId)
  /-- A plain write met a locked holder. -/
  | ignored (key : String)
  /-- A copy of a holder was stored. -/
  | imported (key : String) (holder : HolderId)
  /-- A holder was taken out. -/
  | removed (key : String) (holder : HolderId)
  /-- All holders were taken out. -/
  | cleared
deriving DecidableEq

/-- The key of a refused write. -/
def Event.refusedKey? : Event → Option String
  | ignored key => some key
  | _ => none

end AttributeStore
