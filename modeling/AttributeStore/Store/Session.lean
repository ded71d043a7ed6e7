import AttributeStore.Error
import AttributeStore.Event.Basic
import AttributeStore.Name

/-!
# Writes to one map

A session is what a write to a map works on: the pool of holders, the table that says which
holder stands under which key, and the events that the writes have emitted.  A holder that a
write stores is always made by this write, so no two places of any table share one.

## Main definitions

* `Session.write`, `Session.set`: storing a plain value, without and with the check of the name.
* `Session.unset`, `Session.clear`: taking holders out.
* `Session.importAll`: storing plain values and copies of holders one after the other.
* `Write`, `Session.apply`: the writes as data.
-/

namespace AttributeStore

/-- The state of a sequence of writes to one map. -/
structure Session where
  /-- All holders. -/
  pool : Pool
  /-- The holders of the map under their keys. -/
  table : Dict HolderId
  /-- The events emitted so far, the oldest first. -/
  emitted : List Event

/-- An entry of an import. -/
inductive Entry where
  /-- A plain value, to be written under a valid name. -/
  | value (v : Value)
  /-- A holder, to be copied under any key. -/
  | holder (id : HolderId)

/-- A write to a map. -/
inductive Write where
  /-- Writes a plain value under a valid name. -/
  | set (key : String) (v : Value)
  /-- Takes out the holder under a key. -/
  | unset (key : String)
  /-- Takes out all holders. -/
  | clear
  /-- Imports entries up to the first one that fails. -/
  | importAll (entries : List (String × Entry))

namespace Session

variable (s : Session)

/-- Emits an event. -/
def emit (e : Event) : Session := { s with emitted := s.emitted ++ [e] }

/-- The holder under a key. -/
def find? (key : String) : Option HolderId := s.table.get? key

/-- Makes a holder and stores it under a key. -/
def store (key : String) (h : Holder) : Session :=
  { s with pool := s.pool.add h, table := s.table.insert key s.pool.nextId }

/-- Writes a plain value under a key, whatever the key is, and gives the holder that stands there
afterwards.  A locked holder stays where it is. -/
def write (key : String) (v : Value) : HolderId × Session :=
  match s.find? key with
  | some old =>
    if (s.pool.holder old).locked then (old, s.emit (.ignored key))
    else
      (s.pool.nextId, (s.store key (.superseding (some (s.pool.holder old)) v)).emit
        (.set key s.pool.nextId (some old)))
  | none =>
    (s.pool.nextId, (s.store key (.superseding none v)).emit (.set key s.pool.nextId none))

theorem write_of_locked {key : String} {old : HolderId} (hold : s.find? key = some old)
    (hlocked : (s.pool.holder old).locked) (v : Value) :
    s.write key v = (old, s.emit (.ignored key)) := by
  simp [write, hold, hlocked]

theorem write_of_unlocked {key : String}
    (h : ∀ old ∈ s.find? key, (s.pool.holder old).locked = false) (v : Value) :
    s.write key v =
      (s.pool.nextId, (s.store key (.superseding ((s.find? key).map s.pool.holder) v)).emit
        (.set key s.pool.nextId (s.find? key))) := by
  cases hfind : s.find? key with
  | none => simp [write, hfind]
  | some old => simp [write, hfind, h old hfind]

/-- Writes a plain value under a valid name. -/
def set (key : String) (v : Value) : Except AttributeError (HolderId × Session) :=
  if IsValidName key then .ok (s.write key v) else .error (.invalidName key)

/-- Takes out the holder under a key, locked or not, and gives it. -/
def unset (key : String) : Option HolderId × Session :=
  match s.find? key with
  | none => (none, s)
  | some old => (some old, { s with table := s.table.erase key }.emit (.removed key old))

theorem unset_of_none {key : String} (h : s.find? key = none) : s.unset key = (none, s) := by
  simp [unset, h]

theorem unset_of_some {key : String} {old : HolderId} (h : s.find? key = some old) :
    s.unset key = (some old, { s with table := s.table.erase key }.emit (.removed key old)) := by
  simp [unset, h]

/-- Takes out all holders, locked or not. -/
def clear : Session := { s with table := .empty }.emit .cleared

/-- Stores a copy of a holder under a key, whatever the key is and whatever stands there. -/
def importCopy (key : String) (id : HolderId) : Session :=
  (s.store key (s.pool.holder id)).emit (.imported key s.pool.nextId)

/-- Imports one entry.  A plain null has no effect. -/
def importEntry (key : String) : Entry → Except AttributeError Session
  | .value .null => .ok s
  | .value v => (s.set key v).map Prod.snd
  | .holder id => .ok (s.importCopy key id)

/-- Imports entries one after the other up to the first one that fails.  What was imported before
it stays. -/
def importAll (s : Session) : List (String × Entry) → Except AttributeError Unit × Session
  | [] => (.ok (), s)
  | (key, entry) :: rest =>
    match s.importEntry key entry with
    | .ok next => next.importAll rest
    | .error e => (.error e, s)

/-- Does a write, whatever it gives.  A write that fails leaves what it has done so far. -/
def apply : Write → Session
  | .set key v =>
    match s.set key v with
    | .ok (_, after) => after
    | .error _ => s
  | .unset key => (s.unset key).2
  | .clear => s.clear
  | .importAll entries => (s.importAll entries).2

end Session

/-- The entries of an import of plain values. -/
def plainEntries (values : List (String × Value)) : List (String × Entry) :=
  values.map fun pair => (pair.1, .value pair.2)

end AttributeStore
