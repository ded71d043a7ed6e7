import AttributeStore.Store.Basic
import AttributeStore.Store.Session

/-!
# Writing to the maps of a store

Every write runs a session on the table of its map.  The events of the session then go, in their
order, through the channel of the map, and each refused write is reported to a log.

## Main definitions

* `MapPlan`, `MapPlan.addValue`, `MapPlan.addValues`, `MapPlan.withEventCapacity`,
  `MapPlan.withOwnLog`: plans for maps, and the calls that set them up.
* `Store.session`, `Store.commit`: the beginning and the end of a write.
* `Store.set`, `Store.unset`, `Store.clear`, `Store.importAll`, `Store.setAll`,
  `Store.importFrom`: the writes.
* `Store.build`, `Store.ofValues`: the making of maps.
-/

namespace AttributeStore

/-- The settings and first values of a map to be built. -/
structure MapPlan where
  /-- The values to start with, in the order in which they are written. -/
  values : List (String × Value) := []
  /-- How many events a receiver may fall behind. -/
  eventCapacity : Nat := Channel.defaultCapacity
  /-- The threshold of a log of its own. -/
  ownLog : Option Level := none

namespace MapPlan

variable (plan : MapPlan)

/-- The plan with one more value to start with. -/
def addValue (key : String) (v : Value) : MapPlan :=
  { plan with values := plan.values ++ [(key, v)] }

/-- The plan with more values to start with. -/
def addValues (values : List (String × Value)) : MapPlan :=
  { plan with values := plan.values ++ values }

/-- The plan with another event capacity, which is at least one. -/
def withEventCapacity (n : Nat) : MapPlan := { plan with eventCapacity := max n 1 }

/-- The plan with a log for the map itself. -/
def withOwnLog (threshold : Level) : MapPlan := { plan with ownLog := some threshold }

/-- The map of a plan before its first values are written. -/
def emptyMap : AttributeMap where
  table := .empty
  channel := .withCapacity plan.eventCapacity
  ownLog := plan.ownLog.map fun threshold => { threshold, lines := [] }

end MapPlan

namespace Store

variable (store : Store)

/-- Reports a refused write and sends an event of a map. -/
def publish (m : MapId) (e : Event) : Store :=
  let reported :=
    match e.refusedKey? with
    | some key => store.report m key
    | none => store
  reported.modifyMap m fun a => { a with channel := a.channel.send e }

/-- The session of a write to a map. -/
def session (m : MapId) : Session :=
  { pool := store.pool, table := store.table m, emitted := [] }

/-- Takes over the holders and the table of a session on a map. -/
def adopt (m : MapId) (after : Session) : Store :=
  { store with pool := after.pool }.modifyMap m fun a => { a with table := after.table }

/-- Takes over what a session has done to a map, and publishes its events in their order.  Nothing
is done to a map that was never made. -/
def commit (m : MapId) (after : Session) : Store :=
  if store.HasMap m then
    after.emitted.foldl (fun current e => current.publish m e) (store.adopt m after)
  else store

/-- Writes a plain value and gives the holder that stands under the key afterwards.  An invalid
name changes nothing. -/
def set (m : MapId) (key : String) (v : Value) : Except AttributeError HolderId × Store :=
  match (store.session m).set key v with
  | .ok (id, after) => (.ok id, store.commit m after)
  | .error e => (.error e, store)

/-- Takes out the holder under a key, locked or not, and gives it. -/
def unset (m : MapId) (key : String) : Option HolderId × Store :=
  let (removed, after) := (store.session m).unset key
  (removed, store.commit m after)

/-- Takes out all holders of a map, locked or not. -/
def clear (m : MapId) : Store := store.commit m (store.session m).clear

/-- Imports entries one after the other up to the first one that fails. -/
def importAll (m : MapId) (entries : List (String × Entry)) : Except AttributeError Unit × Store :=
  let (result, after) := (store.session m).importAll entries
  (result, store.commit m after)

/-- Writes plain values one after the other up to the first one that fails, leaving out nulls. -/
def setAll (m : MapId) (values : List (String × Value)) : Except AttributeError Unit × Store :=
  store.importAll m (plainEntries values)

/-- Imports all holders of one map into another, or into itself. -/
def importFrom (m source : MapId) : Except AttributeError Unit × Store :=
  store.importAll m ((store.table source).entries.map fun e => (e.1, .holder e.2))

/-! ### Making maps -/

/-- Makes a map without entries. -/
def addMap (a : AttributeMap) : MapId × Store :=
  (⟨store.maps.size⟩, { store with maps := store.maps.push a })

/-- Makes a map by a plan.  A first value under an invalid name makes none. -/
def build (plan : MapPlan) : Except AttributeError (MapId × Store) :=
  let (m, added) := store.addMap plan.emptyMap
  match added.setAll m plan.values with
  | (.ok (), filled) => .ok (m, filled)
  | (.error e, _) => .error e

theorem build_eq_ok_iff {plan : MapPlan} {m : MapId} {built : Store} :
    store.build plan = .ok (m, built) ↔
      m = ⟨store.maps.size⟩ ∧
        (store.addMap plan.emptyMap).2.setAll ⟨store.maps.size⟩ plan.values = (.ok (), built) := by
  simp only [build, addMap]
  split
  next filled hfilled =>
    simp only [hfilled, Except.ok.injEq, Prod.mk.injEq, true_and]
    exact ⟨fun h => ⟨h.1.symm, h.2⟩, fun h => ⟨h.1.symm, h.2⟩⟩
  next e filled hfilled => simp [hfilled]

/-- Makes a map of the given values with default settings. -/
def ofValues (values : List (String × Value)) : Except AttributeError (MapId × Store) :=
  store.build { values }

end Store

end AttributeStore
