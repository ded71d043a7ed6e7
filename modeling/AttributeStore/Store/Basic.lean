import AttributeStore.Event.Channel
import AttributeStore.Log
import AttributeStore.Store.Contents

/-!
# The store

A store is all there is: the pool of holders, the maps, the receivers of their events, and the
log of the maps that have none of their own.  Maps and receivers are never taken out of the
store, so their identifiers stay good.  An identifier that was never given out stands for a map
without entries, on which writes have no effect, and for a receiver of such a map.

## Main definitions

* `AttributeMap`, `Receiver`, `Store`: the state.
* `Store.HasMap`, `Store.table`, `Store.contents`: the maps there are, the holders of a map, and
  their present states.
* `Store.newHolder`, `Store.cloneHolder`, `Store.lock`, `Store.markPersistable`: what callers do
  with holders.
* `Store.subscribe`, `Store.drain`: what receivers do.
-/

namespace AttributeStore

/-- A map of attributes. -/
structure AttributeMap where
  /-- The holders under their keys. -/
  table : Dict HolderId
  /-- The events that the map emitted. -/
  channel : Channel
  /-- The log of the map itself, if it has one. -/
  ownLog : Option Log

/-- The map without entries and with nothing set up. -/
def AttributeMap.empty : AttributeMap := { table := .empty, channel := default, ownLog := none }

instance : Inhabited AttributeMap := ⟨AttributeMap.empty⟩

/-- The identity of a map. -/
structure MapId where
  /-- The number of maps that were made before. -/
  index : Nat
deriving DecidableEq

/-- The identity of a receiver. -/
structure ReceiverId where
  /-- The number of receivers that were made before. -/
  index : Nat
deriving DecidableEq

/-- A reader of the events of a map. -/
structure Receiver where
  /-- The map. -/
  source : MapId
  /-- The number of events of the map that the receiver is done with. -/
  position : Nat

instance : Inhabited Receiver := ⟨⟨⟨0⟩, 0⟩⟩

/-- All holders, maps and receivers, and the shared log. -/
structure Store where
  /-- All holders. -/
  pool : Pool
  /-- All maps. -/
  maps : Array AttributeMap
  /-- All receivers. -/
  receivers : Array Receiver
  /-- The log of the maps that have none of their own. -/
  sharedLog : SharedLog

namespace Store

/-- The store without maps. -/
def empty : Store :=
  { pool := .empty, maps := #[], receivers := #[], sharedLog := .initial }

variable (store : Store)

/-- A map that was made. -/
def HasMap (m : MapId) : Prop := m.index < store.maps.size

instance (m : MapId) : Decidable (store.HasMap m) := inferInstanceAs (Decidable (_ < _))

/-- The present state of a map. -/
def map (m : MapId) : AttributeMap := store.maps.getD m.index default

/-- The present state of a receiver. -/
def receiver (r : ReceiverId) : Receiver := store.receivers.getD r.index default

/-- The present state of a holder. -/
def holder (id : HolderId) : Holder := store.pool.holder id

/-- The holders of a map under their keys. -/
def table (m : MapId) : Dict HolderId := (store.map m).table

/-- What a map shows. -/
def contents (m : MapId) : Contents := (store.table m).map store.holder

/-- The holder under a key of a map. -/
def holder? (m : MapId) (key : String) : Option HolderId := (store.table m).get? key

/-- The holders of a map that plain writes made, or copies of such. -/
def composites (m : MapId) : Dict HolderId :=
  (store.table m).filter fun id => (store.holder id).isComposite

/-! ### Holders -/

/-- Makes a holder with no flag raised. -/
def newHolder (v : Value) (kind : HolderKind) : HolderId × Store :=
  (store.pool.nextId, { store with pool := store.pool.add (.fresh v kind) })

/-- Makes a copy of a holder, which has the state of the holder but is another one. -/
def cloneHolder (id : HolderId) : HolderId × Store :=
  (store.pool.nextId, { store with pool := store.pool.add (store.holder id) })

/-- Closes the lock of a holder. -/
def lock (id : HolderId) : Store := { store with pool := store.pool.lock id }

/-- Permits the export of the value of a holder. -/
def markPersistable (id : HolderId) : Store :=
  { store with pool := store.pool.markPersistable id }

/-! ### Logs -/

/-- Sets the two thresholds of the shared log. -/
def setSharedLog (maximum threshold : Level) : Store :=
  { store with sharedLog := { maximum, log := { store.sharedLog.log with threshold } } }

/-- Takes the lines of the shared log. -/
def takeSharedLines : List LogLine × Store :=
  (store.sharedLog.log.lines,
    { store with sharedLog := { store.sharedLog with log := store.sharedLog.log.emptied } })

/-- Applies a change to one map. -/
def modifyMap (m : MapId) (change : AttributeMap → AttributeMap) : Store :=
  { store with maps := store.maps.modify m.index change }

/-- Takes the lines of the own log of a map. -/
def takeOwnLines (m : MapId) : List LogLine × Store :=
  (((store.map m).ownLog.map Log.lines).getD [],
    store.modifyMap m fun a => { a with ownLog := a.ownLog.map Log.emptied })

/-- Reports a refused write to the own log of a map, or else to the shared one. -/
def report (m : MapId) (key : String) : Store :=
  if (store.map m).ownLog.isSome then
    store.modifyMap m fun a => { a with ownLog := a.ownLog.map fun log => log.add (.refusal key) }
  else { store with sharedLog := store.sharedLog.add (.refusal key) }

/-! ### Receivers -/

/-- Makes a receiver of what a map emits from now on. -/
def subscribe (m : MapId) : ReceiverId × Store :=
  (⟨store.receivers.size⟩,
    { store with receivers := store.receivers.push ⟨m, (store.map m).channel.sent⟩ })

/-- Takes at most `limit` deliveries of a receiver, or all that there are. -/
def drain (r : ReceiverId) (limit : Option Nat) : List Delivery × Store :=
  let channel := (store.map (store.receiver r).source).channel
  let (deliveries, position) :=
    channel.drain (limit.getD channel.drainBound) (store.receiver r).position
  (deliveries,
    { store with receivers := store.receivers.modify r.index fun x => { x with position } })

end Store

end AttributeStore
