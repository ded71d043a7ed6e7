import AttributeStore.Store.Write

/-!
# Runs of a store

An operation is one call that may change a store, and a run is a list of them.

## Main definitions

* `Operation`, `Store.apply`, `Store.run`: the operations as data and what they do.
* `Store.Reachable`: the stores that runs lead to.
* `Store.emitted`, `Store.history`: the events that a map emits in an operation and in a run.

## Main results

* `Store.set_eq_apply`, `Store.unset_eq_apply`, `Store.clear_eq_apply`,
  `Store.importAll_eq_apply`: every write is the operation of that name.
-/

namespace AttributeStore

/-- A call that may change a store. -/
inductive Operation where
  /-- Makes a map by a plan. -/
  | build (plan : MapPlan)
  /-- Makes a holder with no flag raised. -/
  | newHolder (v : Value) (kind : HolderKind)
  /-- Makes a copy of a holder. -/
  | cloneHolder (id : HolderId)
  /-- Closes the lock of a holder. -/
  | lock (id : HolderId)
  /-- Permits the export of the value of a holder. -/
  | markPersistable (id : HolderId)
  /-- Writes to a map. -/
  | write (m : MapId) (w : Write)
  /-- Makes a receiver of the events of a map. -/
  | subscribe (m : MapId)
  /-- Takes deliveries of a receiver. -/
  | drain (r : ReceiverId) (limit : Option Nat)
  /-- Sets the thresholds of the shared log. -/
  | setSharedLog (maximum threshold : Level)
  /-- Takes the lines of the shared log. -/
  | takeSharedLines
  /-- Takes the lines of the own log of a map. -/
  | takeOwnLines (m : MapId)

namespace Store

variable (store : Store)

/-- The store after an operation.  A plan with an invalid name makes no map. -/
def apply : Operation → Store
  | .build plan =>
    match store.build plan with
    | .ok (_, built) => built
    | .error _ => store
  | .newHolder v kind => (store.newHolder v kind).2
  | .cloneHolder id => (store.cloneHolder id).2
  | .lock id => store.lock id
  | .markPersistable id => store.markPersistable id
  | .write m w => store.commit m ((store.session m).apply w)
  | .subscribe m => (store.subscribe m).2
  | .drain r limit => (store.drain r limit).2
  | .setSharedLog maximum threshold => store.setSharedLog maximum threshold
  | .takeSharedLines => store.takeSharedLines.2
  | .takeOwnLines m => (store.takeOwnLines m).2

/-- The store after a run. -/
def run (operations : List Operation) : Store := operations.foldl apply store

/-- A store that some run from the empty one leads to. -/
def Reachable : Prop := ∃ operations, store = empty.run operations

/-- The events that an operation makes a map of the store emit, the oldest first. -/
def emitted (m : MapId) : Operation → List Event
  | .write m' w => if m' = m then ((store.session m).apply w).emitted else []
  | _ => []

/-- The events that a run makes a map emit, the oldest first. -/
def history (store : Store) (m : MapId) : List Operation → List Event
  | [] => []
  | operation :: rest => store.emitted m operation ++ (store.apply operation).history m rest

/-- Committing a session in which nothing happened changes nothing. -/
theorem commit_session (m : MapId) : store.commit m (store.session m) = store := by
  have hmaps : (store.maps.modify m.index fun a => { a with table := store.table m }) =
      store.maps := by
    refine Array.ext_getElem? fun i => ?_
    rw [Array.getElem?_modify]
    split
    next heq =>
      subst heq
      cases h : store.maps[m.index]? with
      | none => rfl
      | some a => simp [table, map, Array.getD_eq_getD_getElem?, h]
    next => rfl
  simp [commit, adopt, session, modifyMap, hmaps]

theorem set_eq_apply (m : MapId) (key : String) (v : Value) :
    (store.set m key v).2 = store.apply (.write m (.set key v)) := by
  simp only [set, apply, Session.apply]
  cases (store.session m).set key v with
  | ok result => rfl
  | error e => exact (store.commit_session m).symm

theorem unset_eq_apply (m : MapId) (key : String) :
    (store.unset m key).2 = store.apply (.write m (.unset key)) := rfl

theorem clear_eq_apply (m : MapId) : store.clear m = store.apply (.write m .clear) := rfl

theorem importAll_eq_apply (m : MapId) (entries : List (String × Entry)) :
    (store.importAll m entries).2 = store.apply (.write m (.importAll entries)) := rfl

theorem run_append (first second : List Operation) :
    store.run (first ++ second) = (store.run first).run second :=
  List.foldl_append

end Store

end AttributeStore
