import AttributeStore.Proofs.Slots

/-!
# Imports entry by entry

An import does what its entries do one after the other: a plain value is written, a plain null is
left out, and a holder is copied into its slot.  It succeeds unless an entry is refused, which is a
plain value other than null under something that is no name.  The first refused entry decides the
error, and the import has done then what the entries before it do.

## Main definitions

* `Entry.IsRefused`: the entries that stop an import.
* `Entry.operation?`, `Store.entrySteps`: what an entry does, and what a list of entries does.
* `Store.storeCopy`: a copy of a holder in a slot.

## Main results

* `Store.importAll_fst_eq_ok_iff`, `Store.importAll_of_isRefused`: when an import fails, and how.
* `Store.importAll_isSequential`: imports are sequential and stop at the first refused entry.
-/

namespace AttributeStore

/-- An entry that no import accepts under a key. -/
def Entry.IsRefused (key : String) (entry : Entry) : Prop :=
  ∃ v : Value, entry = .value v ∧ v ≠ .null ∧ ¬ IsValidName key

/-- What an entry does to a map: a plain value is written, and a holder is imported alone. -/
def Entry.operation? (m : MapId) (key : String) : Entry → Option Operation
  | .value .null => none
  | .value v => some (.write m (.set key v))
  | .holder id => some (.write m (.importAll [(key, .holder id)]))

namespace Session

variable {s : Session} {key : String}

theorem importEntry_of_not_isRefused {entry : Entry} (h : ¬ entry.IsRefused key) :
    ∃ next, s.importEntry key entry = .ok next := by
  cases entry with
  | holder id => exact ⟨_, rfl⟩
  | value v =>
    by_cases hnull : v = .null
    · exact ⟨s, by rw [hnull]; rfl⟩
    · have hname : IsValidName key := by
        by_contra hname
        exact h ⟨v, rfl, hnull, hname⟩
      exact ⟨(s.write key v).2, by simp [importEntry, set, hname, Except.map]⟩

theorem importEntry_of_isRefused {entry : Entry} (h : entry.IsRefused key) :
    s.importEntry key entry = .error (.invalidName key) := by
  obtain ⟨v, rfl, hnull, hname⟩ := h
  simp [importEntry, set, hname, Except.map]

/-- An import of which no entry is refused succeeds. -/
theorem importAll_fst_of_not_isRefused {entries : List (String × Entry)}
    (h : ∀ e ∈ entries, ¬ e.2.IsRefused e.1) : (s.importAll entries).1 = .ok () := by
  induction entries generalizing s with
  | nil => rfl
  | cons e rest ih =>
    obtain ⟨hfirst, hrest⟩ := List.forall_mem_cons.1 h
    obtain ⟨next, hnext⟩ := importEntry_of_not_isRefused (s := s) hfirst
    simp only [importAll, hnext]
    exact ih hrest

/-- An import stops at the first entry that is refused. -/
theorem importAll_of_isRefused {before : List (String × Entry)} {entry : Entry}
    (hbefore : ∀ e ∈ before, ¬ e.2.IsRefused e.1) (h : entry.IsRefused key)
    (after : List (String × Entry)) :
    s.importAll (before ++ (key, entry) :: after) =
      (.error (.invalidName key), (s.importAll before).2) := by
  have hfirst := importAll_fst_of_not_isRefused (s := s) hbefore
  rw [importAll_append]
  cases hresult : s.importAll before with
  | mk result next =>
    obtain rfl : result = .ok () := by simpa [hresult] using hfirst
    simp [importAll, importEntry_of_isRefused h]

end Session

/-- The first entry that is refused, if there is one. -/
theorem exists_first_isRefused {entries : List (String × Entry)}
    (h : ¬ ∀ e ∈ entries, ¬ e.2.IsRefused e.1) :
    ∃ before key entry after, entries = before ++ (key, entry) :: after ∧
      (∀ e ∈ before, ¬ e.2.IsRefused e.1) ∧ entry.IsRefused key := by
  induction entries with
  | nil => simp at h
  | cons e rest ih =>
    by_cases hfirst : e.2.IsRefused e.1
    · exact ⟨[], e.1, e.2, rest, rfl, by simp, hfirst⟩
    · obtain ⟨before, key, entry, after, rfl, hbefore, hentry⟩ :=
        ih fun hrest => h (List.forall_mem_cons.2 ⟨hfirst, hrest⟩)
      exact ⟨e :: before, key, entry, after, rfl, List.forall_mem_cons.2 ⟨hfirst, hbefore⟩, hentry⟩

namespace Store

/-- The single operations of a list of entries, in order. -/
def entrySteps (m : MapId) (entries : List (String × Entry)) : List Operation :=
  entries.filterMap fun e => e.2.operation? m e.1

/-- Puts a copy of a holder under a key of a map, whatever the key is and whatever stands there. -/
def storeCopy (store : Store) (m : MapId) (key : String) (id : HolderId) : Store :=
  let (copy, made) := store.cloneHolder id
  (made.modifyMap m fun a => { a with table := a.table.insert key copy }).publish m
    (.imported key copy)

variable (store : Store) {m : MapId}

theorem importSteps_of_not_isRefused {entries : List (String × Entry)}
    (h : ∀ e ∈ entries, ¬ e.2.IsRefused e.1) : importSteps m entries = entrySteps m entries := by
  fun_induction importSteps m entries with
  | case1 => rfl
  | case2 key rest ih => exact ih (List.forall_mem_cons.1 h).2
  | case3 key v rest hnull hname ih =>
    rw [ih (List.forall_mem_cons.1 h).2, entrySteps, entrySteps, List.filterMap_cons]
    simp [Entry.operation?]
  | case4 key v rest hnull hname =>
    exact absurd ⟨v, rfl, by simpa using hnull, hname⟩ (h (key, .value v) List.mem_cons_self)
  | case5 key id rest ih =>
    rw [ih (List.forall_mem_cons.1 h).2]
    rfl

/-- An import emits what its steps emit. -/
theorem emitted_importAll (hm : store.HasMap m) (entries : List (String × Entry)) :
    store.emitted m (.write m (.importAll entries)) = store.history m (importSteps m entries) := by
  have hhistory := store.history_unbundled hm [.write m (.importAll entries)]
  simpa [unbundled, steps, history] using hhistory.symm

/-- Without refused entries an import succeeds and does what its entries do. -/
theorem importAll_of_not_isRefused (hm : store.HasMap m) {entries : List (String × Entry)}
    (h : ∀ e ∈ entries, ¬ e.2.IsRefused e.1) :
    store.importAll m entries = (.ok (), store.run (entrySteps m entries)) ∧
      store.emitted m (.write m (.importAll entries)) =
        store.history m (entrySteps m entries) := by
  rw [store.emitted_importAll hm, ← importSteps_of_not_isRefused h, ← commit_importAll]
  exact ⟨Prod.ext (Session.importAll_fst_of_not_isRefused h) rfl, rfl⟩

/-- A refused entry ends an import: nothing of it or of what follows is done. -/
theorem importAll_of_isRefused {before : List (String × Entry)} {key : String} {entry : Entry}
    (hbefore : ∀ e ∈ before, ¬ e.2.IsRefused e.1) (h : entry.IsRefused key)
    (after : List (String × Entry)) :
    store.importAll m (before ++ (key, entry) :: after) =
        (.error (.invalidName key), (store.importAll m before).2) ∧
      store.emitted m (.write m (.importAll (before ++ (key, entry) :: after))) =
        store.emitted m (.write m (.importAll before)) := by
  have hsession := Session.importAll_of_isRefused (s := store.session m) hbefore h after
  simp only [importAll, emitted, Session.apply, hsession, and_self]

theorem importAll_fst_eq_ok_iff (hm : store.HasMap m) (entries : List (String × Entry)) :
    (store.importAll m entries).1 = .ok () ↔ ∀ e ∈ entries, ¬ e.2.IsRefused e.1 := by
  refine ⟨fun hok => ?_, fun h => by rw [(store.importAll_of_not_isRefused hm h).1]⟩
  by_contra h
  obtain ⟨before, key, entry, after, rfl, hbefore, hentry⟩ := exists_first_isRefused h
  simp [(store.importAll_of_isRefused hbefore hentry after).1] at hok

/-- Importing entries is importing the first ones and, if they succeed, the others. -/
theorem importAll_append (hm : store.HasMap m) (first second : List (String × Entry)) :
    store.importAll m (first ++ second) =
      match store.importAll m first with
      | (.ok (), next) => next.importAll m second
      | (.error e, next) => (.error e, next) := by
  simp only [importAll, Session.importAll_append]
  cases hfirst : (store.session m).importAll first with
  | mk result next =>
    cases result with
    | error e => rfl
    | ok _ =>
      simp only
      rw [session_commit store m next hm, commit_commit, Session.importAll_restart next]

private theorem modify_congr {α : Type} {values : Array α} {i : Nat} {change other : α → α}
    (h : ∀ a, values[i]? = some a → change a = other a) :
    values.modify i change = values.modify i other := by
  refine Array.ext_getElem? fun j => ?_
  rw [Array.getElem?_modify, Array.getElem?_modify]
  split
  next heq => exact heq ▸ Option.map_congr h
  next => rfl

/-- Importing a single holder stores a copy of it, which one event tells. -/
theorem apply_importHolder_eq_storeCopy (hm : store.HasMap m) (key : String) (id : HolderId) :
    store.apply (.write m (.importAll [(key, .holder id)])) = store.storeCopy m key id := by
  have hmaps : (store.maps.modify m.index fun a =>
      { a with table := (store.table m).insert key store.pool.nextId }) =
      store.maps.modify m.index fun a =>
        { a with table := a.table.insert key store.pool.nextId } := by
    refine modify_congr fun a ha => ?_
    simp [table, map, Array.getD_eq_getD_getElem?, ha]
  rw [apply_importHolder, commit, if_pos hm]
  simp only [storeCopy, cloneHolder, modifyMap, ← hmaps]
  rfl

/-- An import succeeds if no entry is refused, and does then what its entries do in order.
Otherwise the first refused entry gives the error, and what was done is what the entries before it
do.  One list behind another is imported by importing the first one and, if this succeeds, the
second one. -/
theorem importAll_isSequential {store : Store} {m : MapId} (hm : store.HasMap m) :
    (∀ entries, (store.importAll m entries).1 = .ok () ↔ ∀ e ∈ entries, ¬ e.2.IsRefused e.1) ∧
      (∀ entries, (∀ e ∈ entries, ¬ e.2.IsRefused e.1) →
        (store.importAll m entries).2 = store.run (entrySteps m entries) ∧
          store.emitted m (.write m (.importAll entries)) =
            store.history m (entrySteps m entries)) ∧
      (∀ before key entry after, (∀ e ∈ before, ¬ e.2.IsRefused e.1) → entry.IsRefused key →
        store.importAll m (before ++ (key, entry) :: after) =
            (.error (.invalidName key), (store.importAll m before).2) ∧
          store.emitted m (.write m (.importAll (before ++ (key, entry) :: after))) =
            store.emitted m (.write m (.importAll before))) ∧
      (∀ key id, store.apply (.write m (.importAll [(key, .holder id)])) =
          store.storeCopy m key id ∧
        store.emitted m (.write m (.importAll [(key, .holder id)])) =
          [.imported key store.pool.nextId]) ∧
      (∀ first second, store.importAll m (first ++ second) =
        match store.importAll m first with
        | (.ok (), next) => next.importAll m second
        | (.error e, next) => (.error e, next)) ∧
      ∀ values, store.setAll m values =
        store.importAll m (values.map fun pair => (pair.1, .value pair.2)) := by
  refine ⟨store.importAll_fst_eq_ok_iff hm, fun entries h => ?_, fun before key entry after => ?_,
    fun key id => ?_, store.importAll_append hm, fun values => rfl⟩
  · obtain ⟨himport, hemitted⟩ := store.importAll_of_not_isRefused hm h
    exact ⟨congrArg Prod.snd himport, hemitted⟩
  · exact fun hbefore h => store.importAll_of_isRefused hbefore h after
  · exact ⟨store.apply_importHolder_eq_storeCopy hm key id, if_pos rfl⟩

/-- A locked holder is copied under a name and under something that is none, the plain value behind
it meets the lock, and a plain value under no name ends the import. -/
theorem importAll_of_locked_copy :
    (empty.run [.build {}, .newHolder .null .basic, .lock ⟨0⟩]).HasMap ⟨0⟩ ∧
      (empty.run [.build {}, .newHolder .null .basic, .lock ⟨0⟩]).importAll ⟨0⟩
          [("1", .value .null), ("a", .holder ⟨0⟩), ("a", .value (.bool true)),
            ("1", .holder ⟨0⟩), ("2", .value (.bool true)), ("b", .value (.bool true))] =
        (.error (.invalidName "2"),
          ((empty.run [.build {}, .newHolder .null .basic, .lock ⟨0⟩]).importAll ⟨0⟩
            [("1", .value .null), ("a", .holder ⟨0⟩), ("a", .value (.bool true)),
              ("1", .holder ⟨0⟩)]).2) := by
  have hm : (empty.run [.build {}, .newHolder .null .basic, .lock ⟨0⟩]).HasMap ⟨0⟩ := by decide
  have hname : IsValidName "a" ∧ ¬ IsValidName "2" := by decide
  have hstop := (importAll_isSequential hm).2.2.1 [("1", .value .null), ("a", .holder ⟨0⟩),
    ("a", .value (.bool true)), ("1", .holder ⟨0⟩)] "2" (.value (.bool true))
    [("b", .value (.bool true))] (by simp [Entry.IsRefused, hname.1])
    ⟨.bool true, rfl, by simp, hname.2⟩
  exact ⟨hm, hstop.1⟩

end Store

end AttributeStore
