import AttributeStore.Proofs.Identity
import AttributeStore.Proofs.Import
import AttributeStore.Proofs.Listing

/-!
# The order of writes

What a slot shows after a write depends on what it showed before, on the write, and on the holder
that is copied into it.  No write changes a holder that exists, so writes to different slots may be
done in any order.  An import under distinct keys consists of such writes, and whether it succeeds
does not depend on their order either.

## Main definitions

* `SlotWrite`, `SlotWrite.outcome`: the writes to a single slot and what the slot shows afterwards.
* `Store.SameContents`: stores whose maps show the same.
* `Store.AgreesWith`: imports that both succeed with the same contents or are both refused.

## Main results

* `Store.get?_contents_slotWrite`, `Store.get?_contents_run`: what all slots show after one write
  and after many.
* `Store.contents_order_free`: the order of writes to different slots does not matter.
-/

namespace AttributeStore

/-! ### Writes to a single slot -/

/-- A change of what stands in a slot. -/
inductive SlotChange where
  /-- A plain value is written. -/
  | set (v : Value)
  /-- The holder is taken out. -/
  | unset
  /-- A holder is imported. -/
  | importHolder (id : HolderId)

/-- A write to a single slot. -/
structure SlotWrite where
  /-- The map of the slot. -/
  map : MapId
  /-- The key of the slot. -/
  key : String
  /-- What is done to the slot. -/
  change : SlotChange

namespace SlotWrite

/-- The slot of a write. -/
def slot (w : SlotWrite) : MapId × String := (w.map, w.key)

/-- The write as an operation. -/
def operation (w : SlotWrite) : Operation :=
  match w.change with
  | .set v => .write w.map (.set w.key v)
  | .unset => .write w.map (.unset w.key)
  | .importHolder id => .write w.map (.importAll [(w.key, .holder id)])

/-- What the slot shows after a write, if it showed `shown` before and the holders had the states
`holder`. -/
def outcome (w : SlotWrite) (holder : HolderId → Holder) (shown : Option Holder) : Option Holder :=
  match w.change with
  | .set v =>
    if IsValidName w.key ∧ ∀ old ∈ shown, old.locked = false then some (.superseding shown v)
    else shown
  | .unset => none
  | .importHolder id => some (holder id)

/-- A write that a caller can make: its map exists, and so does the holder that it imports. -/
structure IsPossible (w : SlotWrite) (store : Store) : Prop where
  hasMap : store.HasMap w.map
  issued : ∀ id, w.change = .importHolder id → id.index < store.pool.size

end SlotWrite

namespace Store

variable {store : Store} {m : MapId} {key : String}

theorem isSingle_operation (w : SlotWrite) : w.operation.IsSingle := by
  obtain ⟨m, key, change⟩ := w
  cases change with
  | importHolder id => exact ⟨key, id, rfl⟩
  | _ => trivial

theorem isOpen_iff_contents :
    store.IsOpen m key ↔ ∀ old ∈ (store.contents m).get? key, old.locked = false := by
  simp [IsOpen, get?_contents]

/-- A plain write that is not accepted leaves its slot as it is. -/
private theorem get?_contents_set_of_not (hstore : store.Unaliased)
    (hnot : ¬ (IsValidName key ∧ store.IsOpen m key)) (v : Value) :
    ((store.apply (.write m (.set key v))).contents m).get? key =
      (store.contents m).get? key := by
  have hsingle : (Operation.write m (.set key v)).IsSingle := trivial
  have hslot : (store.apply (.write m (.set key v))).holder? m key = store.holder? m key := by
    refine store.holder?_apply_of_kept hsingle (fun new hfills => ?_) fun hdrops => ?_
    · obtain ⟨_, hm, hname, hopen⟩ := hfills
      exact hnot ⟨hname, hopen⟩
    · cases hdrops
  rw [get?_contents, get?_contents, hslot]
  exact Option.map_congr fun id hid => store.holder_apply hsingle (hstore.issued hid)

/-- What a slot shows after a write to it. -/
theorem get?_contents_slotWrite (hstore : store.Unaliased) {w : SlotWrite}
    (hm : store.HasMap w.map) :
    ((store.apply w.operation).contents w.map).get? w.key =
      w.outcome store.holder ((store.contents w.map).get? w.key) := by
  have hfilled {step : Operation} {new : Holder} (h : store.Fills w.map w.key step new) :
      ((store.apply step).contents w.map).get? w.key = some new := by
    rw [get?_contents, store.holder?_apply_of_fills h, Option.map_some,
      store.holder_apply_of_fills h]
  obtain ⟨m, key, change⟩ := w
  cases change with
  | set v =>
    simp only [SlotWrite.outcome, SlotWrite.operation]
    split
    next h => rw [hfilled (.set v hm h.1 (isOpen_iff_contents.2 h.2)), ← get?_contents]
    next h =>
      exact get?_contents_set_of_not hstore (mt (And.imp_right isOpen_iff_contents.1) h) v
  | unset =>
    rw [get?_contents]
    exact congrArg (Option.map _) (store.holder?_apply_of_drops .unset)
  | importHolder id => exact hfilled (.importHolder id hm)

/-- A write leaves all slots but its own as they are. -/
theorem get?_contents_slotWrite_of_ne (hstore : store.Unaliased) {w : SlotWrite}
    (hne : w.slot ≠ (m, key)) :
    ((store.apply w.operation).contents m).get? key = (store.contents m).get? key := by
  refine (apply_single_of_not_concerns hstore (isSingle_operation w) fun hconcerns => hne ?_).2
  obtain ⟨m', key', change⟩ := w
  cases change with
  | importHolder id =>
    obtain ⟨rfl, entry, hentry, -⟩ := hconcerns
    rw [(Prod.mk.inj (List.mem_singleton.1 hentry)).1]
    rfl
  | _ =>
    obtain ⟨rfl, rfl⟩ := hconcerns
    rfl

/-- A write changes no holder that exists, so what can be done before it can be done after it, with
the same outcome. -/
private theorem isPossible_apply {first w : SlotWrite} (h : w.IsPossible store) :
    w.IsPossible (store.apply first.operation) ∧
      ∀ shown, w.outcome (store.apply first.operation).holder shown =
        w.outcome store.holder shown := by
  have hsingle := isSingle_operation first
  refine ⟨⟨store.hasMap_apply h.hasMap _, fun id hid => ?_⟩, fun shown => ?_⟩
  · exact Nat.lt_of_lt_of_le (h.issued id hid) (store.size_le_size_apply hsingle)
  · obtain ⟨m, key, change⟩ := w
    cases change with
    | importHolder id =>
      have hkept : (store.apply first.operation).holder id = store.holder id := by
        rw [store.holder_apply hsingle (h.issued id rfl)]
        obtain ⟨_, _, change⟩ := first
        cases change <;> rfl
      exact congrArg some hkept
    | _ => rfl

/-- After writes to different slots each of these shows the outcome of its own write, and all others
show what they showed before. -/
theorem get?_contents_run (hstore : store.Unaliased) {writes : List SlotWrite}
    (hpossible : ∀ w ∈ writes, w.IsPossible store) (hdistinct : (writes.map SlotWrite.slot).Nodup) :
    (∀ w ∈ writes, ((store.run (writes.map SlotWrite.operation)).contents w.map).get? w.key =
        w.outcome store.holder ((store.contents w.map).get? w.key)) ∧
      ∀ m key, (m, key) ∉ writes.map SlotWrite.slot →
        ((store.run (writes.map SlotWrite.operation)).contents m).get? key =
          (store.contents m).get? key := by
  induction writes generalizing store with
  | nil => exact ⟨by simp, fun m key _ => rfl⟩
  | cons first rest ih =>
    obtain ⟨hfirst, hrest⟩ := List.forall_mem_cons.1 hpossible
    obtain ⟨hnew, hdistinct⟩ := List.nodup_cons.1 hdistinct
    obtain ⟨hin, hout⟩ := ih (hstore.apply (isSingle_operation first))
      (fun w hw => (isPossible_apply (hrest w hw)).1) hdistinct
    constructor
    · intro w hw
      rcases List.mem_cons.1 hw with rfl | hw
      · exact (hout w.map w.key hnew).trans (get?_contents_slotWrite hstore hfirst.hasMap)
      · have hne : first.slot ≠ (w.map, w.key) := fun heq =>
          hnew (heq ▸ List.mem_map_of_mem hw)
        refine (hin w hw).trans ?_
        rw [(isPossible_apply (hrest w hw)).2, get?_contents_slotWrite_of_ne hstore hne]
    · intro m key hslot
      obtain ⟨hne, hslot⟩ := not_or.1 (mt List.mem_cons.2 hslot)
      exact (hout m key hslot).trans (get?_contents_slotWrite_of_ne hstore (Ne.symm hne))

/-! ### Orders -/

/-- Two stores whose maps show the same. -/
def SameContents (store other : Store) : Prop := ∀ m, store.contents m = other.contents m

/-- Writes to different slots may be done in any order. -/
theorem sameContents_of_perm (hstore : store.Unaliased) {writes writes' : List SlotWrite}
    (hperm : writes.Perm writes') (hpossible : ∀ w ∈ writes, w.IsPossible store)
    (hdistinct : (writes.map SlotWrite.slot).Nodup) :
    (store.run (writes.map SlotWrite.operation)).SameContents
      (store.run (writes'.map SlotWrite.operation)) := by
  have hslots := hperm.map SlotWrite.slot
  obtain ⟨hin, hout⟩ := get?_contents_run hstore hpossible hdistinct
  obtain ⟨hin', hout'⟩ := get?_contents_run hstore
    (fun w hw => hpossible w (hperm.mem_iff.2 hw)) (hslots.nodup_iff.1 hdistinct)
  refine fun m => Dict.ext_get? fun key => ?_
  by_cases hslot : (m, key) ∈ writes.map SlotWrite.slot
  · obtain ⟨w, hw, hplace⟩ := List.mem_map.1 hslot
    obtain ⟨rfl, rfl⟩ := Prod.mk.inj hplace
    rw [hin w hw, hin' w (hperm.mem_iff.1 hw)]
  · rw [hout m key hslot, hout' m key fun h => hslot (hslots.mem_iff.2 h)]

end Store

/-! ### Imports -/

/-- What an entry of an import does to its slot.  A plain null does nothing. -/
def Entry.slotWrite? (m : MapId) (key : String) : Entry → Option SlotWrite
  | .value .null => none
  | .value v => some ⟨m, key, .set v⟩
  | .holder id => some ⟨m, key, .importHolder id⟩

/-- The writes to single slots that the entries of an import are. -/
def slotWrites (m : MapId) (entries : List (String × Entry)) : List SlotWrite :=
  entries.filterMap fun e => e.2.slotWrite? m e.1

theorem Entry.slot_eq_of_slotWrite? {m : MapId} {key : String} {entry : Entry} {w : SlotWrite}
    (h : entry.slotWrite? m key = some w) :
    w.slot = (m, key) ∧ ∀ id, w.change = .importHolder id → entry = .holder id := by
  unfold slotWrite? at h
  split at h
  · simp at h
  · obtain rfl := Option.some.inj h
    exact ⟨rfl, by simp⟩
  · obtain rfl := Option.some.inj h
    exact ⟨rfl, fun id hid => congrArg Entry.holder (SlotChange.importHolder.inj hid)⟩

namespace Store

variable {store : Store} {m : MapId}

theorem entrySteps_eq_map_slotWrites (m : MapId) (entries : List (String × Entry)) :
    entrySteps m entries = (slotWrites m entries).map SlotWrite.operation := by
  rw [entrySteps, slotWrites, List.map_filterMap]
  refine List.filterMap_congr fun e _ => ?_
  obtain ⟨key, entry⟩ := e
  cases entry with
  | holder id => rfl
  | value v => cases v <;> rfl

theorem nodup_slotWrites {entries : List (String × Entry)} (hkeys : (entries.map Prod.fst).Nodup) :
    ((slotWrites m entries).map SlotWrite.slot).Nodup := by
  refine List.pairwise_map.2 ((List.pairwise_map.1 hkeys).filterMap _ ?_)
  intro e e' hne w hw w' hw' hslot
  rw [(Entry.slot_eq_of_slotWrite? hw).1, (Entry.slot_eq_of_slotWrite? hw').1] at hslot
  exact hne (Prod.mk.inj hslot).2

theorem isPossible_of_mem_slotWrites {entries : List (String × Entry)} (hm : store.HasMap m)
    (hissued : ∀ key id, (key, .holder id) ∈ entries → id.index < store.pool.size) :
    ∀ w ∈ slotWrites m entries, w.IsPossible store := by
  intro w hw
  obtain ⟨⟨key, entry⟩, hmem, hwrite⟩ := List.mem_filterMap.1 hw
  obtain ⟨hslot, himport⟩ := Entry.slot_eq_of_slotWrite? hwrite
  refine ⟨(Prod.mk.inj hslot).1 ▸ hm, fun id hid => hissued key id ?_⟩
  rw [← himport id hid]
  exact hmem

/-- Two imports that both succeed with the same contents or that both meet something that is no
name. -/
def AgreesWith (first second : Except AttributeError Unit × Store) : Prop :=
  (first.1 = .ok () ∧ second.1 = .ok () ∧ first.2.SameContents second.2) ∨
    ∃ key key', first.1 = .error (.invalidName key) ∧ second.1 = .error (.invalidName key')

/-- An import that does not succeed meets something that is no name. -/
theorem importAll_fst_of_isRefused (store : Store) (m : MapId) {entries : List (String × Entry)}
    (h : ¬ ∀ e ∈ entries, ¬ e.2.IsRefused e.1) :
    ∃ key, (store.importAll m entries).1 = .error (.invalidName key) := by
  obtain ⟨before, key, entry, after, rfl, hbefore, hentry⟩ := exists_first_isRefused h
  exact ⟨key, congrArg Prod.fst (store.importAll_of_isRefused hbefore hentry after).1⟩

theorem importAll_agreesWith (hstore : store.Unaliased) (hm : store.HasMap m)
    {entries entries' : List (String × Entry)} (hperm : entries.Perm entries')
    (hkeys : (entries.map Prod.fst).Nodup)
    (hissued : ∀ key id, (key, .holder id) ∈ entries → id.index < store.pool.size) :
    AgreesWith (store.importAll m entries) (store.importAll m entries') := by
  have hsame : (∀ e ∈ entries, ¬ e.2.IsRefused e.1) ↔ ∀ e ∈ entries', ¬ e.2.IsRefused e.1 :=
    forall_congr' fun e => imp_congr hperm.mem_iff Iff.rfl
  by_cases hrefused : ∀ e ∈ entries, ¬ e.2.IsRefused e.1
  · rw [(store.importAll_of_not_isRefused hm hrefused).1,
      (store.importAll_of_not_isRefused hm (hsame.1 hrefused)).1]
    refine .inl ⟨rfl, rfl, ?_⟩
    simp only [entrySteps_eq_map_slotWrites]
    exact sameContents_of_perm hstore (hperm.filterMap _)
      (isPossible_of_mem_slotWrites hm hissued) (nodup_slotWrites hkeys)
  · obtain ⟨key, hkey⟩ := store.importAll_fst_of_isRefused m hrefused
    obtain ⟨key', hkey'⟩ := store.importAll_fst_of_isRefused m (mt hsame.2 hrefused)
    exact .inr ⟨key, key', hkey, hkey'⟩

/-- To make a map of values is to make one without entries and to import the values into it. -/
theorem ofValues_eq_importAll (store : Store) (values : List (String × Value)) :
    store.ofValues values =
      ((store.apply (.build {})).importAll ⟨store.maps.size⟩ (plainEntries values)).1.map fun _ =>
        (⟨store.maps.size⟩,
          ((store.apply (.build {})).importAll ⟨store.maps.size⟩ (plainEntries values)).2) := by
  rw [apply_build_of_values_eq_nil store rfl]
  change store.build { values } = _
  simp only [build, setAll, addMap, MapPlan.emptyMap]
  generalize Store.importAll _ _ (plainEntries values) = filled
  obtain ⟨result, after⟩ := filled
  cases result <;> rfl

/-- A map can be made of values in every order or in none, and it shows the same. -/
theorem ofValues_perm (hstore : store.Unaliased) {values values' : List (String × Value)}
    (hperm : values.Perm values') (hkeys : (values.map Prod.fst).Nodup) :
    (∃ m built built', store.ofValues values = .ok (m, built) ∧
      store.ofValues values' = .ok (m, built') ∧ built.SameContents built') ∨
    ∃ key key', store.ofValues values = .error (.invalidName key) ∧
      store.ofValues values' = .error (.invalidName key') := by
  have hsingle : (Operation.build {}).IsSingle := rfl
  have hadded : (store.apply (.build {})).Unaliased := hstore.apply hsingle
  have hm : (store.apply (.build {})).HasMap ⟨store.maps.size⟩ := by
    rw [apply_build_of_values_eq_nil store rfl]
    simp [HasMap, addMap]
  have hkeys' : ((plainEntries values).map Prod.fst).Nodup := by
    simpa [plainEntries, Function.comp_def] using hkeys
  have hissued : ∀ key id, (key, Entry.holder id) ∈ plainEntries values →
      id.index < (store.apply (.build {})).pool.size := by simp [plainEntries]
  simp only [ofValues_eq_importAll]
  rcases importAll_agreesWith hadded hm (hperm.map _) hkeys' hissued with
    ⟨hok, hok', hcontents⟩ | ⟨key, key', herror, herror'⟩
  · refine .inl ⟨⟨store.maps.size⟩, _, _, ?_, ?_, hcontents⟩
    · rw [plainEntries, hok]
      rfl
    · rw [plainEntries, hok']
      rfl
  · refine .inr ⟨key, key', ?_, ?_⟩
    · rw [plainEntries, herror]
      rfl
    · rw [plainEntries, herror']
      rfl

/-- The order of writes to different slots does not matter.  An import under distinct keys of
holders that exist succeeds in every order of its entries or in none, and what all maps show after
it does not depend on the order.  Neither does what they show after two writes to different slots,
or after the making of a map of values under distinct keys. -/
theorem contents_order_free {store : Store} (hstore : store.Reachable) :
    (∀ m entries entries', store.HasMap m → entries.Perm entries' →
      (entries.map Prod.fst).Nodup →
      (∀ key id, (key, .holder id) ∈ entries → id.index < store.pool.size) →
        AgreesWith (store.importAll m entries) (store.importAll m entries')) ∧
      (∀ w w' : SlotWrite, w.IsPossible store → w'.IsPossible store → w.slot ≠ w'.slot →
        ((store.apply w.operation).apply w'.operation).SameContents
          ((store.apply w'.operation).apply w.operation)) ∧
      ∀ values values', values.Perm values' → (values.map Prod.fst).Nodup →
        (∃ m built built', store.ofValues values = .ok (m, built) ∧
          store.ofValues values' = .ok (m, built') ∧ built.SameContents built') ∨
        ∃ key key', store.ofValues values = .error (.invalidName key) ∧
          store.ofValues values' = .error (.invalidName key') := by
  refine ⟨fun m entries entries' hm hperm hkeys hissued =>
    importAll_agreesWith hstore.unaliased hm hperm hkeys hissued,
    fun w w' hw hw' hne => ?_, fun values values' hperm hkeys =>
      ofValues_perm hstore.unaliased hperm hkeys⟩
  exact sameContents_of_perm hstore.unaliased (List.Perm.swap w' w [])
    (by simp [hw, hw']) (by simpa using hne)

/-- A plain value meets a lock, the locked holder is copied over another one of the same map, which
is copied too, and all of this may be done in any order. -/
theorem contents_order_free_of_locked_key :
    (empty.run [.build {}, .write ⟨0⟩ (.set "a" .null), .lock ⟨0⟩,
      .write ⟨0⟩ (.set "b" .null)]).HasMap ⟨0⟩ ∧
    AgreesWith
      ((empty.run [.build {}, .write ⟨0⟩ (.set "a" .null), .lock ⟨0⟩,
        .write ⟨0⟩ (.set "b" .null)]).importAll ⟨0⟩
          [("a", .value (.bool true)), ("b", .holder ⟨0⟩), ("c", .holder ⟨1⟩), ("d", .value .null)])
      ((empty.run [.build {}, .write ⟨0⟩ (.set "a" .null), .lock ⟨0⟩,
        .write ⟨0⟩ (.set "b" .null)]).importAll ⟨0⟩
          [("d", .value .null), ("c", .holder ⟨1⟩), ("b", .holder ⟨0⟩),
            ("a", .value (.bool true))]) := by
  have hm : (empty.run [.build {}, .write ⟨0⟩ (.set "a" .null), .lock ⟨0⟩,
      .write ⟨0⟩ (.set "b" .null)]).HasMap ⟨0⟩ := by decide
  have hsize : (empty.run [.build {}, .write ⟨0⟩ (.set "a" .null), .lock ⟨0⟩,
      .write ⟨0⟩ (.set "b" .null)]).pool.size = 2 := by decide
  refine ⟨hm, (contents_order_free ⟨_, rfl⟩).1 ⟨0⟩ _ _ hm (List.reverse_perm _).symm (by decide)
    fun key id hmem => ?_⟩
  rw [hsize]
  simp only [List.mem_cons, Prod.mk.injEq, Entry.holder.injEq, reduceCtorEq, and_false, false_or,
    List.not_mem_nil, or_false] at hmem
  rcases hmem with ⟨-, rfl⟩ | ⟨-, rfl⟩ <;> decide

end Store

end AttributeStore
