import AttributeStore.Proofs.Identity
import AttributeStore.Proofs.Listing

/-!
# The permission to export

The tenure of a slot begins when a plain write fills it while it is empty, or when a holder is
imported into it.  At the end of a run the value in the slot may be exported if and only if the
tenure began with the import of a holder that was marked by then, or the holder in the slot was
marked at some time of the tenure.  What was marked elsewhere or earlier does not count.

## Main definitions

* `Store.BeginsTenure`, `Store.IsTenure`: the last beginning of a run and what follows it.
* `Store.Permitted`: what permits the export in a tenure.
* `Contents.Exports`: what the exports of a map have under a key.
* `Store.HandsOn`: what single operations do to the permission.

## Main results

* `Store.persistable_apply_of_beginsTenure`, `Store.persistable_apply_of_not_beginsTenure`: the
  permission after a single operation.
* `Store.exists_isTenure`, `Store.persistable_iff_permitted`: filled slots have a tenure, and their
  permission comes from it.
* `Store.export_iff_permitted`: what is exported after a run.
-/

namespace AttributeStore

/-! ### Exports -/

namespace Contents

/-- The exports of a map have one value under a key if this is permitted, and otherwise nothing.
This is said of the export, of the snapshot and of the JSON tree of the snapshot, in whatever order
the map is listed. -/
structure Exports (c : Contents) (key : String) (permitted : Prop) (v : Value) : Prop where
  serializable : ∀ w, c.serializable.get? key = some w ↔ permitted ∧ w = v
  snapshotValues : ∀ (listing : c.Listing) (w : Value),
    (c.snapshotValues listing).get? key = some w ↔ permitted ∧ w = v
  snapshot : ∀ (listing : c.Listing) (j : Json),
    (∃ fields, c.snapshot listing = .object fields ∧ (key, j) ∈ fields) ↔
      permitted ∧ j = v.toJson

variable {c : Contents} {key : String}

/-- The JSON tree of a snapshot shows what the snapshot has. -/
theorem mem_fields_snapshot_iff (listing : c.Listing) (j : Json) :
    (∃ fields, c.snapshot listing = .object fields ∧ (key, j) ∈ fields) ↔
      ∃ v, (c.snapshotValues listing).get? key = some v ∧ v.toJson = j := by
  simp [snapshot, Dict.get?_eq_some_iff]

/-- What the export has under a key, the snapshot has too. -/
theorem exports_of_serializable {permitted : Prop} {v : Value}
    (h : ∀ w, c.serializable.get? key = some w ↔ permitted ∧ w = v) :
    c.Exports key permitted v where
  serializable := h
  snapshotValues listing := by
    rw [snapshotValues_eq_serializable]
    exact h
  snapshot listing j := by
    simp only [mem_fields_snapshot_iff, snapshotValues_eq_serializable, h]
    constructor
    · rintro ⟨w, ⟨hpermitted, rfl⟩, rfl⟩
      exact ⟨hpermitted, rfl⟩
    · rintro ⟨hpermitted, rfl⟩
      exact ⟨v, ⟨hpermitted, rfl⟩, rfl⟩

end Contents

namespace Store

/-- A single operation that begins a tenure of a slot. -/
inductive BeginsTenure (store : Store) (m : MapId) (key : String) : Operation → Prop
  | set (v : Value) (hm : store.HasMap m) (hname : IsValidName key)
      (habsent : store.holder? m key = none) : BeginsTenure store m key (.write m (.set key v))
  | importHolder (id : HolderId) (hm : store.HasMap m) :
      BeginsTenure store m key (.write m (.importAll [(key, .holder id)]))

/-- A tenure of a slot, up to the end of a run of single operations: after the steps `before` it
begins with the step `opening`, and none of the steps `during` begins another one. -/
structure IsTenure (store : Store) (m : MapId) (key : String) (before : List Operation)
    (opening : Operation) (during : List Operation) : Prop where
  begins : (store.run before).BeginsTenure m key opening
  last : ∀ first step rest, during = first ++ step :: rest →
    ¬ (store.run (before ++ opening :: first)).BeginsTenure m key step

/-- What permits the export in a tenure: it begins with the import of a holder that is marked at
this moment, or a mark is put on the holder that stands in the slot at the moment of the mark. -/
def Permitted (store : Store) (m : MapId) (key : String) (before : List Operation)
    (opening : Operation) (during : List Operation) : Prop :=
  (∃ id, opening = .write m (.importAll [(key, .holder id)]) ∧
      ((store.run before).holder id).persistable = true) ∨
    ∃ first id rest, during = first ++ .markPersistable id :: rest ∧
      (store.run (before ++ opening :: first)).holder? m key = some id

variable {store : Store} {m : MapId} {key : String} {id : HolderId} {before during : List Operation}
  {opening step : Operation}

/-! ### Tenures -/

theorem holder?_apply_of_beginsTenure (h : store.BeginsTenure m key step) :
    (store.apply step).holder? m key = some store.pool.nextId := by
  cases h with
  | set v hm hname habsent =>
    exact store.holder?_apply_of_fills (.set v hm hname (store.isOpen_of_eq_none habsent))
  | importHolder id hm => exact store.holder?_apply_of_fills (.importHolder id hm)

/-- A slot that is filled after a step that begins no tenure of it was filled before. -/
theorem exists_holder?_of_not_beginsTenure (hsingle : step.IsSingle)
    (hnot : ¬ store.BeginsTenure m key step) (hslot : (store.apply step).holder? m key = some id) :
    ∃ old, store.holder? m key = some old := by
  rcases store.slot_cases m key hsingle with ⟨new, hfills⟩ | hdrops | ⟨-, hkept⟩
  · cases hfills with
    | set v hm hname hopen =>
      exact Option.ne_none_iff_exists'.1 fun habsent => hnot (.set v hm hname habsent)
    | importHolder id hm => exact absurd (.importHolder id hm) hnot
  · simp [store.holder?_apply_of_drops hdrops] at hslot
  · exact ⟨id, hkept ▸ hslot⟩

/-- A tenure is begun by the last step that begins one. -/
theorem isTenure_iff_isLast :
    store.IsTenure m key before opening during ↔
      IsLast (fun current step => current.BeginsTenure m key step) store before opening during :=
  ⟨fun h => ⟨h.begins, h.last⟩, fun h => ⟨h.holds, h.last⟩⟩

/-- A tenure goes on with every step that does not begin another. -/
theorem isTenure_append_singleton :
    store.IsTenure m key before opening (during ++ [step]) ↔
      store.IsTenure m key before opening during ∧
        ¬ (store.run (before ++ opening :: during)).BeginsTenure m key step := by
  simp only [isTenure_iff_isLast, isLast_append_singleton]

/-- A slot that a run has filled has a tenure. -/
theorem exists_isTenure (habsent : store.holder? m key = none) {steps : List Operation}
    (hsingle : ∀ step ∈ steps, step.IsSingle) (hslot : (store.run steps).holder? m key = some id) :
    ∃ before opening during, steps = before ++ opening :: during ∧
      store.IsTenure m key before opening during := by
  simp only [isTenure_iff_isLast]
  refine exists_isLast store (Q := fun current => ∃ old, current.holder? m key = some old)
    (fun current step hstep hnot hafter => ?_) (by simp [habsent]) hsingle ⟨id, hslot⟩
  obtain ⟨old, hold⟩ := hafter
  exact exists_holder?_of_not_beginsTenure hstep hnot hold

/-! ### The permission -/

/-- The permission of a new tenure is that of the holder whose copy begins it. -/
theorem persistable_apply_of_beginsTenure (h : store.BeginsTenure m key step)
    (hslot : (store.apply step).holder? m key = some id) :
    ((store.apply step).holder id).persistable = true ↔
      ∃ id', step = .write m (.importAll [(key, .holder id')]) ∧
        (store.holder id').persistable = true := by
  obtain rfl : store.pool.nextId = id := by
    simpa [holder?_apply_of_beginsTenure h] using hslot
  cases h with
  | set v hm hname habsent =>
    have hopen := store.isOpen_of_eq_none habsent
    rw [store.holder_apply_of_fills (.set v hm hname hopen), habsent]
    simp [Holder.superseding]
  | importHolder id' hm =>
    rw [store.holder_apply_of_fills (.importHolder id' hm)]
    simp

/-- Within a tenure the permission is handed on, and given by a mark on the holder in the slot. -/
theorem persistable_apply_of_not_beginsTenure (hstore : store.Unaliased) (hsingle : step.IsSingle)
    (hnot : ¬ store.BeginsTenure m key step) (hslot : (store.apply step).holder? m key = some id)
    {old : HolderId} (hold : store.holder? m key = some old) :
    ((store.apply step).holder id).persistable = true ↔
      (store.holder old).persistable = true ∨ step = .markPersistable old := by
  rcases store.slot_cases m key hsingle with ⟨new, hfills⟩ | hdrops | ⟨-, hkept⟩
  · obtain rfl : store.pool.nextId = id := by
      simpa [store.holder?_apply_of_fills hfills] using hslot
    rw [store.holder_apply_of_fills hfills]
    cases hfills with
    | set v hm hname hopen => simp [Holder.superseding, hold]
    | importHolder id' hm => exact absurd (.importHolder id' hm) hnot
  · simp [store.holder?_apply_of_drops hdrops] at hslot
  · obtain rfl : old = id := by simpa [hkept, hold] using hslot
    rw [store.holder_apply hsingle (hstore.issued hold)]
    cases step with
    | lock id' =>
      simp only [Operation.effectOn]
      split <;> simp [Holder.lock]
    | markPersistable id' =>
      by_cases hid : id' = old <;> simp [Operation.effectOn, Holder.markPersistable, hid]
    | _ => simp [Operation.effectOn]

/-- One more step permits the export if it marks the holder in the slot. -/
theorem permitted_append_singleton :
    store.Permitted m key before opening (during ++ [step]) ↔
      store.Permitted m key before opening during ∨
        ∃ id, step = .markPersistable id ∧
          (store.run (before ++ opening :: during)).holder? m key = some id := by
  constructor
  · rintro (himport | ⟨first, id, rest, hsplit, hslot⟩)
    · exact .inl (.inl himport)
    · rcases append_singleton_eq_append_cons hsplit with ⟨rfl, -, rfl⟩ | ⟨init, -, hinit⟩
      · exact .inr ⟨id, rfl, hslot⟩
      · exact .inl (.inr ⟨first, id, init, hinit, hslot⟩)
  · rintro ((himport | ⟨first, id, rest, rfl, hslot⟩) | ⟨id, rfl, hslot⟩)
    · exact .inl himport
    · exact .inr ⟨first, id, rest ++ [step], by simp, hslot⟩
    · exact .inr ⟨during, id, [], rfl, hslot⟩

/-- The holder that stands in a slot at the end of a tenure may be exported if the tenure permits
it, and otherwise it may not. -/
theorem persistable_iff_permitted (hstore : store.Unaliased)
    (hsingle : ∀ step ∈ during, step.IsSingle)
    (htenure : store.IsTenure m key before opening during)
    (hslot : (store.run (before ++ opening :: during)).holder? m key = some id) :
    ((store.run (before ++ opening :: during)).holder id).persistable = true ↔
      store.Permitted m key before opening during := by
  induction during using List.reverseRecOn generalizing id with
  | nil =>
    rw [run_append] at hslot ⊢
    refine (persistable_apply_of_beginsTenure htenure.begins hslot).trans ?_
    simp [Permitted]
  | append_singleton during step ih =>
    -- Without its last step the tenure is one of the slot as it was before this step.
    obtain ⟨hinit, hnot⟩ := isTenure_append_singleton.1 htenure
    rw [run_append_cons_append_singleton] at hslot ⊢
    have hstep := hsingle step (by simp)
    obtain ⟨old, hold⟩ := exists_holder?_of_not_beginsTenure hstep hnot hslot
    rw [persistable_apply_of_not_beginsTenure (hstore.run _) hstep hnot hslot hold,
      ih (fun s hs => hsingle s (List.mem_append_left _ hs)) hinit hold,
      permitted_append_singleton]
    simp [hold]

/-! ### What is exported -/

/-- The export shows the values of the marked holders. -/
theorem get?_serializable (store : Store) (m : MapId) (key : String) :
    (store.contents m).serializable.get? key =
      ((store.holder? m key).filter fun id => (store.holder id).persistable).map
        fun id => (store.holder id).value := by
  have hfilter : ((store.contents m).filter (·.persistable)).get? key =
      ((store.holder? m key).map store.holder).filter (·.persistable) := by
    rw [Dict.get?_filter, get?_contents]
  rw [Contents.serializable, Contents.values, Dict.get?_map, hfilter, Option.filter_map,
    Option.map_map]
  rfl

theorem get?_serializable_of_holder? (hslot : store.holder? m key = some id) :
    (store.contents m).serializable.get? key =
      if (store.holder id).persistable then some (store.holder id).value else none := by
  rw [get?_serializable, hslot, Option.filter_some]
  split <;> rfl

theorem contains_serializable_of_holder? (hslot : store.holder? m key = some id) :
    (store.contents m).serializable.contains key = (store.holder id).persistable := by
  rw [Dict.contains, get?_serializable_of_holder? hslot]
  cases (store.holder id).persistable <;> rfl

/-- What single operations do to the permission to export the slot in which a holder stands. -/
structure HandsOn (store : Store) (m : MapId) (key : String) (id : HolderId) : Prop where
  /-- A mark on another holder, such as a superseded one or the original of a copy, does nothing. -/
  mark : ∀ other, other ≠ id →
    ((store.markPersistable other).contents m).serializable.get? key =
      (store.contents m).serializable.get? key
  /-- Plain writes, stored or not, keep the permission. -/
  set : ∀ v, (store.contents m).serializable.contains key = true →
    ((store.set m key v).2.contents m).serializable.contains key = true
  /-- What is written to the slot after it was emptied has no permission. -/
  drops : ∀ step v, Operation.Drops m key step →
    (((store.apply step).set m key v).2.contents m).serializable.contains key = false
  /-- A holder that is imported brings its own permission. -/
  importAll : ∀ id', ((store.importAll m [(key, .holder id')]).2.contents m).serializable.contains
    key = (store.holder id').persistable

theorem handsOn (hstore : store.Unaliased) (hslot : store.holder? m key = some id) :
    store.HandsOn m key id where
  mark other hne := by
    have hsingle : (Operation.markPersistable other).IsSingle := trivial
    have hholder : (store.markPersistable other).holder id = store.holder id :=
      (store.holder_apply hsingle (hstore.issued hslot)).trans (if_neg hne)
    have hkept : (store.markPersistable other).holder? m key = some id := hslot
    rw [get?_serializable_of_holder? hkept, get?_serializable_of_holder? hslot, hholder]
  set v hcontains := by
    have hsingle : (Operation.write m (.set key v)).IsSingle := trivial
    have hnot : ¬ store.BeginsTenure m key (.write m (.set key v)) := by
      rintro ⟨⟩
      simp_all
    obtain ⟨new, hnew⟩ : ∃ new, (store.apply (.write m (.set key v))).holder? m key = some new := by
      rcases store.slot_cases m key hsingle with ⟨_, hfills⟩ | hdrops | ⟨-, hkept⟩
      · exact ⟨_, store.holder?_apply_of_fills hfills⟩
      · cases hdrops
      · exact ⟨id, hkept.trans hslot⟩
    rw [contains_serializable_of_holder? hslot] at hcontains
    rw [set_eq_apply, contains_serializable_of_holder? hnew]
    exact (persistable_apply_of_not_beginsTenure hstore hsingle hnot hnew hslot).2 (.inl hcontains)
  drops step v hdrops := by
    have hsingle : (Operation.write m (.set key v)).IsSingle := trivial
    have habsent := store.holder?_apply_of_drops hdrops
    rw [set_eq_apply]
    rcases (store.apply step).slot_cases m key hsingle with ⟨_, hfills⟩ | hdrops' | ⟨-, hkept⟩
    · have hnew := (store.apply step).holder?_apply_of_fills hfills
      obtain ⟨_, hm, hname, -⟩ := hfills
      rw [contains_serializable_of_holder? hnew, Bool.eq_false_iff]
      intro hpersistable
      have himport := (persistable_apply_of_beginsTenure (.set v hm hname habsent) hnew).1
        hpersistable
      simp at himport
    · cases hdrops'
    · rw [Dict.contains, get?_serializable, hkept, habsent]
      rfl
  importAll id' := by
    have hm := store.hasMap_of_holder? hslot
    have hbegins : store.BeginsTenure m key (.write m (.importAll [(key, .holder id')])) :=
      .importHolder id' hm
    rw [importAll_eq_apply,
      contains_serializable_of_holder? (holder?_apply_of_beginsTenure hbegins),
      store.holder_apply_of_fills (.importHolder id' hm)]

/-- In a tenure the export shows the present value if the tenure permits it, and nothing else. -/
theorem get?_serializable_iff_permitted (hstore : store.Unaliased) {operations : List Operation}
    (hsplit : store.unbundled operations = before ++ opening :: during)
    (htenure : store.IsTenure m key before opening during)
    (hslot : (store.run operations).holder? m key = some id) (v : Value) :
    ((store.run operations).contents m).serializable.get? key = some v ↔
      store.Permitted m key before opening during ∧
        v = ((store.run operations).holder id).value := by
  have hsingle : ∀ step ∈ during, step.IsSingle := by
    intro step hstep
    have hmem : step ∈ store.unbundled operations := by simp [hsplit, hstep]
    exact store.isSingle_of_mem_unbundled hmem
  have hpermitted : ((store.run operations).holder id).persistable = true ↔
      store.Permitted m key before opening during := by
    rw [← run_unbundled, hsplit] at hslot ⊢
    exact persistable_iff_permitted hstore hsingle htenure hslot
  rw [get?_serializable_of_holder? hslot, ← hpermitted]
  split
  next hmark => simp [hmark, eq_comm]
  next hmark => simp [hmark]

/-- At the end of a run that starts with an empty slot, a filled slot has a tenure.  Its value, and
no other, is exported if the tenure permits it, and nothing is exported otherwise.  From there on
the permission is handed on by plain writes to the slot alone. -/
theorem export_iff_permitted {store : Store} (hstore : store.Reachable) {m : MapId} {key : String}
    (habsent : store.holder? m key = none) {operations : List Operation} {id : HolderId}
    (hslot : (store.run operations).holder? m key = some id) :
    (∃ before opening during, store.unbundled operations = before ++ opening :: during ∧
        store.IsTenure m key before opening during) ∧
      (∀ before opening during, store.unbundled operations = before ++ opening :: during →
        store.IsTenure m key before opening during →
        ((store.run operations).contents m).Exports key
          (store.Permitted m key before opening during) ((store.run operations).holder id).value) ∧
      (store.run operations).HandsOn m key id := by
  refine ⟨?_, fun before opening during hsplit htenure => ?_, ?_⟩
  · rw [← run_unbundled] at hslot
    exact exists_isTenure habsent (fun _ => store.isSingle_of_mem_unbundled) hslot
  · exact Contents.exports_of_serializable
      (get?_serializable_iff_permitted hstore.unaliased hsplit htenure hslot)
  · exact handsOn (hstore.unaliased.run operations) hslot

/-- A marked holder is imported, and its copy is replaced by a plain write.  The new value is
exported, and it is in the snapshot in whatever order the map is listed. -/
theorem export_of_imported_mark :
    ((empty.run [.build {}, .newHolder .null .basic, .markPersistable ⟨0⟩,
        .write ⟨0⟩ (.importAll [("a", .holder ⟨0⟩)]),
        .write ⟨0⟩ (.set "a" (.bool true))]).contents ⟨0⟩).serializable.get? "a" =
      some (.bool true) ∧
    ∀ listing : ((empty.run [.build {}, .newHolder .null .basic, .markPersistable ⟨0⟩,
        .write ⟨0⟩ (.importAll [("a", .holder ⟨0⟩)]),
        .write ⟨0⟩ (.set "a" (.bool true))]).contents ⟨0⟩).Listing,
      (Contents.snapshotValues _ listing).get? "a" = some (.bool true) := by
  have hreach : empty.Reachable := ⟨[], rfl⟩
  have hslot : (empty.run [.build {}, .newHolder .null .basic, .markPersistable ⟨0⟩,
      .write ⟨0⟩ (.importAll [("a", .holder ⟨0⟩)]),
      .write ⟨0⟩ (.set "a" (.bool true))]).holder? ⟨0⟩ "a" = some ⟨2⟩ := by decide +kernel
  have htenure : empty.IsTenure ⟨0⟩ "a"
      [.build {}, .newHolder .null .basic, .markPersistable ⟨0⟩]
      (.write ⟨0⟩ (.importAll [("a", .holder ⟨0⟩)]))
      ([] ++ [.write ⟨0⟩ (.set "a" (.bool true))]) := by
    refine isTenure_append_singleton.2 ⟨⟨.importHolder ⟨0⟩ (by decide), by simp⟩, ?_⟩
    rintro ⟨⟩
    next habsent => exact absurd habsent (by decide)
  have hpermitted : empty.Permitted ⟨0⟩ "a"
      [.build {}, .newHolder .null .basic, .markPersistable ⟨0⟩]
      (.write ⟨0⟩ (.importAll [("a", .holder ⟨0⟩)]))
      ([] ++ [.write ⟨0⟩ (.set "a" (.bool true))]) := .inl ⟨⟨0⟩, rfl, by decide⟩
  have hexports := (export_iff_permitted hreach rfl hslot).2.1 _ _ _ (by rfl) htenure
  exact ⟨(hexports.serializable _).2 ⟨hpermitted, rfl⟩,
    fun listing => (hexports.snapshotValues listing _).2 ⟨hpermitted, rfl⟩⟩

end Store

end AttributeStore
