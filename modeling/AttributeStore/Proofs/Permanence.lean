import AttributeStore.Proofs.Replay

/-!
# What holders keep

A holder that was made keeps its value and its kind in every later state of the store, and each of
its two flags is up if it was up before or if it was raised by a call on this very holder.  Writes
and imports change no holder that exists, and a copy and its original do not notice each other.
Whoever has kept a table of holders, or gets an event that carries some, therefore sees the values
of the moment at which it was taken, with the present flags.

## Main definitions

* `Store.HasHolder`: the holders that were made.
* `Store.KeepsHolder`: what a run does to a holder.
* `Store.shown`: what a table of holders shows.
* `Store.Permanent`: what becomes of the holders of a store.

## Main results

* `Store.holder_apply_eq`, `Store.keepsHolder`: a holder after an operation and after a run.
* `Store.hasHolder_of_mem_kept`: the holders that events carry exist.
* `Store.permanent_of_reachable`: holders are permanent.
-/

namespace AttributeStore

/-- The holders that an event carries. -/
def Event.holders : Event → List HolderId
  | .set _ id replaced => id :: replaced.toList
  | .ignored _ => []
  | .imported _ id => [id]
  | .removed _ id => [id]
  | .cleared => []

namespace Operation

variable (operation : Operation) (id : HolderId) (h : Holder)

@[simp]
theorem value_effectOn : (operation.effectOn id h).value = h.value := by
  unfold effectOn
  split
  · split <;> rfl
  · split <;> rfl
  · rfl

@[simp]
theorem kind_effectOn : (operation.effectOn id h).kind = h.kind := by
  unfold effectOn
  split
  · split <;> rfl
  · split <;> rfl
  · rfl

theorem locked_effectOn :
    (operation.effectOn id h).locked = true ↔ h.locked = true ∨ .lock id = operation := by
  cases operation with
  | lock id' =>
    by_cases hid : id' = id
    · simp [effectOn, Holder.lock, hid]
    · simp [effectOn, hid, Ne.symm hid]
  | markPersistable id' => by_cases hid : id' = id <;> simp [effectOn, Holder.markPersistable, hid]
  | _ => simp [effectOn]

theorem persistable_effectOn :
    (operation.effectOn id h).persistable = true ↔
      h.persistable = true ∨ .markPersistable id = operation := by
  cases operation with
  | lock id' => by_cases hid : id' = id <;> simp [effectOn, Holder.lock, hid]
  | markPersistable id' =>
    by_cases hid : id' = id
    · simp [effectOn, Holder.markPersistable, hid]
    · simp [effectOn, hid, Ne.symm hid]
  | _ => simp [effectOn]

/-- Only the calls that raise its flags do something to a holder. -/
theorem effectOn_of_ne (hlock : operation ≠ .lock id) (hmark : operation ≠ .markPersistable id) :
    operation.effectOn id h = h := by
  cases operation with
  | lock id' => exact if_neg fun heq => hlock (congrArg lock heq)
  | markPersistable id' => exact if_neg fun heq => hmark (congrArg markPersistable heq)
  | _ => rfl

end Operation

namespace Channel

theorem mem_kept_of_mem_kept_foldl_send {e : Event} {events : List Event} {c : Channel}
    (h : e ∈ (events.foldl send c).kept) : e ∈ events ∨ e ∈ c.kept := by
  induction events generalizing c with
  | nil => exact .inr h
  | cons first rest ih =>
    rcases ih h with hrest | hsent
    · exact .inl (List.mem_cons_of_mem _ hrest)
    · rcases List.mem_append.1 (List.mem_of_mem_drop hsent) with hkept | hfirst
      · exact .inr hkept
      · exact .inl (List.mem_cons.2 (.inl (List.mem_singleton.1 hfirst)))

/-- What a receiver gets as an event is one that the channel keeps. -/
theorem mem_kept_of_mem_drain {e : Event} {c : Channel} {limit position : Nat}
    (h : .event e ∈ (c.drain limit position).1) : e ∈ c.kept := by
  induction limit generalizing position with
  | zero => simp [drain] at h
  | succ limit ih =>
    rw [drain] at h
    split at h
    next => simp at h
    next delivery next hreceive =>
      rcases List.mem_cons.1 h with rfl | hrest
      · simp only [receive] at hreceive
        split at hreceive
        · simp at hreceive
        · obtain ⟨e', hget, heq⟩ := Option.map_eq_some_iff.1 hreceive
          obtain ⟨rfl⟩ : e' = e := by simpa using congrArg Prod.fst heq
          exact List.mem_of_getElem? hget
      · exact ih hrest

end Channel

namespace Store

/-- A holder that was made. -/
def HasHolder (store : Store) (id : HolderId) : Prop := id.index < store.pool.size

instance (store : Store) (id : HolderId) : Decidable (store.HasHolder id) :=
  inferInstanceAs (Decidable (_ < _))

/-- What a run does to a holder: the value and the kind stay, and a flag is up if it was up before
or if the run raises it on this holder. -/
structure KeepsHolder (store : Store) (id : HolderId) (operations : List Operation) : Prop where
  hasHolder : (store.run operations).HasHolder id
  value : ((store.run operations).holder id).value = (store.holder id).value
  kind : ((store.run operations).holder id).kind = (store.holder id).kind
  locked : ((store.run operations).holder id).locked = true ↔
    (store.holder id).locked = true ∨ .lock id ∈ operations
  persistable : ((store.run operations).holder id).persistable = true ↔
    (store.holder id).persistable = true ∨ .markPersistable id ∈ operations

/-- What a table of holders shows in a store, whether a map still has these holders or not. -/
def shown (store : Store) (kept : Dict HolderId) : Contents := kept.map store.holder

variable {store : Store} {m : MapId} {key : String} {id : HolderId}

/-! ### Operations and runs -/

/-- The steps of an operation that is not single do nothing to the holders that exist. -/
private theorem effectOn_of_stepOf {operation step : Operation}
    (hstep : store.StepOf operation step) (hbundle : ¬ operation.IsSingle) (id : HolderId)
    (h : Holder) : step.effectOn id h = h := by
  cases hstep with
  | self hsingle => exact absurd hsingle hbundle
  | _ => rfl

/-- A holder that exists changes by calls on this very holder alone, and only in its flags. -/
theorem holder_apply_eq (hid : store.HasHolder id) (operation : Operation) :
    (store.apply operation).HasHolder id ∧
      (store.apply operation).holder id = operation.effectOn id (store.holder id) := by
  have hsize := store.size_le_size_run [operation]
  refine ⟨Nat.lt_of_lt_of_le hid hsize, ?_⟩
  by_cases hsingle : operation.IsSingle
  · exact store.holder_apply hsingle hid
  · have hquiet : operation.effectOn id (store.holder id) = store.holder id := by
      refine operation.effectOn_of_ne id _ ?_ ?_ <;>
        · rintro rfl
          exact hsingle trivial
    rw [hquiet]
    have hrun : (store.run [operation]).HasHolder id ∧
        (store.run [operation]).holder id = store.holder id := by
      refine store.run_induction (P := fun current => current.HasHolder id ∧
        current.holder id = store.holder id) ⟨hid, rfl⟩ ?_
      rintro current step hstep hstepSingle ⟨hcurrent, hkept⟩
      have hmem : step ∈ store.steps operation := by simpa [unbundled] using hstep
      refine ⟨Nat.lt_of_lt_of_le hcurrent (current.size_le_size_apply hstepSingle), ?_⟩
      rw [current.holder_apply hstepSingle hcurrent,
        effectOn_of_stepOf (store.stepOf_of_mem_steps hmem) hsingle, hkept]
    exact hrun.2

/-- No run takes a holder away, and it changes one only by raising the flags of this very holder. -/
theorem keepsHolder (hid : store.HasHolder id) (operations : List Operation) :
    store.KeepsHolder id operations := by
  induction operations generalizing store with
  | nil => exact ⟨hid, rfl, rfl, by simp [run], by simp [run]⟩
  | cons operation rest ih =>
    obtain ⟨hnext, hholder⟩ := holder_apply_eq hid operation
    have hrest := ih hnext
    refine ⟨hrest.hasHolder, ?_, ?_, ?_, ?_⟩
    · exact hrest.value.trans (by rw [hholder, Operation.value_effectOn])
    · exact hrest.kind.trans (by rw [hholder, Operation.kind_effectOn])
    · refine hrest.locked.trans ?_
      rw [hholder, Operation.locked_effectOn, or_assoc, List.mem_cons]
    · refine hrest.persistable.trans ?_
      rw [hholder, Operation.persistable_effectOn, or_assoc, List.mem_cons]

/-! ### What events carry -/

/-- The holders that an event carries exist when it is sent. -/
theorem hasHolder_of_mem_emitted (hstore : store.Unaliased) (hm : store.HasMap m)
    {step : Operation} (hsingle : step.IsSingle) {e : Event} (he : e ∈ store.emitted m step)
    (hid : id ∈ e.holders) : (store.apply step).HasHolder id := by
  have hnext := hstore.apply hsingle
  have hbefore {key : String} (h : store.holder? m key = some id) :
      (store.apply step).HasHolder id :=
    Nat.lt_of_lt_of_le (hstore.issued h) (store.size_le_size_apply hsingle)
  rcases store.emitted_cases hm hsingle with ⟨hnone, -⟩ | ⟨e', hone, htable, hjustified⟩
  · simp [hnone] at he
  · obtain rfl : e = e' := by simpa [hone] using he
    -- A holder that the event puts into the table stands there afterwards; the others stood there.
    have hafter {key : String} (h : (e.applyTo (store.table m)).get? key = some id) :
        (store.apply step).HasHolder id := by
      rw [← htable] at h
      exact hnext.issued h
    cases e with
    | set key new replaced =>
      rcases List.mem_cons.1 hid with rfl | hid
      · exact hafter ((Dict.get?_insert ..).trans (if_pos rfl))
      · exact hbefore (hjustified.1 ▸ Option.mem_toList.1 hid)
    | imported key new =>
      obtain rfl := List.mem_singleton.1 hid
      exact hafter ((Dict.get?_insert ..).trans (if_pos rfl))
    | removed key old =>
      obtain rfl := List.mem_singleton.1 hid
      exact hbefore hjustified
    | ignored key => cases hid
    | cleared => cases hid

/-- A map that is made by a single operation has not sent anything yet. -/
theorem kept_apply_of_not_hasMap (hm : ¬ store.HasMap m) {step : Operation}
    (hsingle : step.IsSingle) : ((store.apply step).map m).channel.kept = [] := by
  have hnone {after : Store} (hafter : ¬ after.HasMap m) : (after.map m).channel.kept = [] := by
    rw [after.map_of_not_hasMap hafter]
    rfl
  cases step with
  | build plan =>
    rw [apply_build_of_values_eq_nil store hsingle]
    by_cases hnew : m = ⟨store.maps.size⟩
    · rw [hnew, map_addMap_self]
      rfl
    · refine hnone fun hafter => ?_
      simp only [HasMap, addMap, Array.size_push] at hm hafter
      exact hnew (by cases m; simp_all; omega)
  | write m' w => exact hnone fun hafter => hm ((store.hasMap_commit m' _ m).1 hafter)
  | takeOwnLines m' =>
    refine hnone fun hafter => hm ?_
    rwa [HasMap, ← store.size_maps_modifyMap m']
  | _ => exact hnone hm

/-- The holders that the events in the channels of a store carry exist. -/
theorem hasHolder_of_mem_kept (hstore : store.Reachable) {e : Event}
    (he : e ∈ (store.map m).channel.kept) (hid : id ∈ e.holders) : store.HasHolder id := by
  obtain ⟨operations, rfl⟩ := hstore
  have hrun : (empty.run operations).Unaliased ∧
      ∀ m e, e ∈ ((empty.run operations).map m).channel.kept →
        ∀ id ∈ e.holders, (empty.run operations).HasHolder id := by
    refine empty.run_induction (P := fun current => current.Unaliased ∧
      ∀ m e, e ∈ (current.map m).channel.kept → ∀ id ∈ e.holders, current.HasHolder id) ?_ ?_
    · refine ⟨unaliased_empty, fun m e he => ?_⟩
      rw [empty.map_of_not_hasMap (Nat.not_lt_zero _)] at he
      cases he
    · rintro current step - hsingle ⟨hcurrent, hkept⟩
      refine ⟨hcurrent.apply hsingle, fun m e he id hid => ?_⟩
      by_cases hm : current.HasMap m
      · rw [current.channel_apply hm hsingle] at he
        rcases Channel.mem_kept_of_mem_kept_foldl_send he with hsent | hold
        · exact hasHolder_of_mem_emitted hcurrent hm hsingle hsent hid
        · exact Nat.lt_of_lt_of_le (hkept m e hold id hid) (current.size_le_size_apply hsingle)
      · rw [kept_apply_of_not_hasMap hm hsingle] at he
        cases he
  exact hrun.2 m e he id hid

/-! ### What is kept outside -/

/-- What becomes of the holders of a store in all later stores. -/
structure Permanent (store : Store) : Prop where
  /-- Every holder, in a map or not, keeps its value and its kind through all runs, and its flags
  are raised by calls on this very holder alone. -/
  holder : ∀ {id : HolderId}, store.HasHolder id → ∀ operations, store.KeepsHolder id operations
  /-- Nothing but these calls changes a holder. -/
  unchanged : ∀ {id : HolderId}, store.HasHolder id → ∀ {operation : Operation},
    operation ≠ .lock id → operation ≠ .markPersistable id →
      (store.apply operation).holder id = store.holder id
  /-- A copy that a caller makes is another holder, at first in the state of its original. -/
  cloneHolder : ∀ {id : HolderId}, store.HasHolder id →
    (store.cloneHolder id).1 ≠ id ∧ (store.cloneHolder id).2.HasHolder (store.cloneHolder id).1 ∧
      (store.cloneHolder id).2.holder (store.cloneHolder id).1 = store.holder id
  /-- What an import of a holder stores is another holder too. -/
  importHolder : ∀ {id : HolderId}, store.HasHolder id → ∀ {m : MapId} (key : String),
    (store.apply (.write m (.importAll [(key, .holder id)]))).holder? m key ≠ some id
  /-- A table of all holders of a map, or of the composite ones, goes on to show their values under
  their keys, with the present flags of the very same holders. -/
  kept : ∀ {m : MapId} {table : Dict HolderId},
    table = store.table m ∨ table = store.composites m → ∀ operations,
      ((store.run operations).shown table).keys = (store.shown table).keys ∧
        ((store.run operations).shown table).values = (store.shown table).values ∧
          ∀ {key : String} {id : HolderId}, table.get? key = some id →
            ((store.run operations).shown table).get? key =
                some ((store.run operations).holder id) ∧
              store.KeepsHolder id operations
  /-- The holders that an event in a channel carries are shown by their present flags. -/
  sent : ∀ {m : MapId} {e : Event}, e ∈ (store.map m).channel.kept → ∀ id ∈ e.holders,
    ∀ operations, store.KeepsHolder id operations
  /-- So are those of an event that a receiver has got. -/
  delivered : ∀ {r : ReceiverId} {limit : Option Nat} {e : Event},
    .event e ∈ (store.drain r limit).1 → ∀ id ∈ e.holders,
      ∀ operations, store.KeepsHolder id operations

theorem get?_shown (kept : Dict HolderId) (key : String) :
    (store.shown kept).get? key = (kept.get? key).map store.holder :=
  Dict.get?_map ..

/-- A table of holders that exist shows the same values after every run. -/
theorem values_shown_run {kept : Dict HolderId}
    (hkept : ∀ key id, kept.get? key = some id → store.HasHolder id)
    (operations : List Operation) :
    ((store.run operations).shown kept).values = (store.shown kept).values := by
  simp only [Contents.values, shown, Dict.map_map]
  exact kept.map_congr fun key id hid => (keepsHolder (hkept key id hid) operations).value

/-- The holders of a map exist, and so do the composite ones among them. -/
theorem Unaliased.hasHolder_of_get? (hstore : store.Unaliased) {table : Dict HolderId}
    (htable : table = store.table m ∨ table = store.composites m)
    (h : table.get? key = some id) : store.HasHolder id := by
  rcases htable with rfl | rfl
  · exact hstore.issued h
  · rw [composites, Dict.get?_filter, Option.filter_eq_some_iff] at h
    exact hstore.issued h.1

/-- The holders of a store that a run leads to are permanent. -/
theorem permanent_of_reachable (hstore : store.Reachable) : store.Permanent where
  holder hid operations := keepsHolder hid operations
  unchanged {id} hid {operation} hlock hmark := by
    rw [(holder_apply_eq hid operation).2]
    exact operation.effectOn_of_ne id _ hlock hmark
  cloneHolder {id} hid := by
    have hnew : store.pool.nextId ≠ id := fun h => Nat.ne_of_gt hid (congrArg HolderId.index h)
    exact ⟨hnew, Nat.lt_of_lt_of_eq (Nat.lt_succ_self _) (Pool.size_add _ _).symm,
      Pool.holder_add_nextId _ _⟩
  importHolder {id} hid {m} key h := by
    by_cases hm : store.HasMap m
    · rw [store.holder?_apply_of_fills (.importHolder id hm), Option.some.injEq] at h
      exact Nat.ne_of_gt hid (congrArg HolderId.index h)
    · have hafter := (store.apply (.write m _)).hasMap_of_holder? h
      exact hm ((store.hasMap_commit m _ m).1 hafter)
  kept {m table} htable operations := by
    have hissued (key : String) (id : HolderId) (h : table.get? key = some id) :
        store.HasHolder id := hstore.unaliased.hasHolder_of_get? htable h
    refine ⟨?_, values_shown_run hissued operations, fun {key id} hid => ⟨?_, ?_⟩⟩
    · simp [Dict.keys, shown, Dict.map]
    · rw [get?_shown, hid, Option.map_some]
    · exact keepsHolder (hissued key id hid) operations
  sent he id hid := keepsHolder (hasHolder_of_mem_kept hstore he hid)
  delivered he id hid := keepsHolder
    (hasHolder_of_mem_kept hstore (Channel.mem_kept_of_mem_drain he) hid)

/-- A holder is cleared away and locked, and a copy of it is marked. -/
theorem permanent_of_cleared_holder :
    (empty.run [.build {}, .write ⟨0⟩ (.set "a" .null)]).KeepsHolder ⟨0⟩
      [.write ⟨0⟩ .clear, .lock ⟨0⟩, .cloneHolder ⟨0⟩, .markPersistable ⟨1⟩] :=
  (permanent_of_reachable ⟨_, rfl⟩).holder (by decide) _

/-- A table that was kept before the same run shows the lock, and not the mark. -/
example :
    (((empty.run [.build {}, .write ⟨0⟩ (.set "a" .null)]).run [.write ⟨0⟩ .clear, .lock ⟨0⟩,
        .cloneHolder ⟨0⟩, .markPersistable ⟨1⟩]).shown
      ((empty.run [.build {}, .write ⟨0⟩ (.set "a" .null)]).table ⟨0⟩)).entries =
    [("a", { value := .null, locked := true, persistable := false, kind := .composite })] := rfl

end Store

end AttributeStore
