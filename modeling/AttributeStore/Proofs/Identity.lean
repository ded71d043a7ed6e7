import AttributeStore.Proofs.Slots

/-!
# The identity of holders

No holder stands in two slots, whatever has happened to the store.  A holder comes into a slot only
when it is made for this slot, and it never comes back after it has left it.  A holder made by a
caller therefore never stands in a slot, and what an operation does to one slot no other slot
shows.

## Main definitions

* `Store.Unaliased`: the invariant behind all this.
* `Operation.Concerns`: the operations that may change what a slot shows.
* `Store.Isolated`: what holds of the slots of a store now and in all its later states.

## Main results

* `Store.Reachable.unaliased`: the invariant holds of every store that a run leads to.
* `Store.isolated_of_reachable`: slots are isolated from each other.
-/

namespace AttributeStore

namespace Store

/-- Every holder that stands in a slot has been made, and it stands in no other slot. -/
structure Unaliased (store : Store) : Prop where
  issued : ∀ {m : MapId} {key : String} {id : HolderId},
    store.holder? m key = some id → id.index < store.pool.size
  unique : ∀ {m m' : MapId} {key key' : String} {id : HolderId},
    store.holder? m key = some id → store.holder? m' key' = some id → m = m' ∧ key = key'

variable {store : Store} {m m' : MapId} {key key' : String} {id : HolderId}

/-- A single operation fills at most one slot. -/
theorem Fills.slot_unique {step : Operation} {new new' : Holder}
    (h : store.Fills m key step new) (h' : store.Fills m' key' step new') :
    m = m' ∧ key = key' := by
  cases h <;> cases h' <;> exact ⟨rfl, rfl⟩

/-- A holder that stands in a slot after a single operation stood there before, or it is the new
holder for this slot. -/
theorem holder?_of_holder?_apply {step : Operation} (hsingle : step.IsSingle)
    (h : (store.apply step).holder? m key = some id) :
    store.holder? m key = some id ∨
      (id = store.pool.nextId ∧ ∃ new, store.Fills m key step new) := by
  rcases store.slot_cases m key hsingle with ⟨new, hfills⟩ | hdrops | ⟨-, hkept⟩
  · rw [store.holder?_apply_of_fills hfills, Option.some.injEq] at h
    exact .inr ⟨h.symm, new, hfills⟩
  · simp [store.holder?_apply_of_drops hdrops] at h
  · exact .inl (hkept ▸ h)

/-- The next holder to be made stands in no slot yet. -/
theorem Unaliased.holder?_ne_nextId (hstore : store.Unaliased) (m : MapId) (key : String) :
    store.holder? m key ≠ some store.pool.nextId := by
  intro h
  have hissued := hstore.issued h
  simp only [Pool.nextId] at hissued
  omega

theorem unaliased_empty : empty.Unaliased where
  issued h := by simp [holder?_empty] at h
  unique h := by simp [holder?_empty] at h

theorem Unaliased.apply (hstore : store.Unaliased) {step : Operation} (hsingle : step.IsSingle) :
    (store.apply step).Unaliased where
  issued {m key id} h := by
    rcases holder?_of_holder?_apply hsingle h with hold | ⟨rfl, new, hfills⟩
    · have hissued := hstore.issued hold
      have hsize := store.size_le_size_apply hsingle
      omega
    · rw [store.pool_apply_of_fills hfills, Pool.size_add]
      exact Nat.lt_succ_self _
  unique {m m' key key' id} h h' := by
    have hnew {m : MapId} {key : String} (h : store.holder? m key = some id) :
        id ≠ store.pool.nextId := by
      rintro rfl
      exact hstore.holder?_ne_nextId m key h
    -- One holder in two slots is old in both or new in both, and a step fills one slot only.
    rcases holder?_of_holder?_apply hsingle h with hold | ⟨hid, new, hfills⟩ <;>
      rcases holder?_of_holder?_apply hsingle h' with hold' | ⟨hid', new', hfills'⟩
    · exact hstore.unique hold hold'
    · exact absurd hid' (hnew hold)
    · exact absurd hid (hnew hold')
    · exact hfills.slot_unique hfills'

theorem Unaliased.run (hstore : store.Unaliased) (operations : List Operation) :
    (store.run operations).Unaliased :=
  store.run_induction hstore fun _ _ _ hsingle h => h.apply hsingle

/-- No run of the empty store leads to a store with a holder in two slots. -/
theorem Reachable.unaliased (hstore : store.Reachable) : store.Unaliased := by
  obtain ⟨operations, rfl⟩ := hstore
  exact unaliased_empty.run operations

/-- A holder that exists and stands in a slot after a run stood there before the run. -/
theorem holder?_of_holder?_run (hid : id.index < store.pool.size) {operations : List Operation}
    (h : (store.run operations).holder? m key = some id) : store.holder? m key = some id := by
  have hrun : id.index < (store.run operations).pool.size ∧
      ((store.run operations).holder? m key = some id → store.holder? m key = some id) := by
    refine store.run_induction (P := fun current => id.index < current.pool.size ∧
      (current.holder? m key = some id → store.holder? m key = some id)) ⟨hid, fun h => h⟩ ?_
    rintro current step - hsingle ⟨hid, hback⟩
    constructor
    · have hsize := current.size_le_size_apply hsingle
      omega
    · intro h
      rcases holder?_of_holder?_apply hsingle h with hold | ⟨rfl, -⟩
      · exact hback hold
      · exact absurd hid (Nat.lt_irrefl _)
  exact hrun.2 h

end Store

/-! ### Slots that an operation leaves alone -/

/-- The keys that a write may change the holders of.  Plain nulls of an import change nothing. -/
def Write.Addresses (key : String) : Write → Prop
  | .set key' _ => key' = key
  | .unset key' => key' = key
  | .clear => True
  | .importAll entries => ∃ entry, (key, entry) ∈ entries ∧ entry ≠ .value .null

/-- The operations that may change what a slot shows: the writes to its map that address its key,
and the raising of a flag of the very holder that stands in it. -/
def Operation.Concerns (store : Store) (m : MapId) (key : String) : Operation → Prop
  | .write m' w => m' = m ∧ w.Addresses key
  | .lock id => store.holder? m key = some id
  | .markPersistable id => store.holder? m key = some id
  | _ => False

namespace Store

variable {store : Store} {m m' : MapId} {key key' : String} {id : HolderId}

/-- What a slot shows is the state of its holder. -/
theorem get?_contents (store : Store) (m : MapId) (key : String) :
    (store.contents m).get? key = (store.holder? m key).map store.holder :=
  Dict.get?_map ..

private theorem concerns_of_fills {step : Operation} {new : Holder}
    (h : store.Fills m key step new) : step.Concerns store m key := by
  cases h with
  | set v hm hname hopen => exact ⟨rfl, rfl⟩
  | importHolder id hm => exact ⟨rfl, .holder id, List.mem_cons_self, by simp⟩

private theorem concerns_of_drops {step : Operation} (h : step.Drops m key) :
    step.Concerns store m key := by
  cases h with
  | unset => exact ⟨rfl, rfl⟩
  | clear => exact ⟨rfl, trivial⟩

private theorem effectOn_of_not_concerns {step : Operation} (hid : store.holder? m key = some id)
    (hnot : ¬ step.Concerns store m key) (h : Holder) : step.effectOn id h = h := by
  cases step with
  | lock id' => exact if_neg fun heq => hnot (hid.trans (congrArg some heq.symm))
  | markPersistable id' => exact if_neg fun heq => hnot (hid.trans (congrArg some heq.symm))
  | _ => rfl

theorem apply_single_of_not_concerns (hstore : store.Unaliased) {step : Operation}
    (hsingle : step.IsSingle) (hnot : ¬ step.Concerns store m key) :
    (store.apply step).holder? m key = store.holder? m key ∧
      ((store.apply step).contents m).get? key = (store.contents m).get? key := by
  have hslot : (store.apply step).holder? m key = store.holder? m key := by
    rcases store.slot_cases m key hsingle with ⟨new, hfills⟩ | hdrops | ⟨-, hkept⟩
    · exact absurd (concerns_of_fills hfills) hnot
    · exact absurd (concerns_of_drops hdrops) hnot
    · exact hkept
  refine ⟨hslot, ?_⟩
  rw [get?_contents, get?_contents, hslot]
  cases hid : store.holder? m key with
  | none => rfl
  | some id =>
    rw [Option.map_some, Option.map_some, store.holder_apply hsingle (hstore.issued hid),
      effectOn_of_not_concerns hid hnot]

/-- The steps of an import concern the slots that the import concerns, and those of the making of
a map concern the slots of no map that existed before. -/
private theorem concerns_of_stepOf {operation step : Operation} (hm : store.HasMap m)
    (hbundle : ¬ operation.IsSingle) (hstep : store.StepOf operation step) {current : Store}
    (h : step.Concerns current m key) : operation.Concerns store m key := by
  cases hstep with
  | self hsingle => exact absurd hsingle hbundle
  | emptyMap plan => exact h.elim
  | firstValue plan key' v =>
    obtain ⟨rfl, -⟩ := h
    exact absurd hm (Nat.lt_irrefl _)
  | value key' v hnull hmem =>
    obtain ⟨rfl, rfl⟩ := h
    exact ⟨rfl, .value v, hmem, by simpa using hnull⟩
  | holder key' id hmem =>
    obtain ⟨rfl, entry, hentry, -⟩ := h
    obtain ⟨rfl, rfl⟩ := Prod.mk.inj (List.mem_singleton.1 hentry)
    exact ⟨rfl, .holder id, hmem, by simp⟩

/-- An operation leaves alone what stands in the slots that it does not concern. -/
theorem apply_of_not_concerns (hstore : store.Unaliased) {operation : Operation}
    (hm : store.HasMap m) (hnot : ¬ operation.Concerns store m key) :
    (store.apply operation).holder? m key = store.holder? m key ∧
      ((store.apply operation).contents m).get? key = (store.contents m).get? key := by
  by_cases hbundle : operation.IsSingle
  · exact apply_single_of_not_concerns hstore hbundle hnot
  · have hrun : (store.run [operation]).Unaliased ∧
        (store.run [operation]).holder? m key = store.holder? m key ∧
        ((store.run [operation]).contents m).get? key = (store.contents m).get? key := by
      refine store.run_induction (P := fun current => current.Unaliased ∧
        current.holder? m key = store.holder? m key ∧
        (current.contents m).get? key = (store.contents m).get? key) ⟨hstore, rfl, rfl⟩ ?_
      rintro current step hstep hsingle ⟨hcurrent, hslot, hshown⟩
      have hmem : step ∈ store.steps operation := by simpa [unbundled] using hstep
      have hother : ¬ step.Concerns current m key := fun h =>
        hnot (concerns_of_stepOf hm hbundle (store.stepOf_of_mem_steps hmem) h)
      obtain ⟨hslot', hshown'⟩ := apply_single_of_not_concerns hcurrent hsingle hother
      exact ⟨hcurrent.apply hsingle, hslot'.trans hslot, hshown'.trans hshown⟩
    exact hrun.2

/-! ### Isolation -/

/-- What holds of the slots of a store and of all later stores. -/
structure Isolated (store : Store) : Prop where
  /-- Every holder stands in at most one slot. -/
  unique : ∀ {m m' : MapId} {key key' : String} {id : HolderId},
    store.holder? m key = some id → store.holder? m' key' = some id → m = m' ∧ key = key'
  /-- A holder that a caller makes never stands in a slot. -/
  newHolder : ∀ (v : Value) (kind : HolderKind) (operations : List Operation) (m : MapId)
    (key : String), ((store.newHolder v kind).2.run operations).holder? m key ≠
      some (store.newHolder v kind).1
  /-- A copy that a caller makes never stands in a slot. -/
  cloneHolder : ∀ (id : HolderId) (operations : List Operation) (m : MapId) (key : String),
    ((store.cloneHolder id).2.run operations).holder? m key ≠ some (store.cloneHolder id).1
  /-- A holder that has left its slot never stands in a slot again. -/
  left : ∀ {m : MapId} {key : String} {id : HolderId} (between operations : List Operation)
    (m' : MapId) (key' : String), store.holder? m key = some id →
      (store.run between).holder? m key ≠ some id →
      ((store.run between).run operations).holder? m' key' ≠ some id
  /-- An operation changes what a slot shows only if it is a write to this slot or raises a flag of
  the holder that stands in it. -/
  frame : ∀ (operation : Operation) {m : MapId} {key : String}, store.HasMap m →
    ¬ operation.Concerns store m key →
      (store.apply operation).holder? m key = store.holder? m key ∧
        ((store.apply operation).contents m).get? key = (store.contents m).get? key

/-- A holder that was just made and stands in no slot never does. -/
private theorem holder?_run_ne_of_made (hstore : store.Unaliased) {made : Store}
    (hpool : made.pool.size = store.pool.size + 1) (hmaps : made.maps = store.maps)
    (operations : List Operation) (m : MapId) (key : String) :
    (made.run operations).holder? m key ≠ some store.pool.nextId := by
  intro h
  have hid : store.pool.nextId.index < made.pool.size := by
    simp only [Pool.nextId]
    omega
  have hmade := holder?_of_holder?_run hid h
  have hslot : store.holder? m key = some store.pool.nextId := by
    simpa only [holder?, table, map, hmaps] using hmade
  exact hstore.holder?_ne_nextId m key hslot

/-- The slots of a store that a run leads to are isolated from each other. -/
theorem isolated_of_reachable (hstore : store.Reachable) : store.Isolated where
  unique := hstore.unaliased.unique
  newHolder v kind := holder?_run_ne_of_made hstore.unaliased (Pool.size_add _ _) rfl
  cloneHolder id := holder?_run_ne_of_made hstore.unaliased (Pool.size_add _ _) rfl
  left {m key id} between operations m' key' hbefore hgone hback := by
    have hid := hstore.unaliased.issued hbefore
    have hsize := store.size_le_size_run between
    have hthere := holder?_of_holder?_run (by omega) hback
    obtain ⟨rfl, rfl⟩ := hstore.unaliased.unique hbefore (holder?_of_holder?_run hid hthere)
    exact hgone hthere
  frame operation {m key} hm hnot := apply_of_not_concerns hstore.unaliased hm hnot

/-- A map imported into itself, under its own key and another one. -/
theorem isolated_after_self_import :
    (empty.run [.build {}, .write ⟨0⟩ (.set "a" .null),
      .write ⟨0⟩ (.importAll [("a", .holder ⟨0⟩), ("b", .holder ⟨0⟩)])]).Isolated :=
  isolated_of_reachable ⟨_, rfl⟩

end Store

end AttributeStore
