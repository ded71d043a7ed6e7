import AttributeStore.Proofs.Identity

/-!
# Locks

A locked holder keeps its slot, its value and its kind through every run that neither unsets its
key, nor clears its map, nor imports a holder under its key.  Plain writes to the slot succeed and
store nothing meanwhile, alone as well as within an import.  A plain write to any other slot that
succeeds puts a new holder into it, which takes over nothing but the permission to export.

## Main definitions

* `Operation.Unseats`: the operations that may take a locked holder out of its slot.
* `Store.Frozen`: slots with a locked holder of a given value and kind.
* `Store.RefusesWrites`: slots in which plain writes store nothing.

## Main results

* `Store.Frozen.run`: frozen slots stay frozen.
* `Store.Frozen.refusesWrites`, `Store.set_of_isOpen`: plain writes to frozen and to open slots.
-/

namespace AttributeStore

/-- An operation that may take a holder out of its slot even though it is locked. -/
def Operation.Unseats (m : MapId) (key : String) : Operation → Prop
  | .write m' (.unset key') => m' = m ∧ key' = key
  | .write m' .clear => m' = m
  | .write m' (.importAll entries) => m' = m ∧ ∃ id, (key, .holder id) ∈ entries
  | _ => False

namespace Store

/-- Two stores with the same holders, in the same slots. -/
def SameHolders (store other : Store) : Prop :=
  store.pool = other.pool ∧ ∀ m, store.table m = other.table m

/-- A slot in which a locked holder stands, with its value and its kind. -/
structure Frozen (store : Store) (m : MapId) (key : String) (id : HolderId) (v : Value)
    (kind : HolderKind) : Prop where
  slot : store.holder? m key = some id
  locked : (store.holder id).locked = true
  value : (store.holder id).value = v
  kind : (store.holder id).kind = kind

/-- Plain writes to a slot succeed and store nothing.  Alone they give the holder in the slot, and
an import with such a write does what it does without it. -/
structure RefusesWrites (store : Store) (m : MapId) (key : String) (id : HolderId) : Prop where
  set : ∀ v : Value, (store.set m key v).1 = .ok id ∧ (store.set m key v).2.SameHolders store
  entry : ∀ (before : List (String × Entry)) (v : Value) (after : List (String × Entry)),
    (∀ id', (key, .holder id') ∉ before) →
      (store.importAll m (before ++ (key, .value v) :: after)).1 =
          (store.importAll m (before ++ after)).1 ∧
        (store.importAll m (before ++ (key, .value v) :: after)).2.SameHolders
          (store.importAll m (before ++ after)).2

variable {store : Store} {m m' : MapId} {key key' : String} {id : HolderId} {v : Value}
  {kind : HolderKind}

/-! ### Frozen slots -/

private theorem not_fills_of_frozen (h : store.Frozen m key id v kind) {step : Operation}
    (hseated : ¬ step.Unseats m key) (new : Holder) : ¬ store.Fills m key step new := by
  intro hfills
  cases hfills with
  | set w hm hname hopen => exact absurd h.locked (by simp [hopen id h.slot])
  | importHolder id' hm => exact hseated ⟨rfl, id', List.mem_cons_self⟩

theorem not_drops_of_not_unseats {step : Operation} (hseated : ¬ step.Unseats m key) :
    ¬ step.Drops m key := by
  intro hdrops
  cases hdrops with
  | unset => exact hseated ⟨rfl, rfl⟩
  | clear => exact hseated rfl

/-- What is done to a locked holder changes neither its lock, nor its value, nor its kind. -/
private theorem effectOn_of_locked (id : HolderId) {h : Holder} (hlocked : h.locked = true)
    (step : Operation) : (step.effectOn id h).locked = true ∧
      (step.effectOn id h).value = h.value ∧ (step.effectOn id h).kind = h.kind := by
  cases step with
  | lock id' =>
    simp only [Operation.effectOn]
    split
    · exact ⟨rfl, rfl, rfl⟩
    · exact ⟨hlocked, rfl, rfl⟩
  | markPersistable id' =>
    simp only [Operation.effectOn]
    split <;> exact ⟨hlocked, rfl, rfl⟩
  | _ => exact ⟨hlocked, rfl, rfl⟩

theorem Frozen.apply (h : store.Frozen m key id v kind) (hstore : store.Unaliased)
    {step : Operation} (hsingle : step.IsSingle) (hseated : ¬ step.Unseats m key) :
    (store.apply step).Frozen m key id v kind := by
  have hslot : (store.apply step).holder? m key = some id :=
    (store.holder?_apply_of_kept hsingle (not_fills_of_frozen h hseated)
      (not_drops_of_not_unseats hseated)).trans h.slot
  have hholder := store.holder_apply hsingle (hstore.issued h.slot)
  obtain ⟨hlocked, hvalue, hkind⟩ := effectOn_of_locked id h.locked step
  rw [← hholder] at hlocked hvalue hkind
  exact ⟨hslot, hlocked, hvalue.trans h.value, hkind.trans h.kind⟩

/-- A step that takes a locked holder out of a slot is one of an operation that does. -/
theorem unseats_of_stepOf {operation step : Operation}
    (hstep : store.StepOf operation step) (h : step.Unseats m key) : operation.Unseats m key := by
  cases hstep with
  | self hsingle => exact h
  | emptyMap plan => exact h.elim
  | firstValue plan key' v => exact h.elim
  | value key' v hnull hmem => exact h.elim
  | holder key' id hmem =>
    obtain ⟨rfl, id', hentry⟩ := h
    obtain ⟨rfl, -⟩ := Prod.mk.inj (List.mem_singleton.1 hentry)
    exact ⟨rfl, id, hmem⟩

/-- A locked holder stays in its slot. -/
theorem Frozen.run (h : store.Frozen m key id v kind) (hstore : store.Unaliased)
    {operations : List Operation}
    (hseated : ∀ operation ∈ operations, ¬ operation.Unseats m key) :
    (store.run operations).Frozen m key id v kind := by
  have hrun : (store.run operations).Unaliased ∧ (store.run operations).Frozen m key id v kind := by
    refine store.run_induction
      (P := fun current => current.Unaliased ∧ current.Frozen m key id v kind) ⟨hstore, h⟩ ?_
    rintro current step hstep hsingle ⟨hcurrent, hfrozen⟩
    have hnot : ¬ step.Unseats m key := by
      intro hunseats
      obtain ⟨_, operation, hmem, hof⟩ := store.exists_of_mem_unbundled hstep
      exact hseated operation hmem (unseats_of_stepOf hof hunseats)
    exact ⟨hcurrent.apply hsingle, hfrozen.apply hcurrent hsingle hnot⟩
  exact hrun.2

/-! ### Plain writes -/

private theorem sameHolders_commit {first second : Session} (hpool : first.pool = second.pool)
    (htable : first.table = second.table) :
    (store.commit m first).SameHolders (store.commit m second) := by
  by_cases hm : store.HasMap m
  · refine ⟨by rw [pool_commit store m _ hm, pool_commit store m _ hm, hpool], fun m' => ?_⟩
    by_cases hmap : m' = m
    · rw [hmap, table_commit_self store m _ hm, table_commit_self store m _ hm, htable]
    · rw [table_commit_of_ne store m _ hmap, table_commit_of_ne store m _ hmap]
  · rw [commit_of_not_hasMap store m _ hm, commit_of_not_hasMap store m _ hm]
    exact ⟨rfl, fun _ => rfl⟩

theorem Frozen.set (h : store.Frozen m key id v kind) (hname : IsValidName key) (w : Value) :
    (store.set m key w).1 = .ok id ∧ (store.set m key w).2.SameHolders store := by
  have hset : (store.session m).set key w =
      .ok (id, (store.session m).emit (.ignored key)) := by
    rw [Session.set, if_pos hname, Session.write_of_locked (store.session m) h.slot h.locked]
  have hsame : (store.commit m ((store.session m).emit (.ignored key))).SameHolders
      (store.commit m (store.session m)) := sameHolders_commit rfl rfl
  rw [commit_session] at hsame
  simp only [Store.set, hset]
  exact ⟨trivial, hsame⟩

/-- In a session, a plain entry under the key of a locked holder changes neither holders nor
tables, nor whether the import succeeds. -/
private theorem importAll_cons_of_locked {s : Session} (hslot : s.find? key = some id)
    (hlocked : (s.pool.holder id).locked = true) (hname : IsValidName key) (w : Value)
    (rest : List (String × Entry)) :
    (s.importAll ((key, .value w) :: rest)).1 = (s.importAll rest).1 ∧
      (s.importAll ((key, .value w) :: rest)).2.pool = (s.importAll rest).2.pool ∧
      (s.importAll ((key, .value w) :: rest)).2.table = (s.importAll rest).2.table := by
  by_cases hnull : w = .null
  · subst hnull
    exact ⟨rfl, rfl, rfl⟩
  · have hentry : s.importEntry key (.value w) = .ok (s.emit (.ignored key)) := by
      simp [Session.importEntry, Session.set, hname, Session.write_of_locked s hslot hlocked,
        Except.map]
    simp only [Session.importAll, hentry]
    rw [Session.importAll_restart (s.emit _), Session.importAll_restart s]
    exact ⟨rfl, rfl, rfl⟩

theorem Frozen.importAll (h : store.Frozen m key id v kind) (hstore : store.Unaliased)
    (hname : IsValidName key) {before : List (String × Entry)} (w : Value)
    (after : List (String × Entry)) (hbefore : ∀ id', (key, .holder id') ∉ before) :
    (store.importAll m (before ++ (key, .value w) :: after)).1 =
        (store.importAll m (before ++ after)).1 ∧
      (store.importAll m (before ++ (key, .value w) :: after)).2.SameHolders
        (store.importAll m (before ++ after)).2 := by
  have hm : store.HasMap m := store.hasMap_of_holder? h.slot
  -- The entries before the plain one are an import of their own, which keeps the slot frozen.
  have hmid : (store.run [.write m (.importAll before)]).Frozen m key id v kind := by
    refine h.run hstore fun operation hmem => ?_
    obtain rfl := List.mem_singleton.1 hmem
    rintro ⟨-, id', hentry⟩
    exact hbefore id' hentry
  have hsession := store.session_commit m ((store.session m).importAll before).2 hm
  have hslot : ((store.session m).importAll before).2.find? key = some id :=
    (congrArg (Session.find? · key) hsession).symm.trans hmid.slot
  have hlocked : (((store.session m).importAll before).2.pool.holder id).locked = true :=
    (congrArg (fun s => (s.pool.holder id).locked) hsession).symm.trans hmid.locked
  simp only [Store.importAll, Session.importAll_append]
  cases hresult : (store.session m).importAll before with
  | mk result next =>
    rw [hresult] at hslot hlocked
    cases result with
    | ok _ =>
      obtain ⟨hfirst, hpool, htable⟩ := importAll_cons_of_locked hslot hlocked hname w after
      exact ⟨hfirst, sameHolders_commit hpool htable⟩
    | error e => exact ⟨rfl, rfl, fun _ => rfl⟩

theorem Frozen.refusesWrites (h : store.Frozen m key id v kind) (hstore : store.Unaliased)
    (hname : IsValidName key) : store.RefusesWrites m key id where
  set w := h.set hname w
  entry _ w after hbefore := h.importAll hstore hname w after hbefore

/-- A plain write to an open slot that succeeds puts a new holder into it and leaves the other slots
of the map as they are. -/
theorem set_of_isOpen (hm : store.HasMap m) (hopen : store.IsOpen m key) {after : Store}
    (hset : store.set m key v = (.ok id, after)) :
    after.holder? m key = some id ∧ store.pool.size ≤ id.index ∧
      after.holder id =
        { value := v
          locked := false
          persistable := (store.holder? m key).any fun old => (store.holder old).persistable
          kind := .composite } ∧
      ∀ key', key' ≠ key → after.holder? m key' = store.holder? m key' := by
  have hafter : after = store.apply (.write m (.set key v)) := by
    rw [← set_eq_apply, hset]
  have hname : IsValidName key := by
    by_contra hname
    simp [Store.set, Session.set, hname] at hset
  have hfills : store.Fills m key (.write m (.set key v)) _ := .set v hm hname hopen
  have hid : id = store.pool.nextId := by
    rw [Store.set, Session.set, if_pos hname,
      Session.write_of_unlocked (store.session m) hopen] at hset
    exact (Except.ok.inj (Prod.mk.inj hset).1).symm
  subst hid hafter
  refine ⟨store.holder?_apply_of_fills hfills, Nat.le_refl _, ?_, fun key' hne => ?_⟩
  · rw [store.holder_apply_of_fills hfills, Holder.superseding, Option.any_map]
    rfl
  · refine store.holder?_apply_of_kept trivial (fun new hother => ?_) fun hdrops => ?_
    · exact hne (hother.slot_unique hfills).2
    · cases hdrops

/-- A locked holder keeps its slot, its value and its kind through every run without an operation
that may unseat it, and plain writes to its slot store nothing.  A plain write to an open slot that
succeeds puts a new, unlocked holder of the value into it, which may be exported if the old one
might be, and leaves the other slots of the map as they are. -/
theorem slot_frozen_or_renewed {store : Store} (hstore : store.Reachable) {m : MapId}
    (hm : store.HasMap m) (key : String) :
    (∀ (id : HolderId) (operations : List Operation), store.holder? m key = some id →
      (store.holder id).locked = true →
      (∀ operation ∈ operations, ¬ operation.Unseats m key) →
        (store.run operations).Frozen m key id (store.holder id).value (store.holder id).kind ∧
          (IsValidName key → (store.run operations).RefusesWrites m key id)) ∧
      ∀ (v : Value) (id : HolderId) (after : Store), store.IsOpen m key →
        store.set m key v = (.ok id, after) →
        after.holder? m key = some id ∧ store.pool.size ≤ id.index ∧
          after.holder id =
            { value := v
              locked := false
              persistable := (store.holder? m key).any fun old => (store.holder old).persistable
              kind := .composite } ∧
          ∀ key', key' ≠ key → after.holder? m key' = store.holder? m key' := by
  constructor
  · intro id operations hslot hlocked hseated
    have hfrozen := Frozen.run ⟨hslot, hlocked, rfl, rfl⟩ hstore.unaliased hseated
    exact ⟨hfrozen, hfrozen.refusesWrites (hstore.unaliased.run operations)⟩
  · intro v id after hopen hset
    exact set_of_isOpen hm hopen hset

/-- The copy of a locked holder is written to, alone and within an import that takes this very copy
under another key. -/
theorem slot_frozen_of_locked_copy :
    ((empty.run [.build {}, .newHolder .null .basic, .lock ⟨0⟩,
        .write ⟨0⟩ (.importAll [("a", .holder ⟨0⟩)])]).run
      [.write ⟨0⟩ (.set "a" (.bool true)),
        .write ⟨0⟩ (.importAll [("a", .value (.bool true)), ("b", .holder ⟨1⟩)])]).Frozen
      ⟨0⟩ "a" ⟨1⟩ .null .basic := by
  have hreach : (empty.run [.build {}, .newHolder .null .basic, .lock ⟨0⟩,
      .write ⟨0⟩ (.importAll [("a", .holder ⟨0⟩)])]).Reachable := ⟨_, rfl⟩
  have hm : (empty.run [.build {}, .newHolder .null .basic, .lock ⟨0⟩,
      .write ⟨0⟩ (.importAll [("a", .holder ⟨0⟩)])]).HasMap ⟨0⟩ := by decide
  exact ((slot_frozen_or_renewed hreach hm "a").1 ⟨1⟩ _ (by decide) (by decide)
    (by simp [Operation.Unseats])).1

end Store

end AttributeStore
