import AttributeStore.Proofs.Steps

/-!
# Slots

A slot is the place of a key in a map.  A single operation puts a new holder into a slot, empties
it, or leaves in it what was there.  The holders that exist before an operation keep their values
and kinds, and their flags change by locking and marking alone.  Whatever is to be shown of the
runs of a store follows from these two facts and an induction over the single operations.

## Main definitions

* `Store.IsOpen`: slots that plain writes may fill.
* `Store.Fills`, `Operation.Drops`: the single operations that fill a slot and that empty it.
* `Operation.effectOn`: what an operation does to a holder that exists.

## Main results

* `Store.holder?_apply_of_fills`, `Store.holder?_apply_of_drops`, `Store.slot_cases`: what stands in
  a slot after a single operation.
* `Store.holder_apply`, `Store.holder_apply_of_fills`: the old holders and the new one.
-/

namespace AttributeStore

namespace Store

/-- A slot without a locked holder. -/
def IsOpen (store : Store) (m : MapId) (key : String) : Prop :=
  ∀ old ∈ store.holder? m key, (store.holder old).locked = false

/-- A single operation that makes a holder and puts it into a slot: a plain write that is accepted,
or an import of a holder. -/
inductive Fills (store : Store) (m : MapId) (key : String) : Operation → Holder → Prop
  | set (v : Value) (hm : store.HasMap m) (hname : IsValidName key) (hopen : store.IsOpen m key) :
      Fills store m key (.write m (.set key v))
        (.superseding ((store.holder? m key).map store.holder) v)
  | importHolder (id : HolderId) (hm : store.HasMap m) :
      Fills store m key (.write m (.importAll [(key, .holder id)])) (store.holder id)

end Store

/-- An operation that empties a slot. -/
inductive Operation.Drops (m : MapId) (key : String) : Operation → Prop
  | unset : Drops m key (.write m (.unset key))
  | clear : Drops m key (.write m .clear)

/-- What an operation does to a holder that exists before it. -/
def Operation.effectOn (id : HolderId) (h : Holder) : Operation → Holder
  | .lock id' => if id' = id then h.lock else h
  | .markPersistable id' => if id' = id then h.markPersistable else h
  | _ => h

namespace Store

variable (store : Store) {m m' : MapId} {key key' : String} {id : HolderId}

/-! ### The single writes -/

theorem isOpen_of_eq_none (h : store.holder? m key = none) : store.IsOpen m key := by
  simp [IsOpen, h]

theorem session_set_of_not_isValidName (hname : ¬ IsValidName key) (v : Value) :
    (store.session m).apply (.set key v) = store.session m := by
  simp [Session.apply, Session.set, hname]

theorem session_set_of_isValidName (hname : IsValidName key) (v : Value) :
    (store.session m).apply (.set key v) = ((store.session m).write key v).2 := by
  simp [Session.apply, Session.set, hname]

theorem apply_set_of_not_isValidName (hname : ¬ IsValidName key) (v : Value) :
    store.apply (.write m (.set key v)) = store := by
  rw [apply, session_set_of_not_isValidName store hname, commit_session]

theorem apply_set_of_isValidName (hname : IsValidName key) (v : Value) :
    store.apply (.write m (.set key v)) =
      store.commit m ((store.session m).write key v).2 := by
  rw [apply, session_set_of_isValidName store hname]

theorem session_write_of_isOpen (hopen : store.IsOpen m key) (v : Value) :
    ((store.session m).write key v).2 =
      ((store.session m).store key
        (.superseding ((store.holder? m key).map store.holder) v)).emit
          (.set key store.pool.nextId (store.holder? m key)) := by
  rw [Session.write_of_unlocked (store.session m) hopen]
  rfl

theorem session_write_of_not_isOpen (hlocked : ¬ store.IsOpen m key) (v : Value) :
    ((store.session m).write key v).2 = (store.session m).emit (.ignored key) := by
  simp only [IsOpen, not_forall, Bool.not_eq_false] at hlocked
  obtain ⟨old, hold, hlocked⟩ := hlocked
  rw [Session.write_of_locked (store.session m) hold hlocked]

theorem apply_importHolder (key : String) (id : HolderId) :
    store.apply (.write m (.importAll [(key, .holder id)])) =
      store.commit m (((store.session m).store key (store.holder id)).emit
        (.imported key store.pool.nextId)) := rfl

theorem holder?_commit (hm : store.HasMap m) (after : Session) :
    (store.commit m after).holder? m key = after.find? key := by
  simp only [holder?, store.table_commit_self m after hm]
  rfl

theorem find?_store (s : Session) (h : Holder) (key' : String) :
    (s.store key h).find? key' = if key' = key then some s.pool.nextId else s.find? key' :=
  Dict.get?_insert ..

theorem find?_emit (s : Session) (e : Event) (key : String) :
    (s.emit e).find? key = s.find? key := rfl

/-! ### What stands in a slot -/

theorem holder?_apply_of_fills {step : Operation} {new : Holder}
    (h : store.Fills m key step new) :
    (store.apply step).holder? m key = some store.pool.nextId := by
  cases h with
  | set v hm hname hopen =>
    rw [apply_set_of_isValidName store hname, session_write_of_isOpen store hopen,
      holder?_commit store hm, find?_emit, find?_store, if_pos rfl]
    rfl
  | importHolder id hm =>
    rw [apply_importHolder, holder?_commit store hm, find?_emit, find?_store, if_pos rfl]
    rfl

theorem pool_apply_of_fills {step : Operation} {new : Holder} (h : store.Fills m key step new) :
    (store.apply step).pool = store.pool.add new := by
  cases h with
  | set v hm hname hopen =>
    rw [apply_set_of_isValidName store hname, session_write_of_isOpen store hopen,
      pool_commit store m _ hm]
    rfl
  | importHolder id hm =>
    rw [apply_importHolder, pool_commit store m _ hm]
    rfl

/-- A filled slot holds the new holder. -/
theorem holder_apply_of_fills {step : Operation} {new : Holder} (h : store.Fills m key step new) :
    (store.apply step).holder store.pool.nextId = new := by
  rw [holder, store.pool_apply_of_fills h, Pool.holder_add_nextId]

theorem map_of_not_hasMap (hm : ¬ store.HasMap m) : store.map m = default := by
  simp only [HasMap, Nat.not_lt] at hm
  simp [map, Array.getD_eq_getD_getElem?, hm]

theorem holder?_of_not_hasMap (hm : ¬ store.HasMap m) : store.holder? m key = none := by
  rw [holder?, table, store.map_of_not_hasMap hm]
  rfl

theorem holder?_empty (m : MapId) (key : String) : empty.holder? m key = none :=
  empty.holder?_of_not_hasMap (Nat.not_lt_zero _)

theorem hasMap_of_holder? (h : store.holder? m key = some id) : store.HasMap m := by
  by_contra hm
  simp [store.holder?_of_not_hasMap hm] at h

theorem find?_unset (s : Session) (key' : String) :
    (s.unset key).2.find? key' = if key' = key then none else s.find? key' := by
  cases hfind : s.find? key with
  | none =>
    rw [Session.unset_of_none s hfind]
    split
    next heq => exact heq ▸ hfind
    next => rfl
  | some old =>
    rw [Session.unset_of_some s hfind]
    exact Dict.get?_erase ..

theorem holder?_apply_of_drops {step : Operation} (h : step.Drops m key) :
    (store.apply step).holder? m key = none := by
  by_cases hm : store.HasMap m
  · cases h with
    | unset => exact (holder?_commit store hm _).trans ((find?_unset _ _).trans (if_pos rfl))
    | clear => exact holder?_commit store hm _
  · exact holder?_of_not_hasMap _ fun hafter => hm (by
      cases h <;> exact (store.hasMap_commit m _ m).1 hafter)

/-- A map that is just added is empty, and the tables of the others are what they were. -/
private theorem table_addMap (plan : MapPlan) :
    (store.addMap plan.emptyMap).2.table m = store.table m := by
  simp only [table, map, addMap, Array.getD_eq_getD_getElem?, Array.getElem?_push]
  split
  next hnew =>
    rw [Array.getElem?_eq_none (Nat.le_of_eq hnew.symm)]
    rfl
  next => rfl

/-- A single operation that does not write to a map keeps its table. -/
theorem table_apply_of_not_write {step : Operation} (hsingle : step.IsSingle)
    (hother : ∀ w, step ≠ .write m w) : (store.apply step).table m = store.table m := by
  cases step with
  | build plan => rw [apply_build_of_values_eq_nil store hsingle, table_addMap]
  | write m' w =>
    have hne : m ≠ m' := by
      rintro rfl
      exact hother w rfl
    exact store.table_commit_of_ne m' _ hne
  | takeOwnLines m' => exact store.map_modifyMap_part m' (·.table) m _ fun _ => rfl
  | _ => rfl

/-- A write that neither fills nor empties a slot of its map leaves in it what is there. -/
private theorem holder?_apply_write_of_kept {w : Write} (hm : store.HasMap m)
    (hsingle : (Operation.write m w).IsSingle)
    (hfills : ∀ new, ¬ store.Fills m key (.write m w) new)
    (hdrops : ¬ (Operation.write m w).Drops m key) :
    (store.apply (.write m w)).holder? m key = store.holder? m key := by
  cases w with
  | set key' v =>
    by_cases hname : IsValidName key'
    · rw [apply_set_of_isValidName store hname, holder?_commit store hm]
      by_cases hopen : store.IsOpen m key'
      · have hkey : key ≠ key' := by
          rintro rfl
          exact hfills _ (.set v hm hname hopen)
        rw [session_write_of_isOpen store hopen, find?_emit, find?_store, if_neg hkey]
        rfl
      · rw [session_write_of_not_isOpen store hopen]
        rfl
    · rw [apply_set_of_not_isValidName store hname]
  | unset key' =>
    have hkey : key ≠ key' := by
      rintro rfl
      exact hdrops .unset
    exact (holder?_commit store hm _).trans ((find?_unset _ _).trans (if_neg hkey))
  | clear => exact absurd .clear hdrops
  | importAll entries =>
    obtain ⟨key', id, rfl⟩ := hsingle
    have hkey : key ≠ key' := by
      rintro rfl
      exact hfills _ (.importHolder id hm)
    rw [apply_importHolder, holder?_commit store hm, find?_emit, find?_store, if_neg hkey]
    rfl

/-- A single operation that neither fills nor empties a slot leaves in it what is there. -/
theorem holder?_apply_of_kept {step : Operation} (hsingle : step.IsSingle)
    (hfills : ∀ new, ¬ store.Fills m key step new) (hdrops : ¬ step.Drops m key) :
    (store.apply step).holder? m key = store.holder? m key := by
  by_cases hwrite : ∃ w, step = .write m w
  · obtain ⟨w, rfl⟩ := hwrite
    by_cases hm : store.HasMap m
    · exact store.holder?_apply_write_of_kept hm hsingle hfills hdrops
    · exact congrArg (Store.holder? · m key) (commit_of_not_hasMap store m _ hm)
  · exact congrArg (Dict.get? · key)
      (store.table_apply_of_not_write hsingle fun w hw => hwrite ⟨w, hw⟩)

/-- A single operation fills a slot, empties it, or leaves in it what is there. -/
theorem slot_cases (m : MapId) (key : String) {step : Operation} (hsingle : step.IsSingle) :
    (∃ new, store.Fills m key step new) ∨ step.Drops m key ∨
      ((∀ new, ¬ store.Fills m key step new) ∧
        (store.apply step).holder? m key = store.holder? m key) := by
  by_cases hfills : ∃ new, store.Fills m key step new
  · exact .inl hfills
  · have hnot := not_exists.1 hfills
    by_cases hdrops : step.Drops m key
    · exact .inr (.inl hdrops)
    · exact .inr (.inr ⟨hnot, store.holder?_apply_of_kept hsingle hnot hdrops⟩)

/-! ### The holders that exist -/

/-- A single write fills a slot, or it makes no holder; it changes none. -/
theorem pool_apply_write {w : Write} (hsingle : (Operation.write m w).IsSingle) :
    (store.apply (.write m w)).pool = store.pool ∨
      ∃ key new, store.Fills m key (.write m w) new := by
  by_cases hm : store.HasMap m
  · cases w with
    | set key v =>
      by_cases hname : IsValidName key
      · by_cases hopen : store.IsOpen m key
        · exact .inr ⟨key, _, .set v hm hname hopen⟩
        · rw [apply_set_of_isValidName store hname, session_write_of_not_isOpen store hopen]
          exact .inl (store.pool_commit m _ hm)
      · rw [apply_set_of_not_isValidName store hname]
        exact .inl rfl
    | unset key =>
      have hpool : ((store.session m).apply (.unset key)).pool = store.pool := by
        cases hfind : (store.session m).find? key with
        | none =>
          rw [Session.apply, Session.unset_of_none _ hfind]
          rfl
        | some old =>
          rw [Session.apply, Session.unset_of_some _ hfind]
          rfl
      exact .inl ((store.pool_commit m _ hm).trans hpool)
    | clear => exact .inl (store.pool_commit m _ hm)
    | importAll entries =>
      obtain ⟨key, id, rfl⟩ := hsingle
      exact .inr ⟨key, _, .importHolder id hm⟩
  · exact .inl (congrArg Store.pool (commit_of_not_hasMap store m _ hm))

/-- A change of one holder that exists. -/
private theorem holder_modify (hid : id.index < store.pool.size) (id' : HolderId)
    (change : Holder → Holder) :
    (store.pool.modify id' change).holder id =
      if id' = id then change (store.holder id) else store.holder id := by
  split
  next heq => exact heq ▸ Pool.holder_modify_self _ _ (heq ▸ hid)
  next hne => exact Pool.holder_modify_of_ne _ _ (Ne.symm hne)

/-- A holder that exists changes by locking and marking alone, and only in its flags. -/
theorem holder_apply {step : Operation} (hsingle : step.IsSingle)
    (hid : id.index < store.pool.size) :
    (store.apply step).holder id = step.effectOn id (store.holder id) := by
  cases step with
  | build plan => rw [apply_build_of_values_eq_nil store hsingle]; rfl
  | newHolder v kind => exact Pool.holder_add_of_lt _ _ hid
  | cloneHolder id' => exact Pool.holder_add_of_lt _ _ hid
  | lock id' => exact store.holder_modify hid id' Holder.lock
  | markPersistable id' => exact store.holder_modify hid id' Holder.markPersistable
  | write m w =>
    simp only [holder, Operation.effectOn]
    rcases store.pool_apply_write hsingle with hpool | ⟨key, new, hfills⟩
    · rw [hpool]
    · rw [store.pool_apply_of_fills hfills, Pool.holder_add_of_lt _ _ hid]
  | _ => rfl

/-- No holder is ever unmade. -/
theorem size_le_size_apply {step : Operation} (hsingle : step.IsSingle) :
    store.pool.size ≤ (store.apply step).pool.size := by
  have hadd (h : Holder) : store.pool.size ≤ (store.pool.add h).size := by
    rw [Pool.size_add]
    exact Nat.le_succ _
  cases step with
  | build plan =>
    rw [apply_build_of_values_eq_nil store hsingle]
    exact Nat.le_refl _
  | newHolder v kind => exact hadd _
  | cloneHolder id => exact hadd _
  | lock id => exact Nat.le_of_eq (Pool.size_modify _ _ _).symm
  | markPersistable id => exact Nat.le_of_eq (Pool.size_modify _ _ _).symm
  | write m w =>
    rcases store.pool_apply_write hsingle with hpool | ⟨key, new, hfills⟩
    · exact Nat.le_of_eq (congrArg Pool.size hpool).symm
    · rw [store.pool_apply_of_fills hfills]
      exact hadd new
  | _ => exact Nat.le_refl _

theorem size_le_size_run (operations : List Operation) :
    store.pool.size ≤ (store.run operations).pool.size :=
  store.run_induction (P := fun current => store.pool.size ≤ current.pool.size) (Nat.le_refl _)
    fun current _ _ hsingle h => Nat.le_trans h (current.size_le_size_apply hsingle)

end Store

end AttributeStore
