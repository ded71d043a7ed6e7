import AttributeStore.Proofs.Identity

/-!
# Replaying events

The events of a map tell everything that happens to its table.  Folded over the table of any moment
they give the table of every later moment, holder by holder.  Each event moreover says how things
stand in the store in which it is emitted: what was replaced or removed stood under the key, what
was replaced was not locked, a write was refused because of a lock, and a holder that was stored
had never been in any map.

## Main definitions

* `Event.applyTo`, `replay`: the table after one event and after many.
* `Store.NeverStored`: holders that were in no map so far.
* `Store.Justifies`: what an event says about the store in which it is emitted.

## Main results

* `Store.replay_steps`, `Store.exists_step_of_history`: the events of single operations.
* `Store.replay_history`: the events of a map replay its table and are justified.
-/

namespace AttributeStore

/-- The table after an event. -/
def Event.applyTo (table : Dict HolderId) : Event → Dict HolderId
  | .set key id _ => table.insert key id
  | .ignored _ => table
  | .imported key id => table.insert key id
  | .removed key _ => table.erase key
  | .cleared => .empty

/-- The table after some events, the first one first. -/
def replay (table : Dict HolderId) (events : List Event) : Dict HolderId :=
  events.foldl Event.applyTo table

theorem replay_append (table : Dict HolderId) (first second : List Event) :
    replay table (first ++ second) = replay (replay table first) second :=
  List.foldl_append

namespace Store

/-- A holder that was in no slot of a store, nor in one of any store that led to it. -/
def NeverStored (store : Store) (id : HolderId) : Prop :=
  ∀ (earlier : Store) (operations : List Operation), earlier.Reachable →
    earlier.run operations = store → ∀ (m : MapId) (key : String), earlier.holder? m key ≠ some id

/-- What an event of a map says about the store in which it is emitted. -/
def Justifies (store : Store) (m : MapId) : Event → Prop
  | .set key id replaced =>
    replaced = store.holder? m key ∧ (∀ old ∈ replaced, (store.holder old).locked = false) ∧
      store.NeverStored id
  | .ignored key => ∃ old, store.holder? m key = some old ∧ (store.holder old).locked = true
  | .imported _ id => store.NeverStored id
  | .removed key id => store.holder? m key = some id
  | .cleared => True

variable (store : Store) {m : MapId}

/-! ### The event of a single operation -/

/-- The next holder to be made was in no map before. -/
theorem neverStored_nextId : store.NeverStored store.pool.nextId := by
  intro earlier operations hreachable hrun m key hslot
  have hissued := hreachable.unaliased.issued hslot
  have hsize := earlier.size_le_size_run operations
  simp only [Pool.nextId, hrun] at hissued hsize
  omega

/-- The session of a single write emits nothing and keeps the table, or it emits one event, which
tells what it does. -/
private theorem emitted_session_cases {w : Write} (hsingle : (Operation.write m w).IsSingle) :
    (((store.session m).apply w).emitted = [] ∧
        ((store.session m).apply w).table = store.table m) ∨
      ∃ e, ((store.session m).apply w).emitted = [e] ∧
        ((store.session m).apply w).table = e.applyTo (store.table m) ∧ store.Justifies m e := by
  cases w with
  | set key v =>
    by_cases hname : IsValidName key
    · rw [session_set_of_isValidName store hname]
      by_cases hopen : store.IsOpen m key
      · rw [session_write_of_isOpen store hopen]
        exact .inr ⟨_, rfl, rfl, rfl, hopen, store.neverStored_nextId⟩
      · rw [session_write_of_not_isOpen store hopen]
        simp only [IsOpen, not_forall, Bool.not_eq_false] at hopen
        obtain ⟨old, hold, hlocked⟩ := hopen
        exact .inr ⟨_, rfl, rfl, old, hold, hlocked⟩
    · rw [session_set_of_not_isValidName store hname]
      exact .inl ⟨rfl, rfl⟩
  | unset key =>
    cases hfind : store.holder? m key with
    | none =>
      simp only [Session.apply, Session.unset_of_none (store.session m) hfind]
      exact .inl ⟨rfl, rfl⟩
    | some old =>
      simp only [Session.apply, Session.unset_of_some (store.session m) hfind]
      exact .inr ⟨_, rfl, rfl, hfind⟩
  | clear => exact .inr ⟨_, rfl, rfl, trivial⟩
  | importAll entries =>
    obtain ⟨key, id, rfl⟩ := hsingle
    exact .inr ⟨_, rfl, rfl, store.neverStored_nextId⟩

private theorem emitted_of_not_write {step : Operation} (hother : ∀ w, step ≠ .write m w) :
    store.emitted m step = [] := by
  cases step with
  | write m' w =>
    have hne : m' ≠ m := by
      rintro rfl
      exact hother w rfl
    exact if_neg hne
  | _ => rfl

/-- A single operation emits nothing and keeps the table, or it emits one event, which tells what it
does to the table and how things stand before it. -/
theorem emitted_cases (hm : store.HasMap m) {step : Operation} (hsingle : step.IsSingle) :
    (store.emitted m step = [] ∧ (store.apply step).table m = store.table m) ∨
      ∃ e, store.emitted m step = [e] ∧ (store.apply step).table m = e.applyTo (store.table m) ∧
        store.Justifies m e := by
  by_cases hwrite : ∃ w, step = .write m w
  · obtain ⟨w, rfl⟩ := hwrite
    have htable : (store.apply (.write m w)).table m = ((store.session m).apply w).table :=
      store.table_commit_self m _ hm
    have hemitted : store.emitted m (.write m w) = ((store.session m).apply w).emitted :=
      if_pos rfl
    rw [htable, hemitted]
    exact store.emitted_session_cases hsingle
  · have hother (w : Write) (hw : step = .write m w) : False := hwrite ⟨w, hw⟩
    exact .inl ⟨store.emitted_of_not_write hother, store.table_apply_of_not_write hsingle hother⟩

private theorem channel_apply_of_not_write (hm : store.HasMap m) {step : Operation}
    (hsingle : step.IsSingle) (hother : ∀ w, step ≠ .write m w) :
    ((store.apply step).map m).channel = (store.map m).channel := by
  cases step with
  | build plan =>
    rw [apply_build_of_values_eq_nil store hsingle, map_addMap_of_hasMap store m hm]
  | write m' w =>
    have hne : m ≠ m' := by
      rintro rfl
      exact hother w rfl
    exact congrArg AttributeMap.channel (store.map_commit_of_ne m' _ hne)
  | takeOwnLines m' => exact store.map_modifyMap_part m' (·.channel) m _ fun _ => rfl
  | _ => rfl

/-- The events that an operation emits go through the channel of the map. -/
theorem channel_apply (hm : store.HasMap m) {step : Operation} (hsingle : step.IsSingle) :
    ((store.apply step).map m).channel =
      (store.emitted m step).foldl Channel.send (store.map m).channel := by
  by_cases hwrite : ∃ w, step = .write m w
  · obtain ⟨w, rfl⟩ := hwrite
    simp only [emitted, if_pos]
    exact store.channel_commit_self m _ hm
  · have hother (w : Write) (hw : step = .write m w) : False := hwrite ⟨w, hw⟩
    rw [store.emitted_of_not_write hother]
    exact store.channel_apply_of_not_write hm hsingle hother

/-! ### The events of a run -/

/-- The events of single operations replay the table of their map, and they are what its channel is
sent. -/
theorem replay_steps (hm : store.HasMap m) {steps : List Operation}
    (hsingle : ∀ step ∈ steps, step.IsSingle) :
    replay (store.table m) (store.history m steps) = (store.run steps).table m ∧
      ((store.run steps).map m).channel =
        (store.history m steps).foldl Channel.send (store.map m).channel := by
  induction steps generalizing store with
  | nil => exact ⟨rfl, rfl⟩
  | cons step rest ih =>
    have hstep := hsingle step List.mem_cons_self
    obtain ⟨htable, hchannel⟩ := ih (store.apply step) (store.hasMap_apply hm step)
      fun s hs => hsingle s (List.mem_cons_of_mem _ hs)
    have hfirst : replay (store.table m) (store.emitted m step) = (store.apply step).table m := by
      rcases store.emitted_cases hm hstep with ⟨hnone, hkept⟩ | ⟨e, hone, hchanged, -⟩
      · rw [hnone, hkept]
        rfl
      · rw [hone, hchanged]
        rfl
    constructor
    · rw [history, replay_append, hfirst]
      exact htable
    · rw [history, List.foldl_append, ← store.channel_apply hm hstep]
      exact hchannel

/-- Every event of a history is the only one of some single operation, which is taken in a store in
which the event is justified. -/
theorem exists_step_of_history (hm : store.HasMap m) {steps : List Operation}
    (hsingle : ∀ step ∈ steps, step.IsSingle) {earlier later : List Event} {e : Event}
    (h : store.history m steps = earlier ++ e :: later) :
    ∃ before step after, steps = before ++ step :: after ∧ store.history m before = earlier ∧
      (store.run before).emitted m step = [e] ∧ (store.run before).Justifies m e := by
  induction steps generalizing store earlier with
  | nil => simp [history] at h
  | cons step rest ih =>
    have hnext := store.hasMap_apply hm step
    have hrest (s : Operation) (hs : s ∈ rest) : s.IsSingle :=
      hsingle s (List.mem_cons_of_mem _ hs)
    rw [history] at h
    -- A step that emits nothing is passed over; one that emits is the step of the first event.
    rcases store.emitted_cases hm (hsingle step List.mem_cons_self) with
      ⟨hnone, -⟩ | ⟨first, hone, -, hjustified⟩
    · rw [hnone, List.nil_append] at h
      obtain ⟨before, step', after, rfl, hearlier, hstep⟩ := ih _ hnext hrest h
      exact ⟨step :: before, step', after, rfl, by rw [history, hnone]; exact hearlier, hstep⟩
    · rw [hone] at h
      cases earlier with
      | nil =>
        obtain ⟨rfl, -⟩ := List.cons.inj h
        exact ⟨[], step, rest, rfl, rfl, hone, hjustified⟩
      | cons e' earlier =>
        obtain ⟨rfl, hlater⟩ := List.cons.inj h
        obtain ⟨before, step', after, rfl, hearlier, hstep⟩ := ih _ hnext hrest hlater
        refine ⟨step :: before, step', after, rfl, ?_, hstep⟩
        rw [history, hone, hearlier]
        rfl

/-- The events that a run makes a map emit are what the channel of the map is sent.  Folded over the
table of the map they give the table after the run.  Each of them is emitted by a single operation
of the run, with the events before it emitted earlier and none beside it, and is justified in the
store in which this operation is taken. -/
theorem replay_history {store : Store} {m : MapId} (hm : store.HasMap m)
    (operations : List Operation) :
    replay (store.table m) (store.history m operations) = (store.run operations).table m ∧
      ((store.run operations).map m).channel =
        (store.history m operations).foldl Channel.send (store.map m).channel ∧
      ∀ earlier e later, store.history m operations = earlier ++ e :: later →
        ∃ before step after, store.unbundled operations = before ++ step :: after ∧
          store.history m before = earlier ∧ (store.run before).emitted m step = [e] ∧
          (store.run before).Justifies m e := by
  have hsingle (step : Operation) (h : step ∈ store.unbundled operations) : step.IsSingle :=
    store.isSingle_of_mem_unbundled h
  have hsteps := store.replay_steps hm hsingle
  rw [store.history_unbundled hm, run_unbundled] at hsteps
  refine ⟨hsteps.1, hsteps.2, fun earlier e later h => ?_⟩
  rw [← store.history_unbundled hm] at h
  exact store.exists_step_of_history hm hsingle h

/-- A locked holder that is written to, overwritten by an import and then taken out. -/
theorem replay_history_of_new_map :
    (empty.run [.build {}]).HasMap ⟨0⟩ ∧
      replay ((empty.run [.build {}]).table ⟨0⟩) ((empty.run [.build {}]).history ⟨0⟩
        [.write ⟨0⟩ (.set "a" .null), .lock ⟨0⟩, .write ⟨0⟩ (.set "a" (.bool true)),
          .write ⟨0⟩ (.importAll [("a", .holder ⟨0⟩)]), .write ⟨0⟩ (.unset "a")]) =
        ((empty.run [.build {}]).run [.write ⟨0⟩ (.set "a" .null), .lock ⟨0⟩,
          .write ⟨0⟩ (.set "a" (.bool true)), .write ⟨0⟩ (.importAll [("a", .holder ⟨0⟩)]),
          .write ⟨0⟩ (.unset "a")]).table ⟨0⟩ :=
  ⟨by decide, (replay_history (by decide) _).1⟩

/-- The same run: the refused write says so, and the holder that is imported is a new one. -/
example :
    (empty.run [.build {}]).history ⟨0⟩ [.write ⟨0⟩ (.set "a" .null), .lock ⟨0⟩,
      .write ⟨0⟩ (.set "a" (.bool true)), .write ⟨0⟩ (.importAll [("a", .holder ⟨0⟩)]),
      .write ⟨0⟩ (.unset "a")] =
    [.set "a" ⟨0⟩ none, .ignored "a", .imported "a" ⟨1⟩, .removed "a" ⟨1⟩] := rfl

end Store

end AttributeStore
