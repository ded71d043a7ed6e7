import AttributeStore.Store.Operation
import Mathlib.Logic.Basic

/-!
# Commits

The end of a write takes over the holders and the table of its session and then publishes the
events of the session.  Publishing touches neither holders nor tables, and it commutes with taking
them over.  Two writes to one map, one after the other, are therefore one write whose session did
both.

## Main definitions

* `Session.resume`: a session with earlier events in front of its own.
* `Log.note`, `SharedLog.note`: the logs after an event.

## Main results

* `Store.pool_commit`, `Store.table_commit_self`, `Store.channel_commit_self`,
  `Store.ownLog_commit_self`, `Store.sharedLog_commit`: what a commit leaves behind.
* `Store.commit_commit`: two commits to one map are one.
-/

namespace AttributeStore

namespace Session

/-- A session that had emitted other events before. -/
def resume (earlier : List Event) (s : Session) : Session :=
  { s with emitted := earlier ++ s.emitted }

variable (s : Session) (earlier : List Event)

theorem write_resume (key : String) (v : Value) :
    (s.resume earlier).write key v =
      ((s.write key v).1, (s.write key v).2.resume earlier) := by
  by_cases h : ∀ old ∈ s.find? key, (s.pool.holder old).locked = false
  · rw [write_of_unlocked s h, write_of_unlocked (s.resume earlier) h]
    simp [emit, store, resume, find?]
  · simp only [not_forall, Bool.not_eq_false] at h
    obtain ⟨old, hold, hlocked⟩ := h
    rw [write_of_locked s hold hlocked, write_of_locked (s.resume earlier) hold hlocked]
    simp [emit, resume]

theorem set_resume (key : String) (v : Value) :
    (s.resume earlier).set key v =
      (s.set key v).map fun result => (result.1, result.2.resume earlier) := by
  simp only [set]
  split
  · rw [write_resume]
    rfl
  · rfl

theorem importEntry_resume (key : String) (entry : Entry) :
    (s.resume earlier).importEntry key entry =
      (s.importEntry key entry).map (resume earlier) := by
  unfold importEntry
  split
  · rfl
  · rw [set_resume]
    cases s.set key _ <;> rfl
  · simp [importCopy, emit, store, resume, Except.map]

theorem importAll_resume (entries : List (String × Entry)) :
    (s.resume earlier).importAll entries =
      ((s.importAll entries).1, (s.importAll entries).2.resume earlier) := by
  induction entries generalizing s with
  | nil => rfl
  | cons e rest ih =>
    obtain ⟨key, entry⟩ := e
    simp only [importAll, importEntry_resume]
    cases s.importEntry key entry with
    | ok next => exact ih next
    | error e => rfl

/-- What was emitted before an import has no bearing on it. -/
theorem importAll_restart (entries : List (String × Entry)) :
    s.importAll entries =
      ((({ s with emitted := [] } : Session).importAll entries).1,
        (({ s with emitted := [] } : Session).importAll entries).2.resume s.emitted) := by
  rw [← importAll_resume]
  simp [resume]

/-- Importing entries is importing the first ones and, if they succeed, the others. -/
theorem importAll_append (s : Session) (first second : List (String × Entry)) :
    s.importAll (first ++ second) =
      match s.importAll first with
      | (.ok (), next) => next.importAll second
      | (.error e, next) => (.error e, next) := by
  induction first generalizing s with
  | nil => rfl
  | cons e rest ih =>
    simp only [List.cons_append, importAll]
    cases s.importEntry e.1 e.2 with
    | ok next => exact ih next
    | error e => rfl

end Session

/-- The own log of a map after an event of the map. -/
def Log.note (log : Log) (e : Event) : Log :=
  match e.refusedKey? with
  | some key => log.add (.refusal key)
  | none => log

/-- The shared log after an event of a map that has no log of its own. -/
def SharedLog.note (shared : SharedLog) (e : Event) : SharedLog :=
  match e.refusedKey? with
  | some key => shared.add (.refusal key)
  | none => shared

private theorem modify_modify {α : Type} (values : Array α) (i : Nat) (first second : α → α) :
    (values.modify i first).modify i second = values.modify i fun a => second (first a) := by
  refine Array.ext_getElem? fun j => ?_
  simp only [Array.getElem?_modify]
  split
  · cases values[j]? <;> rfl
  · rfl

namespace Store

variable (store : Store) (m : MapId)

/-! ### Changes of one map -/

@[simp]
theorem size_maps_modifyMap (change : AttributeMap → AttributeMap) :
    (store.modifyMap m change).maps.size = store.maps.size :=
  Array.size_modify

theorem map_modifyMap_self (hm : store.HasMap m) (change : AttributeMap → AttributeMap) :
    (store.modifyMap m change).map m = change (store.map m) := by
  simp only [HasMap] at hm
  simp [map, modifyMap, Array.getD_eq_getD_getElem?, hm, Array.getElem_modify]

theorem map_modifyMap_of_ne {m' : MapId} (hne : m' ≠ m) (change : AttributeMap → AttributeMap) :
    (store.modifyMap m change).map m' = store.map m' := by
  have hindex : m.index ≠ m'.index := fun h => hne (by cases m; cases m'; simp_all)
  simp [map, modifyMap, Array.getD_eq_getD_getElem?, Array.getElem?_modify, hindex]

/-- A change of a map that keeps one of its parts keeps this part of every map. -/
theorem map_modifyMap_part {α : Type} (part : AttributeMap → α) (m' : MapId)
    (change : AttributeMap → AttributeMap) (h : ∀ a, part (change a) = part a) :
    part ((store.modifyMap m change).map m') = part (store.map m') := by
  simp only [map, modifyMap, Array.getD_eq_getD_getElem?, Array.getElem?_modify]
  split
  · cases store.maps[m'.index]? with
    | none => rfl
    | some a => exact h a
  · rfl

/-- A map that is added leaves the others as they are. -/
theorem map_addMap_of_hasMap (hm : store.HasMap m) (a : AttributeMap) :
    (store.addMap a).2.map m = store.map m := by
  have hold : m.index ≠ store.maps.size := Nat.ne_of_lt hm
  simp [map, addMap, Array.getD_eq_getD_getElem?, Array.getElem?_push, hold]

theorem map_addMap_self (a : AttributeMap) : (store.addMap a).2.map ⟨store.maps.size⟩ = a := by
  simp [map, addMap, Array.getD_eq_getD_getElem?]

theorem hasMap_addMap_self (a : AttributeMap) :
    (store.addMap a).2.HasMap ⟨store.maps.size⟩ := by
  simp [HasMap, addMap]

/-! ### Publishing -/

variable (e : Event)

@[simp]
theorem pool_report (key : String) : (store.report m key).pool = store.pool := by
  unfold report
  split <;> rfl

@[simp]
theorem size_maps_report (key : String) : (store.report m key).maps.size = store.maps.size := by
  unfold report
  split <;> simp

/-- A report changes nothing of a map but its log. -/
theorem map_report_part {α : Type} (part : AttributeMap → α) (m' : MapId) (key : String)
    (h : ∀ a log, part { a with ownLog := log } = part a) :
    part ((store.report m key).map m') = part (store.map m') := by
  unfold report
  split
  · exact store.map_modifyMap_part m part m' _ fun a => h a _
  · rfl

@[simp]
theorem pool_publish : (store.publish m e).pool = store.pool := by
  cases h : e.refusedKey? <;> simp [publish, modifyMap, h]

@[simp]
theorem size_maps_publish : (store.publish m e).maps.size = store.maps.size := by
  cases h : e.refusedKey? <;> simp [publish, h]

@[simp]
theorem table_publish (m' : MapId) : (store.publish m e).table m' = store.table m' := by
  unfold publish table
  rw [map_modifyMap_part _ m (·.table) m' (fun a => { a with channel := a.channel.send e })
    fun _ => rfl]
  split
  · exact store.map_report_part m (·.table) m' _ fun _ _ => rfl
  · rfl

theorem channel_publish_self (hm : store.HasMap m) :
    ((store.publish m e).map m).channel = (store.map m).channel.send e := by
  unfold publish
  split
  next key h =>
    have hreport : (store.report m key).HasMap m := by simpa [HasMap] using hm
    rw [map_modifyMap_self _ m hreport,
      store.map_report_part m (·.channel) m key fun _ _ => rfl]
  next => rw [map_modifyMap_self _ m hm]

theorem map_report_of_ne {m' : MapId} (hne : m' ≠ m) (key : String) :
    (store.report m key).map m' = store.map m' := by
  unfold report
  split
  · exact store.map_modifyMap_of_ne m hne _
  · rfl

theorem map_publish_of_ne {m' : MapId} (hne : m' ≠ m) :
    (store.publish m e).map m' = store.map m' := by
  unfold publish
  rw [map_modifyMap_of_ne _ m hne]
  split
  · exact store.map_report_of_ne m hne _
  · rfl

theorem ownLog_publish_self (hm : store.HasMap m) :
    ((store.publish m e).map m).ownLog = (store.map m).ownLog.map (Log.note · e) := by
  unfold publish Log.note
  rw [map_modifyMap_part _ m (·.ownLog) m (fun a => { a with channel := a.channel.send e })
    fun _ => rfl]
  cases e.refusedKey? with
  | none => simp
  | some key =>
    dsimp only
    by_cases hown : (store.map m).ownLog.isSome
    · rw [report, if_pos hown]
      exact congrArg AttributeMap.ownLog (store.map_modifyMap_self m hm _)
    · rw [report, if_neg hown]
      rw [Option.not_isSome_iff_eq_none] at hown
      exact hown.trans (by rw [hown]; rfl)

theorem sharedLog_publish :
    (store.publish m e).sharedLog =
      if (store.map m).ownLog.isSome then store.sharedLog else store.sharedLog.note e := by
  unfold publish SharedLog.note
  cases e.refusedKey? with
  | none => exact (ite_self _).symm
  | some key =>
    simp only [report, modifyMap]
    split <;> rfl

/-- Receivers have no bearing on what is published. -/
private theorem publish_withReceivers (receivers : Array Receiver) :
    ({ store with receivers } : Store).publish m e =
      { store.publish m e with receivers } := by
  have hreport (key : String) : ({ store with receivers } : Store).report m key =
      { store.report m key with receivers } := by
    by_cases hown : (store.map m).ownLog.isSome
    · rw [report, report, if_pos hown]
      exact if_pos hown
    · rw [report, report, if_neg hown]
      exact if_neg hown
  unfold publish
  cases e.refusedKey? with
  | none => rfl
  | some key => exact congrArg (modifyMap · m _) (hreport key)

/-! ### Taking over a session -/

variable (after : Session)

theorem adopt_modifyMap {change : AttributeMap → AttributeMap}
    (h : ∀ a table, { change a with table := table } = change { a with table := table }) :
    (store.modifyMap m change).adopt m after = (store.adopt m after).modifyMap m change := by
  have hchange : (fun a => { change a with table := after.table }) =
      fun a => change { a with table := after.table } :=
    funext fun a => h a after.table
  simp only [adopt, modifyMap, modify_modify, hchange]

private theorem ownLog_adopt (m' : MapId) :
    ((store.adopt m after).map m').ownLog = (store.map m').ownLog :=
  map_modifyMap_part { store with pool := after.pool } m (·.ownLog) m' _ fun _ => rfl

theorem adopt_report (key : String) :
    (store.report m key).adopt m after = (store.adopt m after).report m key := by
  unfold report
  rw [ownLog_adopt]
  split
  · exact store.adopt_modifyMap m after fun _ _ => rfl
  · rfl

/-- Events of a map are published in the same way whatever its holders and its table are. -/
theorem adopt_publish : (store.publish m e).adopt m after = (store.adopt m after).publish m e := by
  unfold publish
  refine (adopt_modifyMap _ m after fun _ _ => rfl).trans ?_
  split
  · rw [adopt_report]
  · rfl

/-- Of two sessions that are taken over one after the other, the second one stays. -/
theorem adopt_adopt (first : Session) :
    (store.adopt m first).adopt m after = store.adopt m after := by
  simp only [adopt, modifyMap, modify_modify]

/-! ### Commits -/

/-- Publishes events of a map, the first one first. -/
private def publishAll (events : List Event) : Store :=
  events.foldl (fun current e => current.publish m e) store

private theorem commit_eq (hm : store.HasMap m) :
    store.commit m after = (store.adopt m after).publishAll m after.emitted :=
  if_pos hm

/-- What every event that is published keeps, all of them together keep. -/
private theorem publishAll_part {α : Type} (part : Store → α)
    (h : ∀ current e, part (publish current m e) = part current) (events : List Event) :
    part (store.publishAll m events) = part store := by
  induction events generalizing store with
  | nil => rfl
  | cons e rest ih => exact (ih (store.publish m e)).trans (h store e)

private theorem adopt_publishAll (events : List Event) :
    (store.publishAll m events).adopt m after = (store.adopt m after).publishAll m events := by
  induction events generalizing store with
  | nil => rfl
  | cons e rest ih =>
    have hfirst := ih (store.publish m e)
    rwa [adopt_publish] at hfirst

theorem commit_of_not_hasMap (hm : ¬ store.HasMap m) : store.commit m after = store :=
  if_neg hm

@[simp]
theorem size_maps_commit : (store.commit m after).maps.size = store.maps.size := by
  by_cases hm : store.HasMap m
  · rw [commit_eq store m after hm, publishAll_part _ m (·.maps.size) fun _ _ => by simp]
    simp [adopt]
  · rw [commit_of_not_hasMap store m after hm]

@[simp]
theorem hasMap_commit (m' : MapId) : (store.commit m after).HasMap m' ↔ store.HasMap m' := by
  simp only [HasMap, size_maps_commit]

theorem pool_commit (hm : store.HasMap m) : (store.commit m after).pool = after.pool := by
  rw [commit_eq store m after hm, publishAll_part _ m (·.pool) fun _ _ => by simp]
  rfl

theorem table_commit_self (hm : store.HasMap m) :
    (store.commit m after).table m = after.table := by
  rw [commit_eq store m after hm, publishAll_part _ m (·.table m) fun _ _ => by simp]
  exact congrArg AttributeMap.table (map_modifyMap_self { store with pool := after.pool } m hm _)

/-- A commit to one map leaves the others as they are. -/
theorem map_commit_of_ne {m' : MapId} (hne : m' ≠ m) :
    (store.commit m after).map m' = store.map m' := by
  by_cases hm : store.HasMap m
  · rw [commit_eq store m after hm,
      publishAll_part _ m (·.map m') fun current e => current.map_publish_of_ne m e hne]
    exact map_modifyMap_of_ne { store with pool := after.pool } m hne _
  · rw [commit_of_not_hasMap store m after hm]

theorem table_commit_of_ne {m' : MapId} (hne : m' ≠ m) :
    (store.commit m after).table m' = store.table m' :=
  congrArg AttributeMap.table (store.map_commit_of_ne m after hne)

private theorem channel_publishAll (hm : store.HasMap m) (events : List Event) :
    ((store.publishAll m events).map m).channel =
      events.foldl Channel.send (store.map m).channel := by
  induction events generalizing store with
  | nil => rfl
  | cons e rest ih =>
    have hnext : (store.publish m e).HasMap m := by simpa [HasMap] using hm
    rw [List.foldl_cons, ← store.channel_publish_self m e hm]
    exact ih (store.publish m e) hnext

/-- The events of a write go through the channel of its map in their order. -/
theorem channel_commit_self (hm : store.HasMap m) :
    ((store.commit m after).map m).channel =
      after.emitted.foldl Channel.send (store.map m).channel := by
  have hadopt : (store.adopt m after).HasMap m := by simpa [HasMap, adopt] using hm
  rw [commit_eq store m after hm, channel_publishAll _ m hadopt]
  have hchannel : ((store.adopt m after).map m).channel = (store.map m).channel :=
    map_modifyMap_part { store with pool := after.pool } m (·.channel) m _ fun _ => rfl
  rw [hchannel]

private theorem logs_publishAll (hm : store.HasMap m) (events : List Event) :
    ((store.publishAll m events).map m).ownLog =
        (store.map m).ownLog.map (fun log => events.foldl Log.note log) ∧
      (store.publishAll m events).sharedLog =
        if (store.map m).ownLog.isSome then store.sharedLog
        else events.foldl SharedLog.note store.sharedLog := by
  induction events generalizing store with
  | nil => exact ⟨by simp [publishAll], (ite_self _).symm⟩
  | cons e rest ih =>
    have hnext : (store.publish m e).HasMap m := by simpa [HasMap] using hm
    obtain ⟨hown, hshared⟩ := ih (store.publish m e) hnext
    rw [store.ownLog_publish_self m e hm] at hown hshared
    rw [sharedLog_publish, Option.isSome_map] at hshared
    constructor
    · exact hown.trans (Option.map_map ..)
    · refine hshared.trans ?_
      split <;> rfl

/-- The refused writes among the events of a write are reported to the log of the map in their
order. -/
theorem ownLog_commit_self (hm : store.HasMap m) :
    ((store.commit m after).map m).ownLog =
      (store.map m).ownLog.map fun log => after.emitted.foldl Log.note log := by
  have hadopt : (store.adopt m after).HasMap m := by simpa [HasMap, adopt] using hm
  rw [commit_eq store m after hm, (logs_publishAll _ m hadopt _).1, ownLog_adopt]

/-- The refused writes among the events of a write are reported to the shared log if the map has no
log of its own. -/
theorem sharedLog_commit (hm : store.HasMap m) :
    (store.commit m after).sharedLog =
      if (store.map m).ownLog.isSome then store.sharedLog
      else after.emitted.foldl SharedLog.note store.sharedLog := by
  have hadopt : (store.adopt m after).HasMap m := by simpa [HasMap, adopt] using hm
  rw [commit_eq store m after hm, (logs_publishAll _ m hadopt _).2, ownLog_adopt]
  rfl

private theorem publishAll_withReceivers (receivers : Array Receiver) (events : List Event) :
    ({ store with receivers } : Store).publishAll m events =
      { store.publishAll m events with receivers } := by
  induction events generalizing store with
  | nil => rfl
  | cons e rest ih =>
    have hfirst := store.publish_withReceivers m e receivers
    simp only [publishAll, List.foldl_cons, hfirst] at ih ⊢
    exact ih _

/-- Receivers have no bearing on a commit. -/
theorem commit_withReceivers (receivers : Array Receiver) :
    ({ store with receivers } : Store).commit m after =
      { store.commit m after with receivers } := by
  by_cases hm : store.HasMap m
  · rw [commit_eq store m after hm, ← publishAll_withReceivers]
    exact commit_eq _ m after hm
  · rw [commit_of_not_hasMap store m after hm]
    exact commit_of_not_hasMap _ m after hm

/-- A commit leaves the receivers as they are. -/
@[simp]
theorem receivers_commit : (store.commit m after).receivers = store.receivers := by
  have h := congrArg Store.receivers (store.commit_withReceivers m after store.receivers)
  exact h

theorem session_commit (hm : store.HasMap m) :
    (store.commit m after).session m = { after with emitted := [] } := by
  simp only [session, store.pool_commit m after hm, store.table_commit_self m after hm]

/-- Two commits to one map are one commit of all their events. -/
theorem commit_commit (first : Session) :
    (store.commit m first).commit m after = store.commit m (after.resume first.emitted) := by
  by_cases hm : store.HasMap m
  · have hnext : (store.commit m first).HasMap m := (store.hasMap_commit m first m).2 hm
    rw [commit_eq _ m after hnext, commit_eq store m first hm, commit_eq store m _ hm,
      adopt_publishAll, adopt_adopt]
    simp only [publishAll, Session.resume, List.foldl_append]
    rfl
  · rw [commit_of_not_hasMap store m first hm, commit_of_not_hasMap store m after hm,
      commit_of_not_hasMap store m _ hm]

end Store

end AttributeStore
