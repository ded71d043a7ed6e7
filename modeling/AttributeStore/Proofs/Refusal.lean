import AttributeStore.Proofs.Replay
import AttributeStore.Proofs.Trace

/-!
# Refused writes

A plain write that meets a lock emits one event and is reported by one line, either to the log of
its map or, if the map has none, to the shared log.  Both are asked at this moment whether they take
the line.  This holds of writes within imports too, and no other operation is ever reported.

## Main definitions

* `Store.MeetsLock`, `Store.refusals`: the refused writes to a map in a run.
* `Store.IsShared`, `Store.sharedRefusals`: those of all maps that the shared log takes.
* `Store.ownLines`, `Store.takenLines`, `Store.takenSharedLines`: the lines of logs and those that
  are taken out of them.

## Main results

* `Store.filterMap_history`: the refused writes and the events that tell of them.
* `Store.ownLines_run`, `Store.sharedLines_run`: the lines of logs after a run.
* `Store.logs_refusals`: logs show the refused writes and nothing else.
-/

namespace AttributeStore

/-! ### Logs -/

/-- The lines that a log with a given threshold takes of refused writes under the given keys. -/
def Level.refusalLines (threshold : Level) (keys : List String) : List LogLine :=
  if threshold.admits .debug then keys.map .refusal else []

theorem Level.refusalLines_append (threshold : Level) (first second : List String) :
    threshold.refusalLines (first ++ second) =
      threshold.refusalLines first ++ threshold.refusalLines second := by
  unfold refusalLines
  split
  · exact List.map_append
  · rfl

theorem Log.foldl_note (log : Log) (events : List Event) :
    events.foldl Log.note log =
      { log with
        lines := log.lines ++
          log.threshold.refusalLines (events.filterMap Event.refusedKey?) } := by
  induction events generalizing log with
  | nil => simp [Level.refusalLines]
  | cons e rest ih =>
    rw [List.foldl_cons, ih, note]
    cases hkey : e.refusedKey? with
    | none => simp [hkey]
    | some key =>
      by_cases hadmits : log.threshold.admits .debug <;>
        simp [Log.add, LogLine.refusal, Level.refusalLines, hkey, hadmits]

theorem SharedLog.foldl_note (shared : SharedLog) (events : List Event) :
    events.foldl SharedLog.note shared =
      if shared.maximum.admits .debug then { shared with log := events.foldl Log.note shared.log }
      else shared := by
  induction events generalizing shared with
  | nil => exact (ite_self _).symm
  | cons e rest ih =>
    rw [List.foldl_cons, ih, note]
    cases hkey : e.refusedKey? with
    | none => simp [Log.note, hkey]
    | some key =>
      by_cases hadmits : shared.maximum.admits .debug <;>
        simp [SharedLog.add, Log.note, LogLine.refusal, hkey, hadmits]

namespace Store

/-! ### The refused writes of a run -/

instance (store : Store) (m : MapId) (key : String) : Decidable (store.IsOpen m key) :=
  inferInstanceAs (Decidable (∀ old ∈ store.holder? m key, (store.holder old).locked = false))

/-- A slot with a locked holder under a valid name, in which plain writes are refused. -/
def MeetsLock (store : Store) (m : MapId) (key : String) : Prop :=
  IsValidName key ∧ ¬ store.IsOpen m key

instance (store : Store) (m : MapId) (key : String) : Decidable (store.MeetsLock m key) :=
  inferInstanceAs (Decidable (_ ∧ _))

/-- The key of a single write that meets a lock. -/
def lockedKeys (store : Store) (m : MapId) : Write → List String
  | .set key _ => if store.MeetsLock m key then [key] else []
  | _ => []

/-- The key of a single operation that is a write to a map and meets a lock. -/
def refusedKeys (m : MapId) (store : Store) : Operation → List String
  | .write m' w => if m' = m then store.lockedKeys m w else []
  | _ => []

/-- The keys of all plain writes to a map in a run that meet a lock, those within imports included,
the first one first. -/
def refusals (store : Store) (m : MapId) (operations : List Operation) : List String :=
  store.trace (refusedKeys m) (store.unbundled operations)

/-- A map without a log of its own, while both thresholds of the shared log let reports of refused
writes pass. -/
def IsShared (store : Store) (m : MapId) : Prop :=
  (store.map m).ownLog.isNone ∧ store.sharedLog.maximum.admits .debug ∧
    store.sharedLog.log.threshold.admits .debug

instance (store : Store) (m : MapId) : Decidable (store.IsShared m) :=
  inferInstanceAs (Decidable (_ ∧ _))

/-- The key of a single write that meets a lock and whose report the shared log takes. -/
def sharedKeys (store : Store) : Operation → List String
  | .write m w => if store.IsShared m then store.lockedKeys m w else []
  | _ => []

/-- The keys of all plain writes to any map in a run that meet a lock while the map shares the log
and the log takes the report. -/
def sharedRefusals (store : Store) (operations : List Operation) : List String :=
  store.trace sharedKeys (store.unbundled operations)

variable {store : Store} {m : MapId} {key : String}

theorem unbundled_append (store : Store) (first second : List Operation) :
    store.unbundled (first ++ second) =
      store.unbundled first ++ (store.run first).unbundled second := by
  induction first generalizing store with
  | nil => rfl
  | cons operation rest ih =>
    rw [List.cons_append, unbundled, ih, unbundled, List.append_assoc]
    rfl

theorem refusals_append (store : Store) (m : MapId) (first second : List Operation) :
    store.refusals m (first ++ second) =
      store.refusals m first ++ (store.run first).refusals m second := by
  rw [refusals, unbundled_append, trace_append, run_unbundled]
  rfl

theorem lockedKeys_of_not_hasMap (hm : ¬ store.HasMap m) (w : Write) :
    store.lockedKeys m w = [] := by
  cases w with
  | set key v =>
    exact if_neg fun h => h.2 (store.isOpen_of_eq_none (store.holder?_of_not_hasMap hm))
  | _ => rfl

/-- What a single write emits tells whether it met a lock. -/
theorem filterMap_emitted_session (store : Store) {w : Write}
    (hsingle : (Operation.write m w).IsSingle) :
    ((store.session m).apply w).emitted.filterMap Event.refusedKey? = store.lockedKeys m w := by
  cases w with
  | set key v =>
    by_cases hname : IsValidName key
    · rw [session_set_of_isValidName store hname]
      by_cases hopen : store.IsOpen m key
      · rw [session_write_of_isOpen store hopen, lockedKeys, if_neg fun h => h.2 hopen]
        rfl
      · rw [session_write_of_not_isOpen store hopen, lockedKeys, if_pos ⟨hname, hopen⟩]
        rfl
    · rw [session_set_of_not_isValidName store hname, lockedKeys, if_neg fun h => hname h.1]
      rfl
  | unset key =>
    cases hfind : (store.session m).find? key with
    | none =>
      rw [Session.apply, Session.unset_of_none _ hfind]
      rfl
    | some old =>
      rw [Session.apply, Session.unset_of_some _ hfind]
      rfl
  | clear => rfl
  | importAll entries =>
    obtain ⟨key, id, rfl⟩ := hsingle
    rfl

/-- The events of a map tell of all refused writes to it. -/
theorem filterMap_history (hm : store.HasMap m) (operations : List Operation) :
    (store.history m operations).filterMap Event.refusedKey? = store.refusals m operations := by
  rw [← store.history_unbundled hm, history_eq_trace, filterMap_trace]
  refine trace_congr _ _ (P := fun _ => True) trivial (fun _ _ _ _ => trivial)
    fun current step hstep _ => ?_
  cases step with
  | write m' w =>
    simp only [emitted, refusedKeys]
    split
    next heq =>
      subst heq
      exact current.filterMap_emitted_session (store.isSingle_of_mem_unbundled hstep)
    next => rfl
  | _ => rfl

/-! ### The log of a map -/

/-- The lines in the log of a map. -/
def ownLines (store : Store) (m : MapId) : List LogLine :=
  ((store.map m).ownLog.map Log.lines).getD []

/-- The lines that an operation takes out of the log of a map. -/
def takenLines (m : MapId) (store : Store) : Operation → List LogLine
  | .takeOwnLines m' => if m' = m then (store.takeOwnLines m).1 else []
  | _ => []

/-- The log of a map after an operation. -/
def logAfter (store : Store) (m : MapId) (operation : Operation) (log : Log) : Log :=
  match operation with
  | .takeOwnLines m' => if m' = m then log.emptied else log
  | operation => (store.emitted m operation).foldl Log.note log

/-- The making of a map leaves the others as they are. -/
theorem map_apply_build (hm : store.HasMap m) (plan : MapPlan) :
    (store.apply (.build plan)).map m = store.map m := by
  simp only [apply]
  cases hbuild : store.build plan with
  | ok made =>
    obtain ⟨m', built⟩ := made
    obtain ⟨rfl, hvalues⟩ := store.build_eq_ok_iff.1 hbuild
    have hne : m ≠ ⟨store.maps.size⟩ := by
      rintro rfl
      exact Nat.lt_irrefl _ hm
    rw [← (Prod.mk.inj hvalues).2]
    exact (map_commit_of_ne _ _ _ hne).trans (store.map_addMap_of_hasMap m hm _)
  | error e => rfl

theorem ownLog_apply (hm : store.HasMap m) (operation : Operation) :
    ((store.apply operation).map m).ownLog =
      (store.map m).ownLog.map fun log => store.logAfter m operation log := by
  have hquiet {after : Store} (h : after.map m = store.map m)
      (hlog : ∀ log, store.logAfter m operation log = log) :
      (after.map m).ownLog =
        (store.map m).ownLog.map fun log => store.logAfter m operation log := by
    simp [h, hlog]
  cases operation with
  | build plan => exact hquiet (map_apply_build hm plan) fun _ => rfl
  | write m' w =>
    by_cases heq : m' = m
    · subst heq
      refine (store.ownLog_commit_self m' _ hm).trans (Option.map_congr fun log _ => ?_)
      simp [logAfter, emitted]
    · exact hquiet (store.map_commit_of_ne m' _ (Ne.symm heq)) (by simp [logAfter, emitted, heq])
  | takeOwnLines m' =>
    by_cases heq : m' = m
    · subst heq
      refine (congrArg AttributeMap.ownLog (store.map_modifyMap_self m' hm _)).trans
        (Option.map_congr fun log _ => ?_)
      simp [logAfter]
    · exact hquiet (store.map_modifyMap_of_ne m' (Ne.symm heq) _) (by simp [logAfter, heq])
  | _ => exact hquiet rfl fun _ => rfl

/-- What an operation takes out of the log of a map and what it leaves in it is what there was and a
line for each refused write. -/
theorem logAfter_lines (log : Log) (hlog : (store.map m).ownLog = some log)
    (operation : Operation) :
    takenLines m store operation ++ (store.logAfter m operation log).lines =
        log.lines ++ log.threshold.refusalLines
          ((store.emitted m operation).filterMap Event.refusedKey?) ∧
      (store.logAfter m operation log).threshold = log.threshold := by
  cases operation with
  | takeOwnLines m' =>
    by_cases heq : m' = m
    · subst heq
      simp [takenLines, logAfter, takeOwnLines, hlog, Log.emptied, emitted, Level.refusalLines]
    · simp [takenLines, logAfter, heq, emitted, Level.refusalLines]
  | _ => exact ⟨by simp [takenLines, logAfter, Log.foldl_note], by simp [logAfter, Log.foldl_note]⟩

theorem trace_refusalLines (store : Store) (threshold : Level)
    (shown : Store → Operation → List String) (operations : List Operation) :
    store.trace (fun current operation => threshold.refusalLines (shown current operation))
        operations =
      threshold.refusalLines (store.trace shown operations) := by
  induction operations generalizing store with
  | nil => simp [trace, Level.refusalLines]
  | cons operation rest ih => rw [trace, ih, trace, Level.refusalLines_append]

/-- What a run takes out of the log of a map and what it leaves in it is what there was and a line
for each refused write to the map. -/
theorem ownLines_run {threshold : Level} (hm : store.HasMap m)
    (hthreshold : (store.map m).ownLog.map Log.threshold = some threshold)
    (operations : List Operation) :
    store.trace (takenLines m) operations ++ (store.run operations).ownLines m =
      store.ownLines m ++ threshold.refusalLines (store.refusals m operations) := by
  have hstep (current : Store) (operation : Operation) (hcurrent : current.HasMap m)
      (h : (current.map m).ownLog.map Log.threshold = some threshold) :
      takenLines m current operation ++ (current.apply operation).ownLines m =
          current.ownLines m ++ threshold.refusalLines
            ((current.emitted m operation).filterMap Event.refusedKey?) ∧
        ((current.apply operation).map m).ownLog.map Log.threshold = some threshold := by
    obtain ⟨log, hlog, rfl⟩ := Option.map_eq_some_iff.1 h
    have hafter := ownLog_apply hcurrent operation
    rw [hlog, Option.map_some] at hafter
    obtain ⟨hlines, hkept⟩ := logAfter_lines log hlog operation
    rw [ownLines, ownLines, hafter, hlog]
    exact ⟨hlines, congrArg some hkept⟩
  refine (trace_balance (P := fun current => current.HasMap m ∧
      (current.map m).ownLog.map Log.threshold = some threshold) (takenLines m)
    (fun current operation => threshold.refusalLines
      ((current.emitted m operation).filterMap Event.refusedKey?)) (ownLines · m) ⟨hm, hthreshold⟩
    (fun current operation _ h =>
      ⟨current.hasMap_apply h.1 operation, (hstep current operation h.1 h.2).2⟩)
    (fun current operation _ h => (hstep current operation h.1 h.2).1)).trans ?_
  rw [trace_refusalLines, ← filterMap_trace, ← history_eq_trace, filterMap_history hm]

/-! ### The shared log -/

/-- The lines that an operation takes out of the shared log. -/
def takenSharedLines (store : Store) : Operation → List LogLine
  | .takeSharedLines => store.takeSharedLines.1
  | _ => []

/-- What a single operation takes out of the shared log and what it leaves in it is what there was
and a line for a write to a map that shares the log, if it is refused. -/
theorem sharedLines_apply {step : Operation} (hsingle : step.IsSingle) :
    takenSharedLines store step ++ (store.apply step).sharedLog.log.lines =
      store.sharedLog.log.lines ++ (sharedKeys store step).map LogLine.refusal := by
  cases step with
  | build plan =>
    rw [apply_build_of_values_eq_nil store hsingle]
    exact (List.append_nil _).symm
  | write m w =>
    by_cases hm : store.HasMap m
    · have hkeys := store.filterMap_emitted_session hsingle
      simp only [takenSharedLines, sharedKeys, apply, store.sharedLog_commit m _ hm,
        SharedLog.foldl_note, Log.foldl_note, hkeys, IsShared, Level.refusalLines,
        ← Option.not_isNone]
      by_cases hown : (store.map m).ownLog.isNone <;>
        by_cases hmaximum : store.sharedLog.maximum.admits .debug <;>
        by_cases hthreshold : store.sharedLog.log.threshold.admits .debug <;>
        simp [hown, hmaximum, hthreshold]
    · simp [takenSharedLines, sharedKeys, apply, commit_of_not_hasMap store m _ hm,
        lockedKeys_of_not_hasMap hm]
  | takeSharedLines => simp [takenSharedLines, sharedKeys, apply, takeSharedLines, Log.emptied]
  | _ => exact (List.append_nil _).symm

/-- What a run takes out of the shared log and what it leaves in it is what there was and a line for
each refused write whose report the log takes. -/
theorem sharedLines_run (store : Store) (operations : List Operation) :
    store.trace takenSharedLines operations ++ (store.run operations).sharedLog.log.lines =
      store.sharedLog.log.lines ++ (store.sharedRefusals operations).map LogLine.refusal := by
  rw [← trace_unbundled _ takenSharedLines (fun _ _ => rfl) (fun _ _ _ => rfl), ← run_unbundled]
  refine (trace_balance (P := fun _ => True) takenSharedLines
    (fun current step => (sharedKeys current step).map LogLine.refusal)
    (fun current => current.sharedLog.log.lines) trivial (fun _ _ _ _ => trivial)
    fun current step hstep _ =>
      sharedLines_apply (store.isSingle_of_mem_unbundled hstep)).trans ?_
  rw [sharedRefusals, map_trace]

/-! ### New maps -/

/-- Before a map is made, no write to it is refused. -/
theorem refusals_of_not_hasMap {operations : List Operation}
    (hm : ¬ (store.run operations).HasMap m) : store.refusals m operations = [] := by
  have hsteps (steps : List Operation) (store : Store) (hm : ¬ (store.run steps).HasMap m) :
      store.trace (refusedKeys m) steps = [] := by
    induction steps generalizing store with
    | nil => rfl
    | cons step rest ih =>
      have hbefore : ¬ store.HasMap m := fun h => hm (store.hasMap_run h (step :: rest))
      have hnone : refusedKeys m store step = [] := by
        cases step with
        | write m' w => simp [refusedKeys, lockedKeys_of_not_hasMap hbefore]
        | _ => rfl
      rw [trace, hnone, ih (store.apply step) hm, List.append_nil]
  exact hsteps _ store (store.run_unbundled operations ▸ hm)

/-- A plain write to a map without locked holders locks none. -/
theorem isOpen_apply_set (hstore : store.Unaliased) (hopen : ∀ key, store.IsOpen m key)
    (v : Value) (key' : String) : (store.apply (.write m (.set key v))).IsOpen m key' := by
  have hsingle : (Operation.write m (.set key v)).IsSingle := trivial
  intro id hslot
  rcases holder?_of_holder?_apply hsingle hslot with hold | ⟨rfl, new, hfills⟩
  · rw [store.holder_apply hsingle (hstore.issued hold)]
    exact hopen key' id hold
  · rw [store.holder_apply_of_fills hfills]
    cases hfills with
    | set v hm hname hopen => rfl

/-- No plain value of an import into a map without locked holders is refused. -/
theorem trace_refusedKeys_importSteps (hstore : store.Unaliased)
    (hopen : ∀ key, store.IsOpen m key) (values : List (String × Value)) :
    store.trace (refusedKeys m) (importSteps m (plainEntries values)) = [] := by
  have hset (step : Operation) (hstep : step ∈ importSteps m (plainEntries values)) :
      ∃ key v, step = .write m (.set key v) := by
    rcases mem_importSteps m hstep with ⟨key, v, rfl, -, -⟩ | ⟨key, id, -, hmem⟩
    · exact ⟨key, v, rfl⟩
    · simp [plainEntries] at hmem
  calc store.trace (refusedKeys m) (importSteps m (plainEntries values))
      = store.trace (fun _ _ => []) (importSteps m (plainEntries values)) := by
        refine trace_congr _ _
          (P := fun current => current.Unaliased ∧ ∀ key, current.IsOpen m key) ⟨hstore, hopen⟩
          (fun current step hstep h => ?_) fun current step hstep h => ?_
        · obtain ⟨key, v, rfl⟩ := hset step hstep
          have hsingle : (Operation.write m (.set key v)).IsSingle := trivial
          exact ⟨h.1.apply hsingle, isOpen_apply_set h.1 h.2 v⟩
        · obtain ⟨key, v, rfl⟩ := hset step hstep
          simp [refusedKeys, lockedKeys, MeetsLock, h.2 key]
    _ = [] := trace_eq_nil _ _ fun _ _ _ => rfl

/-- Until a map is made, first values included, no write to it is refused. -/
theorem refusals_build (hstore : store.Unaliased) {plan : MapPlan} {built : Store}
    (hbuild : store.build plan = .ok (m, built)) :
    store.refusals m [.build plan] = [] ∧
      (store.apply (.build { plan with values := [] })).refusals m
        [.write m (.importAll (plainEntries plan.values))] = [] := by
  obtain ⟨-, hmap, -⟩ := store.filled_of_build hbuild
  have hopen (key : String) : (store.apply (.build { plan with values := [] })).IsOpen m key := by
    refine isOpen_of_eq_none _ ?_
    rw [holder?, table, hmap]
    rfl
  have hsingle : (Operation.build { plan with values := [] }).IsSingle := rfl
  have hnone := trace_refusedKeys_importSteps (hstore.apply hsingle) hopen plan.values
  constructor
  · simp only [refusals, unbundled, steps, hbuild, List.append_nil]
    exact hnone
  · simp only [refusals, unbundled, steps, List.append_nil]
    exact hnone

/-- The log of a new map shows the refused writes to it. -/
theorem ownLines_of_build (hstore : store.Unaliased) {plan : MapPlan} {built : Store}
    (hbuild : store.build plan = .ok (m, built)) {threshold : Level}
    (hplan : plan.ownLog = some threshold) (operations : List Operation) :
    built.trace (takenLines m) operations ++ (built.run operations).ownLines m =
      threshold.refusalLines (built.refusals m operations) := by
  -- The lines are counted from the moment on at which the map has no entries, and its log no lines.
  obtain ⟨hm, hmap, hfilled⟩ := store.filled_of_build hbuild
  have hnone := (refusals_build hstore hbuild).2
  generalize store.apply (.build { plan with values := [] }) = added at hm hmap hfilled hnone
  generalize Write.importAll (plainEntries plan.values) = filling at hfilled hnone
  have hlog : (added.map m).ownLog = some { threshold, lines := [] } := by
    rw [hmap, MapPlan.emptyMap, hplan]
    rfl
  have hempty : added.ownLines m = [] := by
    rw [ownLines, hlog]
    rfl
  have hrefusals := added.refusals_append m [.write m filling] operations
  rw [hnone, List.nil_append] at hrefusals
  calc built.trace (takenLines m) operations ++ (built.run operations).ownLines m
      = added.trace (takenLines m) (.write m filling :: operations) ++
          (added.run (.write m filling :: operations)).ownLines m := by
        rw [← hfilled]
        rfl
    _ = added.ownLines m ++
          threshold.refusalLines (added.refusals m (.write m filling :: operations)) :=
        ownLines_run hm (by rw [hlog]; rfl) _
    _ = threshold.refusalLines (built.refusals m operations) := by
        rw [hempty, List.nil_append, ← hfilled]
        exact congrArg _ hrefusals

/-- A plain write is reported if and only if it meets a lock, and nothing else is ever reported.
From the making of a map on, the events that tell of refused writes have the keys of all refused
writes to it, and its own log, if it has one, shows a line for each of them, in their order, or none
at all if its threshold keeps them out.  The shared log shows a line for each refused write to a map
without a log of its own at whose time both thresholds let the line pass. -/
theorem logs_refusals (operations : List Operation) :
    (∀ before plan later m built, operations = before ++ .build plan :: later →
      (empty.run before).build plan = .ok (m, built) →
        (built.history m later).filterMap Event.refusedKey? = empty.refusals m operations ∧
          ∀ threshold, plan.ownLog = some threshold →
            built.trace (takenLines m) later ++ (empty.run operations).ownLines m =
              if threshold.admits .debug then (empty.refusals m operations).map LogLine.refusal
              else []) ∧
      (empty.trace takenSharedLines operations ++ (empty.run operations).sharedLog.log.lines =
        (empty.sharedRefusals operations).map LogLine.refusal) ∧
      ∀ key, (LogLine.refusal key).level = .debug ∧
        (LogLine.refusal key).target = "attrmap::map" ∧
        (LogLine.refusal key).text =
          "Attempt to overwrite locked attribute with key '" ++ key ++ "'" := by
  refine ⟨?_, sharedLines_run empty operations, fun _ => ⟨rfl, rfl, rfl⟩⟩
  rintro before plan later m built rfl hbuild
  have hstore : (empty.run before).Unaliased := unaliased_empty.run before
  have happly : (empty.run before).apply (.build plan) = built := by rw [apply, hbuild]
  have hrun : empty.run (before ++ .build plan :: later) = built.run later := by
    rw [run_append, ← happly]
    rfl
  have hrefusals : empty.refusals m (before ++ .build plan :: later) = built.refusals m later := by
    have hbefore : ¬ (empty.run before).HasMap m := by
      obtain ⟨rfl, -⟩ := (empty.run before).build_eq_ok_iff.1 hbuild
      exact Nat.lt_irrefl _
    have hsplit := refusals_append (empty.run before) m [.build plan] later
    rw [(refusals_build hstore hbuild).1, List.nil_append] at hsplit
    rw [refusals_append, refusals_of_not_hasMap hbefore, List.nil_append, ← happly]
    exact hsplit
  have hm : built.HasMap m := by
    obtain ⟨hadded, -, hfilled⟩ := (empty.run before).filled_of_build hbuild
    exact hfilled ▸ Store.hasMap_apply _ hadded _
  rw [hrefusals, hrun]
  exact ⟨filterMap_history hm later,
    fun threshold hplan => ownLines_of_build hstore hbuild hplan later⟩

/-- A locked holder is imported into a map that shares the log, a plain value behind it is refused,
and then the import fails. -/
theorem logs_refusals_of_failed_import :
    (empty.run [.build { ownLog := some .debug }, .build {}, .setSharedLog .debug .debug,
        .write ⟨0⟩ (.set "a" .null), .lock ⟨0⟩, .write ⟨0⟩ (.set "a" .null),
        .write ⟨1⟩ (.importAll [("b", .holder ⟨0⟩), ("b", .value (.bool true)),
          ("1", .value (.bool true))])]).ownLines ⟨0⟩ = [.refusal "a"] ∧
      (empty.run [.build { ownLog := some .debug }, .build {}, .setSharedLog .debug .debug,
        .write ⟨0⟩ (.set "a" .null), .lock ⟨0⟩, .write ⟨0⟩ (.set "a" .null),
        .write ⟨1⟩ (.importAll [("b", .holder ⟨0⟩), ("b", .value (.bool true)),
          ("1", .value (.bool true))])]).sharedLog.log.lines = [.refusal "b"] := by
  obtain ⟨hown, hshared, -⟩ := logs_refusals
    [.build { ownLog := some .debug }, .build {}, .setSharedLog .debug .debug,
      .write ⟨0⟩ (.set "a" .null), .lock ⟨0⟩, .write ⟨0⟩ (.set "a" .null),
      .write ⟨1⟩ (.importAll [("b", .holder ⟨0⟩), ("b", .value (.bool true)),
        ("1", .value (.bool true))])]
  have hlines := (hown [] { ownLog := some .debug } _ ⟨0⟩ _ rfl rfl).2 .debug rfl
  refine ⟨hlines.trans ?_, hshared.trans ?_⟩
  · decide
  · decide

end Store

end AttributeStore
