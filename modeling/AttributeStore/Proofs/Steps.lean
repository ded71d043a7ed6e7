import AttributeStore.Proofs.Commit
import Mathlib.Data.List.Induction

/-!
# Runs step by step

An import writes its entries one after the other, and so does the making of a map with first
values.  Every run is therefore a run of *single* operations, each of which changes at most one
slot of one map or clears one map.  Histories and invariants are stated and proved along these
steps, so that an import is seen entry by entry.

## Main definitions

* `Operation.IsSingle`: the operations that are not made of others.
* `Store.importSteps`, `Store.steps`, `Store.unbundled`: the single operations that an import, an
  operation and a run are made of.
* `Store.StepOf`: what these single operations may be.
* `Store.IsLast`: the last step of a run that has a property.

## Main results

* `Store.run_unbundled`, `Store.history_unbundled`: a run and its single operations lead to the
  same store and emit the same events.
* `Store.stepOf_of_mem_steps`, `Store.exists_of_mem_unbundled`: where a single operation comes from.
* `Store.run_induction`: what single operations keep, runs keep.
* `Store.exists_isLast`: what only steps of a kind bring about comes with a last step of this kind.
-/

namespace AttributeStore

/-- An operation that is not made of others: no map gets first values, and no import has more than
one entry, which is a holder. -/
def Operation.IsSingle : Operation → Prop
  | .build plan => plan.values = []
  | .write _ (.importAll entries) => ∃ key id, entries = [(key, .holder id)]
  | _ => True

namespace Store

/-- The single operations of an import, up to the first entry that fails.  A plain null is left out,
any other plain value is written, and a holder is imported alone. -/
def importSteps (m : MapId) : List (String × Entry) → List Operation
  | [] => []
  | (_, .value .null) :: rest => importSteps m rest
  | (key, .value v) :: rest =>
    if IsValidName key then .write m (.set key v) :: importSteps m rest else []
  | (key, .holder id) :: rest => .write m (.importAll [(key, .holder id)]) :: importSteps m rest

/-- The single operations of an operation.  A map with first values is made empty, and the values
are then written to it. -/
def steps (store : Store) : Operation → List Operation
  | .build plan =>
    match store.build plan with
    | .ok (m, _) => .build { plan with values := [] } :: importSteps m (plainEntries plan.values)
    | .error _ => []
  | .write m (.importAll entries) => importSteps m entries
  | operation => [operation]

/-- The single operations of a run. -/
def unbundled (store : Store) : List Operation → List Operation
  | [] => []
  | operation :: rest => store.steps operation ++ (store.apply operation).unbundled rest

/-- The kinds of steps that an operation may have. -/
inductive StepOf (store : Store) : Operation → Operation → Prop
  | self {operation : Operation} (hsingle : operation.IsSingle) : StepOf store operation operation
  | emptyMap (plan : MapPlan) : StepOf store (.build plan) (.build { plan with values := [] })
  | firstValue (plan : MapPlan) (key : String) (v : Value) :
      StepOf store (.build plan) (.write ⟨store.maps.size⟩ (.set key v))
  | value {m : MapId} {entries : List (String × Entry)} (key : String) (v : Value)
      (hnull : v ≠ .null) (hmem : (key, .value v) ∈ entries) :
      StepOf store (.write m (.importAll entries)) (.write m (.set key v))
  | holder {m : MapId} {entries : List (String × Entry)} (key : String) (id : HolderId)
      (hmem : (key, .holder id) ∈ entries) :
      StepOf store (.write m (.importAll entries)) (.write m (.importAll [(key, .holder id)]))

variable (store : Store) (m : MapId)

/-! ### The steps of an import -/

/-- The session of an import is that of its first entry, resumed by that of the others. -/
private theorem commit_importAll_next (next : Session) (rest : List (String × Entry)) :
    store.commit m (next.importAll rest).2 =
      (store.commit m next).commit m
        (({ next with emitted := [] } : Session).importAll rest).2 := by
  rw [commit_commit, Session.importAll_restart next]

/-- Importing entries is running their steps. -/
theorem commit_importAll (entries : List (String × Entry)) :
    store.commit m ((store.session m).importAll entries).2 = store.run (importSteps m entries) := by
  induction entries generalizing store with
  | nil => exact store.commit_session m
  | cons e rest ih =>
    -- After the session of the first entry is committed, the others find it in the store.
    have hrest (next : Session) : store.commit m (next.importAll rest).2 =
        (store.commit m next).run (importSteps m rest) := by
      by_cases hm : store.HasMap m
      · rw [commit_importAll_next, ← ih, session_commit store m next hm]
      · rw [← ih, commit_of_not_hasMap store m next hm, commit_of_not_hasMap store m _ hm,
          commit_of_not_hasMap store m _ hm]
    obtain ⟨key, entry⟩ := e
    cases entry with
    | holder id => exact hrest ((store.session m).importCopy key id)
    | value v =>
      by_cases hnull : v = .null
      · subst hnull
        exact ih store
      · by_cases hname : IsValidName key
        · have hstep : store.apply (.write m (.set key v)) =
              store.commit m ((store.session m).write key v).2 := by
            simp [apply, Session.apply, Session.set, hname]
          simp [Session.importAll, Session.importEntry, Session.set, importSteps, hname,
            Except.map, run, hrest, ← hstep]
        · simp [Session.importAll, Session.importEntry, Session.set, importSteps, hname,
            Except.map, run, commit_session]

/-- A step of an import writes a plain value of the import under a valid name, or imports a holder
of it. -/
theorem mem_importSteps {entries : List (String × Entry)} {step : Operation}
    (h : step ∈ importSteps m entries) :
    (∃ key v, step = .write m (.set key v) ∧ v ≠ .null ∧ (key, .value v) ∈ entries) ∨
      ∃ key id, step = .write m (.importAll [(key, .holder id)]) ∧
        (key, .holder id) ∈ entries := by
  have hcons {e : String × Entry} {rest : List (String × Entry)}
      (h : (∃ key v, step = .write m (.set key v) ∧ v ≠ .null ∧ (key, .value v) ∈ rest) ∨
        ∃ key id, step = .write m (.importAll [(key, .holder id)]) ∧ (key, .holder id) ∈ rest) :
      (∃ key v, step = .write m (.set key v) ∧ v ≠ .null ∧ (key, .value v) ∈ e :: rest) ∨
        ∃ key id, step = .write m (.importAll [(key, .holder id)]) ∧
          (key, .holder id) ∈ e :: rest := by
    rcases h with ⟨key, v, hstep, hnull, hmem⟩ | ⟨key, id, hstep, hmem⟩
    · exact .inl ⟨key, v, hstep, hnull, List.mem_cons_of_mem _ hmem⟩
    · exact .inr ⟨key, id, hstep, List.mem_cons_of_mem _ hmem⟩
  fun_induction importSteps m entries with
  | case1 => simp at h
  | case2 key rest ih => exact hcons (ih h)
  | case3 key v rest hnull hname ih =>
    rcases List.mem_cons.1 h with rfl | h
    · exact .inl ⟨key, v, rfl, hnull, List.mem_cons_self⟩
    · exact hcons (ih h)
  | case4 => simp at h
  | case5 key id rest ih =>
    rcases List.mem_cons.1 h with rfl | h
    · exact .inr ⟨key, id, rfl, List.mem_cons_self⟩
    · exact hcons (ih h)

/-! ### The steps of a run -/

/-- A plan without first values makes its empty map. -/
theorem apply_build_of_values_eq_nil {plan : MapPlan} (h : plan.values = []) :
    store.apply (.build plan) = (store.addMap plan.emptyMap).2 := by
  obtain ⟨values, eventCapacity, ownLog⟩ := plan
  obtain rfl : values = [] := h
  exact commit_session _ _

/-- A map that a plan makes is added without entries and then filled by one import. -/
theorem filled_of_build {plan : MapPlan} {m : MapId} {built : Store}
    (hbuild : store.build plan = .ok (m, built)) :
    (store.apply (.build { plan with values := [] })).HasMap m ∧
      (store.apply (.build { plan with values := [] })).map m = plan.emptyMap ∧
      (store.apply (.build { plan with values := [] })).apply
        (.write m (.importAll (plainEntries plan.values))) = built := by
  obtain ⟨rfl, hvalues⟩ := store.build_eq_ok_iff.1 hbuild
  rw [apply_build_of_values_eq_nil store rfl]
  exact ⟨store.hasMap_addMap_self _, store.map_addMap_self _, (Prod.mk.inj hvalues).2⟩

/-- A map that a plan makes is the empty map of the plan, to which the first values are written. -/
private theorem run_steps_build (plan : MapPlan) :
    store.run (store.steps (.build plan)) = store.apply (.build plan) := by
  simp only [steps]
  cases hbuild : store.build plan with
  | ok made =>
    obtain ⟨m, built⟩ := made
    obtain ⟨rfl, hvalues⟩ := store.build_eq_ok_iff.1 hbuild
    simp only [apply, hbuild]
    rw [run, List.foldl_cons, apply_build_of_values_eq_nil store rfl, ← (Prod.mk.inj hvalues).2]
    exact (commit_importAll _ _ _).symm
  | error e => simp [apply, run, hbuild]

/-- An operation is the run of its steps. -/
theorem run_steps (operation : Operation) :
    store.run (store.steps operation) = store.apply operation := by
  cases operation with
  | build plan => exact store.run_steps_build plan
  | write m w =>
    cases w with
    | importAll entries => exact (store.commit_importAll m entries).symm
    | _ => rfl
  | _ => rfl

theorem stepOf_of_mem_steps {operation step : Operation} (h : step ∈ store.steps operation) :
    store.StepOf operation step := by
  cases operation with
  | build plan =>
    simp only [steps] at h
    split at h
    next m built hbuild =>
      obtain ⟨rfl, -⟩ := store.build_eq_ok_iff.1 hbuild
      rcases List.mem_cons.1 h with rfl | h
      · exact .emptyMap plan
      · rcases mem_importSteps _ h with ⟨key, v, rfl, -, -⟩ | ⟨key, id, rfl, hmem⟩
        · exact .firstValue plan key v
        · simp [plainEntries] at hmem
    next => simp at h
  | write m w =>
    cases w with
    | importAll entries =>
      rcases mem_importSteps m h with ⟨key, v, rfl, hnull, hmem⟩ | ⟨key, id, rfl, hmem⟩
      · exact .value key v hnull hmem
      · exact .holder key id hmem
    | _ =>
      obtain rfl := List.mem_singleton.1 h
      exact .self trivial
  | _ =>
    obtain rfl := List.mem_singleton.1 h
    exact .self trivial

theorem StepOf.isSingle {store : Store} {operation step : Operation}
    (h : store.StepOf operation step) : step.IsSingle := by
  cases h with
  | self hsingle => exact hsingle
  | emptyMap plan => rfl
  | firstValue plan key v => trivial
  | value key v hnull hmem => trivial
  | holder key id hmem => exact ⟨key, id, rfl⟩

/-- A run and its single operations lead to the same store. -/
theorem run_unbundled (operations : List Operation) :
    store.run (store.unbundled operations) = store.run operations := by
  induction operations generalizing store with
  | nil => rfl
  | cons operation rest ih =>
    rw [unbundled, run_append, run_steps, ih]
    rfl

/-- Every single operation of a run is a step of one of its operations. -/
theorem exists_of_mem_unbundled {operations : List Operation} {step : Operation}
    (h : step ∈ store.unbundled operations) :
    ∃ current operation, operation ∈ operations ∧ StepOf current operation step := by
  induction operations generalizing store with
  | nil => simp [unbundled] at h
  | cons operation rest ih =>
    rcases List.mem_append.1 h with h | h
    · exact ⟨store, operation, List.mem_cons_self, store.stepOf_of_mem_steps h⟩
    · obtain ⟨current, other, hmem, hstep⟩ := ih _ h
      exact ⟨current, other, List.mem_cons_of_mem _ hmem, hstep⟩

theorem isSingle_of_mem_unbundled {operations : List Operation} {step : Operation}
    (h : step ∈ store.unbundled operations) : step.IsSingle := by
  obtain ⟨current, operation, -, hstep⟩ := store.exists_of_mem_unbundled h
  exact hstep.isSingle

/-- What the single operations of a run keep, the run keeps. -/
theorem run_induction {P : Store → Prop} {operations : List Operation} (hstart : P store)
    (hstep : ∀ (current : Store) (step : Operation), step ∈ store.unbundled operations →
      step.IsSingle → P current → P (current.apply step)) :
    P (store.run operations) := by
  have hsteps (steps : List Operation) (hsub : ∀ step ∈ steps, step ∈ store.unbundled operations)
      (current : Store) (h : P current) : P (current.run steps) := by
    induction steps generalizing current with
    | nil => exact h
    | cons step rest ih =>
      have hmem := hsub step List.mem_cons_self
      exact ih (fun s hs => hsub s (List.mem_cons_of_mem _ hs)) _
        (hstep current step hmem (store.isSingle_of_mem_unbundled hmem) h)
  rw [← run_unbundled]
  exact hsteps _ (fun _ h => h) store hstart

/-! ### The last step of a kind -/

/-- A step of a run that has a property in the store in which it is taken, while no step after it
has. -/
structure IsLast (P : Store → Operation → Prop) (store : Store) (before : List Operation)
    (step : Operation) (after : List Operation) : Prop where
  holds : P (store.run before) step
  last : ∀ first other rest, after = first ++ other :: rest →
    ¬ P (store.run (before ++ step :: first)) other

/-- The places of a list to which an element is added at the end. -/
theorem append_singleton_eq_append_cons {α : Type} {l first rest : List α} {a b : α}
    (h : l ++ [a] = first ++ b :: rest) :
    (l = first ∧ rest = [] ∧ a = b) ∨ ∃ init, rest = init ++ [a] ∧ l = first ++ b :: init := by
  rcases rest.eq_nil_or_concat with rfl | ⟨init, c, rfl⟩
  · obtain ⟨hl, ha⟩ := List.append_inj' h rfl
    exact .inl ⟨hl, rfl, List.singleton_inj.1 ha⟩
  · have h' : l ++ [a] = (first ++ b :: init) ++ [c] := by simpa using h
    obtain ⟨hl, ha⟩ := List.append_inj' h' rfl
    exact .inr ⟨init, by rw [List.singleton_inj.1 ha, List.concat_eq_append], hl⟩

theorem run_append_cons_append_singleton (before : List Operation) (step : Operation)
    (after : List Operation) (other : Operation) :
    store.run (before ++ step :: (after ++ [other])) =
      (store.run (before ++ step :: after)).apply other := by
  rw [← List.cons_append, ← List.append_assoc, run_append]
  rfl

/-- A step stays the last one as long as no further one has the property. -/
theorem isLast_append_singleton {P : Store → Operation → Prop} {before after : List Operation}
    {step other : Operation} :
    IsLast P store before step (after ++ [other]) ↔
      IsLast P store before step after ∧ ¬ P (store.run (before ++ step :: after)) other := by
  constructor
  · intro h
    refine ⟨⟨h.holds, fun first next rest hsplit => ?_⟩, h.last after other [] rfl⟩
    exact h.last first next (rest ++ [other]) (by simp [hsplit])
  · rintro ⟨h, hnot⟩
    refine ⟨h.holds, fun first next rest hsplit => ?_⟩
    rcases append_singleton_eq_append_cons hsplit with ⟨rfl, -, rfl⟩ | ⟨init, -, hinit⟩
    · exact hnot
    · exact h.last first next init hinit

/-- If only steps with a property bring something about, then a run that has brought it about has a
last step with this property. -/
theorem exists_isLast {P : Store → Operation → Prop} {Q : Store → Prop}
    (hback : ∀ (current : Store) (step : Operation), step.IsSingle → ¬ P current step →
      Q (current.apply step) → Q current)
    (hstart : ¬ Q store) {steps : List Operation} (hsingle : ∀ step ∈ steps, step.IsSingle)
    (hend : Q (store.run steps)) :
    ∃ before step after, steps = before ++ step :: after ∧ IsLast P store before step after := by
  induction steps using List.reverseRecOn with
  | nil => exact absurd hend hstart
  | append_singleton steps step ih =>
    by_cases hstep : P (store.run steps) step
    · exact ⟨steps, step, [], rfl, hstep, by simp⟩
    · rw [run_append] at hend
      obtain ⟨before, other, after, rfl, hlast⟩ :=
        ih (fun s hs => hsingle s (List.mem_append_left _ hs))
          (hback _ _ (hsingle step (by simp)) hstep hend)
      exact ⟨before, other, after ++ [step], by simp,
        store.isLast_append_singleton.2 ⟨hlast, hstep⟩⟩

/-! ### Histories -/

variable {m}

theorem hasMap_apply (hm : store.HasMap m) (operation : Operation) :
    (store.apply operation).HasMap m := by
  cases operation with
  | build plan =>
    simp only [apply]
    cases hbuild : store.build plan with
    | ok made =>
      obtain ⟨m', built⟩ := made
      obtain ⟨rfl, hvalues⟩ := store.build_eq_ok_iff.1 hbuild
      rw [← (Prod.mk.inj hvalues).2, hasMap_commit]
      simp only [HasMap, addMap, Array.size_push] at hm ⊢
      omega
    | error e => exact hm
  | write m' w => exact (store.hasMap_commit m' _ m).2 hm
  | takeOwnLines m' =>
    simp only [HasMap, apply, takeOwnLines, size_maps_modifyMap]
    exact hm
  | _ => exact hm

theorem hasMap_run (hm : store.HasMap m) (operations : List Operation) :
    (store.run operations).HasMap m := by
  induction operations generalizing store with
  | nil => exact hm
  | cons operation rest ih => exact ih _ (store.hasMap_apply hm operation)

theorem history_append (m : MapId) (first second : List Operation) :
    store.history m (first ++ second) =
      store.history m first ++ (store.run first).history m second := by
  induction first generalizing store with
  | nil => rfl
  | cons operation rest ih =>
    simp only [List.cons_append, history, ih, List.append_assoc]
    rfl

/-- The steps of an import into another map emit nothing. -/
private theorem history_importSteps_of_ne {m' : MapId} (hne : m' ≠ m)
    (entries : List (String × Entry)) : store.history m (importSteps m' entries) = [] := by
  induction entries generalizing store with
  | nil => rfl
  | cons e rest ih =>
    obtain ⟨key, entry⟩ := e
    cases entry with
    | holder id => simp [importSteps, history, emitted, hne, ih]
    | value v =>
      by_cases hnull : v = .null
      · simp [importSteps, hnull, ih]
      · by_cases hname : IsValidName key <;>
          simp [importSteps, hname, history, emitted, hne, ih]

/-- The steps of an import emit what the import emits. -/
private theorem history_importSteps (hm : store.HasMap m) (entries : List (String × Entry)) :
    store.history m (importSteps m entries) = ((store.session m).importAll entries).2.emitted := by
  induction entries generalizing store with
  | nil => rfl
  | cons e rest ih =>
    have hrest (next : Session) : (next.importAll rest).2.emitted =
        next.emitted ++ (store.commit m next).history m (importSteps m rest) := by
      rw [ih _ ((store.hasMap_commit m next m).2 hm), session_commit store m next hm,
        Session.importAll_restart next]
      rfl
    obtain ⟨key, entry⟩ := e
    cases entry with
    | holder id =>
      simp [importSteps, history, emitted, apply, Session.apply, Session.importAll,
        Session.importEntry, hrest]
    | value v =>
      by_cases hnull : v = .null
      · subst hnull
        exact ih store hm
      · by_cases hname : IsValidName key
        · simp [importSteps, history, emitted, apply, Session.apply, Session.importAll,
            Session.importEntry, Session.set, Except.map, hname, hrest]
        · simp [importSteps, history, Session.importAll, Session.importEntry, Session.set,
            Except.map, hname, session]

/-- The steps of an operation emit what the operation emits. -/
private theorem history_steps (hm : store.HasMap m) (operation : Operation) :
    store.history m (store.steps operation) = store.emitted m operation := by
  cases operation with
  | build plan =>
    simp only [steps]
    cases hbuild : store.build plan with
    | ok made =>
      obtain ⟨m', built⟩ := made
      have hnew : m' ≠ m := by
        rintro rfl
        simp only [HasMap, (store.build_eq_ok_iff.1 hbuild).1] at hm
        omega
      simp [history, emitted, history_importSteps_of_ne _ hnew]
    | error e => rfl
  | write m' w =>
    cases w with
    | importAll entries =>
      by_cases hmap : m' = m
      · subst hmap
        simp [steps, emitted, Session.apply, history_importSteps store hm]
      · simp [steps, emitted, hmap, history_importSteps_of_ne store hmap]
    | _ => simp [steps, history]
  | _ => simp [steps, history]

/-- A run and its single operations emit the same events. -/
theorem history_unbundled (hm : store.HasMap m) (operations : List Operation) :
    store.history m (store.unbundled operations) = store.history m operations := by
  induction operations generalizing store with
  | nil => rfl
  | cons operation rest ih =>
    rw [unbundled, history_append, store.history_steps hm, run_steps,
      ih _ (store.hasMap_apply hm operation)]
    rfl

end Store

end AttributeStore
