import AttributeStore.Proofs.Steps

/-!
# Traces

Each operation may show something in the store in which it is taken: the events that it makes a map
emit, the deliveries that a receiver gets, the lines that are taken out of a log.  The trace of a
run is what its operations show, one after the other.

## Main definitions

* `Store.trace`: what a run shows.

## Main results

* `Store.trace_unbundled`: what no write and no making of a map shows, a run and its single
  operations show alike.
* `Store.trace_balance`: what a run takes out and what is left is what there was and what the run
  brings in.
-/

namespace AttributeStore.Store

variable {α β : Type} (store : Store)

/-- What the operations of a run show, the first one first. -/
def trace (shown : Store → Operation → List α) (store : Store) : List Operation → List α
  | [] => []
  | operation :: rest => shown store operation ++ trace shown (store.apply operation) rest

variable (shown other : Store → Operation → List α)

theorem trace_append (first second : List Operation) :
    store.trace shown (first ++ second) =
      store.trace shown first ++ (store.run first).trace shown second := by
  induction first generalizing store with
  | nil => rfl
  | cons operation rest ih =>
    simp only [List.cons_append, trace, ih, List.append_assoc]
    rfl

/-- The history of a map is the trace of the events that it emits. -/
theorem history_eq_trace (m : MapId) (operations : List Operation) :
    store.history m operations =
      store.trace (fun current operation => current.emitted m operation) operations := by
  induction operations generalizing store with
  | nil => rfl
  | cons operation rest ih => rw [history, ih, trace]

theorem filterMap_trace (f : α → Option β) (operations : List Operation) :
    (store.trace shown operations).filterMap f =
      store.trace (fun current operation => (shown current operation).filterMap f) operations := by
  induction operations generalizing store with
  | nil => rfl
  | cons operation rest ih => rw [trace, List.filterMap_append, ih, trace]

theorem map_trace (f : α → β) (operations : List Operation) :
    (store.trace shown operations).map f =
      store.trace (fun current operation => (shown current operation).map f) operations := by
  simp only [← List.filterMap_eq_map, filterMap_trace]

/-- Operations that show the same wherever a property holds which they keep have the same trace. -/
theorem trace_congr {P : Store → Prop} {store : Store} (hstart : P store)
    {operations : List Operation}
    (hkeep : ∀ current, ∀ operation ∈ operations, P current → P (current.apply operation))
    (heq : ∀ current, ∀ operation ∈ operations, P current →
      shown current operation = other current operation) :
    store.trace shown operations = store.trace other operations := by
  induction operations generalizing store with
  | nil => rfl
  | cons operation rest ih =>
    rw [trace, trace, heq store operation List.mem_cons_self hstart,
      ih (hkeep store operation List.mem_cons_self hstart)
        (fun current next hnext => hkeep current next (List.mem_cons_of_mem _ hnext))
        (fun current next hnext => heq current next (List.mem_cons_of_mem _ hnext))]

theorem trace_eq_nil {operations : List Operation}
    (h : ∀ current, ∀ operation ∈ operations, shown current operation = []) :
    store.trace shown operations = [] := by
  induction operations generalizing store with
  | nil => rfl
  | cons operation rest ih =>
    rw [trace, h store operation List.mem_cons_self,
      ih _ fun current next hnext => h current next (List.mem_cons_of_mem _ hnext)]
    rfl

/-- What neither writes nor the making of maps show, a run and its single operations show alike. -/
theorem trace_unbundled (hbuild : ∀ current plan, shown current (.build plan) = [])
    (hwrite : ∀ current m w, shown current (.write m w) = []) (operations : List Operation) :
    store.trace shown (store.unbundled operations) = store.trace shown operations := by
  have hquiet (current : Store) {operation : Operation} (h : ∀ s, shown s operation = []) :
      current.trace shown (current.steps operation) = [] := by
    refine trace_eq_nil _ _ fun s step hstep => ?_
    cases current.stepOf_of_mem_steps hstep with
    | self hsingle => exact h s
    | emptyMap plan => exact hbuild s _
    | firstValue plan key v => exact hwrite s _ _
    | value key v hnull hmem => exact hwrite s _ _
    | holder key id hmem => exact hwrite s _ _
  have hsteps (current : Store) (operation : Operation) :
      current.trace shown (current.steps operation) = shown current operation := by
    cases operation with
    | build plan => rw [hbuild, hquiet current fun s => hbuild s plan]
    | write m w => rw [hwrite, hquiet current fun s => hwrite s m w]
    | _ => exact List.append_nil _
  induction operations generalizing store with
  | nil => rfl
  | cons operation rest ih => rw [unbundled, trace_append, hsteps, run_steps, ih, trace]

/-- If each operation takes out and leaves what there is before it and what it brings in, then so
does a run. -/
theorem trace_balance {P : Store → Prop} (taken added : Store → Operation → List α)
    (present : Store → List α) {store : Store} (hstart : P store) {operations : List Operation}
    (hkeep : ∀ current, ∀ operation ∈ operations, P current → P (current.apply operation))
    (hstep : ∀ current, ∀ operation ∈ operations, P current →
      taken current operation ++ present (current.apply operation) =
        present current ++ added current operation) :
    store.trace taken operations ++ present (store.run operations) =
      present store ++ store.trace added operations := by
  induction operations generalizing store with
  | nil => rw [trace, trace, List.nil_append, List.append_nil]; rfl
  | cons operation rest ih =>
    have hfirst := hstep store operation List.mem_cons_self hstart
    have hrest := ih (hkeep store operation List.mem_cons_self hstart)
      (fun current next hnext => hkeep current next (List.mem_cons_of_mem _ hnext))
      (fun current next hnext => hstep current next (List.mem_cons_of_mem _ hnext))
    calc store.trace taken (operation :: rest) ++ present (store.run (operation :: rest))
        = taken store operation ++ ((store.apply operation).trace taken rest ++
            present ((store.apply operation).run rest)) := List.append_assoc ..
      _ = taken store operation ++ present (store.apply operation) ++
            (store.apply operation).trace added rest := by rw [hrest, List.append_assoc]
      _ = present store ++ store.trace added (operation :: rest) := by
            rw [hfirst, List.append_assoc, trace]

end AttributeStore.Store
