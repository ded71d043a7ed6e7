import AttributeStore.Proofs.Naming
import AttributeStore.Proofs.Refusal
import AttributeStore.Proofs.WriteOrder

/-!
# Maps made of values

A map can be made of pairs of keys and values, either at once or by a plan that is set up call by
call.  In both cases the pairs are written one after the other.  A pair with a null is left out, and
the first other pair whose key is no name keeps the map from being made.  Of several pairs with one
key the last one that is not left out stays, in a holder with no flag raised.

## Main definitions

* `PlanCall`, `MapPlan.ofCalls`: the calls that set up a plan, and the plan of a list of calls.
* `IsUnwritable`: the pairs that keep a map from being made.
* `IsLastValue`: the last value under a key of a list of pairs, nulls left out.
* `Store.MadeOf`, `Store.Constructs`: what a map of pairs is, and what comes of its making.

## Main results

* `MapPlan.values_ofCalls`: a plan has the pairs of its calls, in their order.
* `Store.get?_contents_entrySteps`, `Store.get?_contents_build`: what is under a key after pairs
  were written to an empty map, and of a map that was made.
* `Store.constructs_build`: what comes of a plan.
* `Store.constructors_agree`: every way of making a map of pairs gives the same.
-/

namespace AttributeStore

/-! ### Setting up plans -/

/-- A call that sets up a plan. -/
inductive PlanCall where
  /-- Adds one value to start with. -/
  | value (key : String) (v : Value)
  /-- Adds several values to start with. -/
  | values (pairs : List (String × Value))
  /-- Sets how many events a receiver may fall behind. -/
  | eventCapacity (n : Nat)
  /-- Gives the map a log of its own. -/
  | ownLog (threshold : Level)

namespace PlanCall

/-- What a call makes of a plan. -/
def applyTo (plan : MapPlan) : PlanCall → MapPlan
  | .value key v => plan.addValue key v
  | .values pairs => plan.addValues pairs
  | .eventCapacity n => plan.withEventCapacity n
  | .ownLog threshold => plan.withOwnLog threshold

/-- The pairs that a call adds. -/
def added : PlanCall → List (String × Value)
  | .value key v => [(key, v)]
  | .values pairs => pairs
  | _ => []

theorem values_applyTo (plan : MapPlan) (call : PlanCall) :
    (call.applyTo plan).values = plan.values ++ call.added := by
  cases call with
  | value key v => rfl
  | values pairs => rfl
  | eventCapacity n => exact (List.append_nil _).symm
  | ownLog threshold => exact (List.append_nil _).symm

end PlanCall

/-- The plan that a list of calls sets up. -/
def MapPlan.ofCalls (calls : List PlanCall) : MapPlan := calls.foldl PlanCall.applyTo {}

theorem MapPlan.values_ofCalls (calls : List PlanCall) :
    (MapPlan.ofCalls calls).values = calls.flatMap PlanCall.added := by
  have hfrom (plan : MapPlan) : (calls.foldl PlanCall.applyTo plan).values =
      plan.values ++ calls.flatMap PlanCall.added := by
    induction calls generalizing plan with
    | nil => exact (List.append_nil _).symm
    | cons call rest ih =>
      rw [List.foldl_cons, ih, PlanCall.values_applyTo, List.flatMap_cons, List.append_assoc]
  exact hfrom {}

/-! ### Pairs of keys and values -/

/-- A pair that is not left out and has a key that is no name. -/
def IsUnwritable (pair : String × Value) : Prop := pair.2 ≠ .null ∧ ¬ IsValidName pair.1

/-- The last value under a key of a list of pairs, nulls left out. -/
def IsLastValue (values : List (String × Value)) (key : String) (v : Value) : Prop :=
  v ≠ .null ∧ ∃ before after, values = before ++ (key, v) :: after ∧
    ∀ w, (key, w) ∈ after → w = .null

section

variable {values : List (String × Value)} {key key' : String} {v w : Value}

theorem isRefused_value_iff : (Entry.value v).IsRefused key ↔ IsUnwritable (key, v) := by
  simp [Entry.IsRefused, IsUnwritable]

/-- The first pair that keeps a map from being made, if there is one. -/
theorem exists_first_isUnwritable (h : ∃ pair ∈ values, IsUnwritable pair) :
    ∃ before pair after, values = before ++ pair :: after ∧
      (∀ other ∈ before, ¬ IsUnwritable other) ∧ IsUnwritable pair := by
  have hrefused : ¬ ∀ e ∈ plainEntries values, ¬ e.2.IsRefused e.1 := by
    obtain ⟨pair, hpair, hunwritable⟩ := h
    exact fun hall =>
      hall _ (List.mem_map_of_mem hpair) (isRefused_value_iff.2 hunwritable)
  obtain ⟨_, _, _, _, hsplit, hbefore, hentry⟩ := exists_first_isRefused hrefused
  obtain ⟨before, rest, rfl, rfl, hrest⟩ := List.map_eq_append_iff.1 hsplit
  obtain ⟨pair, after, rfl, heq, rfl⟩ := List.map_eq_cons_iff.1 hrest
  obtain ⟨rfl, rfl⟩ := Prod.mk.inj heq
  exact ⟨before, pair, after, rfl, fun other hother hunwritable =>
    hbefore _ (List.mem_map_of_mem hother) (isRefused_value_iff.2 hunwritable),
    isRefused_value_iff.1 hentry⟩

theorem isLastValue_append_of_ne (hne : key' ≠ key ∨ w = .null) :
    IsLastValue (values ++ [(key', w)]) key v ↔ IsLastValue values key v := by
  refine and_congr_right fun hv => ⟨?_, ?_⟩
  · rintro ⟨before, after, hsplit, hafter⟩
    rcases Store.append_singleton_eq_append_cons hsplit with ⟨-, -, heq⟩ | ⟨init, rfl, rfl⟩
    · obtain ⟨rfl, rfl⟩ := Prod.mk.inj heq
      exact absurd hne (by simp [hv])
    · exact ⟨before, init, rfl, fun u hu => hafter u (List.mem_append_left _ hu)⟩
  · rintro ⟨before, after, rfl, hafter⟩
    refine ⟨before, after ++ [(key', w)], by simp, fun u hu => ?_⟩
    rcases List.mem_append.1 hu with hu | hu
    · exact hafter u hu
    · obtain ⟨rfl, rfl⟩ := Prod.mk.inj (List.mem_singleton.1 hu)
      exact hne.resolve_left (· rfl)

theorem isLastValue_append_self (hw : w ≠ .null) :
    IsLastValue (values ++ [(key, w)]) key v ↔ v = w := by
  constructor
  · rintro ⟨hv, before, after, hsplit, hafter⟩
    rcases Store.append_singleton_eq_append_cons hsplit with ⟨-, -, heq⟩ | ⟨init, rfl, -⟩
    · exact (Prod.mk.inj heq).2.symm
    · exact absurd (hafter w (by simp)) hw
  · rintro rfl
    exact ⟨hw, values, [], rfl, by simp⟩

/-- A key has a last value if it has a value other than null. -/
theorem exists_isLastValue_iff :
    (∃ v, IsLastValue values key v) ↔ ∃ v, v ≠ .null ∧ (key, v) ∈ values := by
  constructor
  · rintro ⟨v, hv, before, after, rfl, -⟩
    exact ⟨v, hv, by simp⟩
  · rintro ⟨v, hv, hmem⟩
    induction values using List.reverseRecOn with
    | nil => simp at hmem
    | append_singleton values pair ih =>
      obtain ⟨key', w⟩ := pair
      by_cases hne : key' ≠ key ∨ w = .null
      · have hmem : (key, v) ∈ values := by
          rcases List.mem_append.1 hmem with h | h
          · exact h
          · obtain ⟨rfl, rfl⟩ := Prod.mk.inj (List.mem_singleton.1 h)
            exact absurd hne (by simp [hv])
        obtain ⟨last, hlast⟩ := ih hmem
        exact ⟨last, (isLastValue_append_of_ne hne).2 hlast⟩
      · obtain ⟨heq, hw⟩ := not_or.1 hne
        obtain rfl := not_not.1 heq
        exact ⟨w, (isLastValue_append_self hw).2 rfl⟩

end

namespace Store

variable {store : Store} {m : MapId} {values : List (String × Value)}

/-! ### Writing the pairs -/

/-- A plain write to a slot that shows a holder with no flag raised, or nothing, makes a holder with
no flag raised. -/
theorem get?_contents_set_of_fresh (hstore : store.Unaliased) (hm : store.HasMap m) {key : String}
    (hname : IsValidName key)
    (hfresh : ∀ old, (store.contents m).get? key = some old → ∃ v, old = .fresh v .composite)
    (w : Value) :
    ((store.apply (.write m (.set key w))).contents m).get? key = some (.fresh w .composite) := by
  have hopen : ∀ old ∈ (store.contents m).get? key, old.locked = false := by
    intro old hold
    obtain ⟨v, rfl⟩ := hfresh old hold
    rfl
  have hnew : Holder.superseding ((store.contents m).get? key) w = .fresh w .composite := by
    cases hold : (store.contents m).get? key with
    | none => rfl
    | some old =>
      obtain ⟨v, rfl⟩ := hfresh old hold
      rfl
  have houtcome : ((store.apply (.write m (.set key w))).contents m).get? key =
      if IsValidName key ∧ ∀ old ∈ (store.contents m).get? key, old.locked = false then
        some (.superseding ((store.contents m).get? key) w)
      else (store.contents m).get? key :=
    get?_contents_slotWrite hstore (w := ⟨m, key, .set w⟩) hm
  rw [houtcome, if_pos ⟨hname, hopen⟩, hnew]

/-- A pair with a null at the end is left out. -/
theorem entrySteps_append_null (m : MapId) (values : List (String × Value)) (key : String) :
    entrySteps m (plainEntries (values ++ [(key, .null)])) =
      entrySteps m (plainEntries values) := by
  simp [entrySteps, plainEntries, Entry.operation?]

/-- Any other pair at the end is written after those before it. -/
theorem run_entrySteps_append (store : Store) (m : MapId) (values : List (String × Value))
    (key : String) {w : Value} (hnull : w ≠ .null) :
    store.run (entrySteps m (plainEntries (values ++ [(key, w)]))) =
      (store.run (entrySteps m (plainEntries values))).apply (.write m (.set key w)) := by
  have hsteps : entrySteps m (plainEntries (values ++ [(key, w)])) =
      entrySteps m (plainEntries values) ++ [.write m (.set key w)] := by
    simp [entrySteps, plainEntries, Entry.operation?]
  rw [hsteps, run_append]
  rfl

/-- What pairs that are written one after the other to a map without entries leave there. -/
theorem get?_contents_entrySteps (hstore : store.Unaliased) (hm : store.HasMap m)
    (hempty : store.contents m = .empty) (hwritable : ∀ pair ∈ values, ¬ IsUnwritable pair)
    (key : String) (h : Holder) :
    ((store.run (entrySteps m (plainEntries values))).contents m).get? key = some h ↔
      ∃ v, IsLastValue values key v ∧ h = .fresh v .composite := by
  induction values using List.reverseRecOn generalizing key h with
  | nil =>
    refine iff_of_false ?_ ?_
    · change ¬ (store.contents m).get? key = some h
      simp [hempty]
    · rintro ⟨v, ⟨-, before, after, hsplit, -⟩, -⟩
      simp at hsplit
  | append_singleton values pair ih =>
    obtain ⟨key', w⟩ := pair
    have hvalues := ih fun pair hpair => hwritable pair (List.mem_append_left _ hpair)
    by_cases hnull : w = .null
    · subst hnull
      rw [entrySteps_append_null, hvalues]
      simp only [isLastValue_append_of_ne (.inr rfl)]
    · have hname : IsValidName key' := by
        by_contra hname
        exact hwritable (key', w) (by simp) ⟨hnull, hname⟩
      have hcurrent := hstore.run (entrySteps m (plainEntries values))
      have hmap := store.hasMap_run hm (entrySteps m (plainEntries values))
      rw [run_entrySteps_append store m values key' hnull]
      generalize store.run (entrySteps m (plainEntries values)) = current at *
      by_cases hkey : key' = key
      · subst hkey
        have hfresh (old : Holder) (hold : (current.contents m).get? key' = some old) :
            ∃ v, old = .fresh v .composite := by
          obtain ⟨v, -, rfl⟩ := (hvalues key' old).1 hold
          exact ⟨v, rfl⟩
        rw [get?_contents_set_of_fresh hcurrent hmap hname hfresh w]
        simp [isLastValue_append_self hnull, eq_comm]
      · have hslot : SlotWrite.slot ⟨m, key', .set w⟩ ≠ (m, key) := fun heq =>
          hkey (Prod.mk.inj heq).2
        have hkept := get?_contents_slotWrite_of_ne hcurrent hslot
        rw [SlotWrite.operation] at hkept
        rw [hkept, hvalues]
        simp only [isLastValue_append_of_ne (.inl hkey)]

/-! ### Making the map -/

/-- A map of pairs that was made: it is new and shows the last value of each key in a holder with no
flag raised, while nothing is logged and no other map changes. -/
structure MadeOf (store : Store) (values : List (String × Value)) (m : MapId) (built : Store) :
    Prop where
  isNew : ¬ store.HasMap m ∧ built.HasMap m
  mem_keys_iff : ∀ key, key ∈ (built.contents m).keys ↔ ∃ v, v ≠ .null ∧ (key, v) ∈ values
  holder : ∀ key h, (built.contents m).get? key = some h ↔
    ∃ v, IsLastValue values key v ∧
      h = { value := v, locked := false, persistable := false, kind := .composite }
  ownLines : built.ownLines m = []
  sharedLog : built.sharedLog = store.sharedLog
  others : ∀ m', store.HasMap m' → built.map m' = store.map m'

/-- What comes of making a map of pairs: it fails if a pair is unwritable, the first such pair gives
the error, and otherwise there is a map of the pairs. -/
structure Constructs (store : Store) (values : List (String × Value))
    (result : Except AttributeError (MapId × Store)) : Prop where
  fails_iff : (∃ e, result = .error e) ↔ ∃ pair ∈ values, IsUnwritable pair
  error : ∀ before pair after, values = before ++ pair :: after →
    (∀ other ∈ before, ¬ IsUnwritable other) → IsUnwritable pair →
      result = .error (.invalidName pair.1)
  made : ∀ m built, result = .ok (m, built) → store.MadeOf values m built

/-- A plan makes a map if and only if none of its pairs is unwritable. -/
theorem exists_build_eq_ok_iff (store : Store) (plan : MapPlan) :
    (∃ made, store.build plan = .ok made) ↔ ∀ pair ∈ plan.values, ¬ IsUnwritable pair := by
  have hadded := store.hasMap_addMap_self plan.emptyMap
  have hfill := importAll_fst_eq_ok_iff _ hadded (plainEntries plan.values)
  simp only [plainEntries, List.forall_mem_map, isRefused_value_iff] at hfill
  rw [← hfill]
  constructor
  · rintro ⟨⟨m, built⟩, hbuild⟩
    exact congrArg Prod.fst (store.build_eq_ok_iff.1 hbuild).2
  · exact fun hok => ⟨(_, _), store.build_eq_ok_iff.2 ⟨rfl, Prod.ext hok rfl⟩⟩

/-- Making a map logs nothing. -/
theorem logs_of_build (hstore : store.Unaliased) {plan : MapPlan} {built : Store}
    (hbuild : store.build plan = .ok (m, built)) :
    built.ownLines m = [] ∧ built.sharedLog = store.sharedLog := by
  obtain ⟨hm, hmap, hfilled⟩ := store.filled_of_build hbuild
  have hnone := (refusals_build hstore hbuild).2
  have hshared : (store.apply (.build { plan with values := [] })).sharedLog = store.sharedLog := by
    rw [apply_build_of_values_eq_nil store rfl]
    rfl
  generalize store.apply (.build { plan with values := [] }) = added at *
  generalize Write.importAll (plainEntries plan.values) = filling at *
  rw [← filterMap_history hm, history, history, List.append_nil, emitted, if_pos rfl] at hnone
  subst hfilled
  constructor
  · rw [ownLines, apply, ownLog_commit_self _ _ _ hm, hmap, MapPlan.emptyMap]
    cases plan.ownLog with
    | none => rfl
    | some threshold => simp [Log.foldl_note, hnone, Level.refusalLines]
  · rw [apply, sharedLog_commit _ _ _ hm, SharedLog.foldl_note, Log.foldl_note, hnone, hshared]
    simp [Level.refusalLines]

/-- What is under a key of a map that was made. -/
theorem get?_contents_build (hstore : store.Unaliased) {plan : MapPlan} {built : Store}
    (hbuild : store.build plan = .ok (m, built)) (key : String) (h : Holder) :
    (built.contents m).get? key = some h ↔
      ∃ v, IsLastValue plan.values key v ∧ h = .fresh v .composite := by
  have hwritable := (store.exists_build_eq_ok_iff plan).1 ⟨_, hbuild⟩
  obtain ⟨hadded, hmap, hfilled⟩ := store.filled_of_build hbuild
  have hsingle : (Operation.build { plan with values := [] }).IsSingle := rfl
  have hempty : (store.apply (.build { plan with values := [] })).contents m = .empty := by
    rw [contents, table, hmap]
    rfl
  have hentries : ∀ e ∈ plainEntries plan.values, ¬ e.2.IsRefused e.1 := by
    simpa only [plainEntries, List.forall_mem_map, isRefused_value_iff] using hwritable
  have hrun := congrArg Prod.snd (importAll_of_not_isRefused _ hadded hentries).1
  rw [importAll_eq_apply, hfilled] at hrun
  rw [hrun]
  exact get?_contents_entrySteps (hstore.apply hsingle) hadded hempty hwritable key h

theorem madeOf_of_build (hstore : store.Unaliased) {plan : MapPlan} {built : Store}
    (hbuild : store.build plan = .ok (m, built)) : store.MadeOf plan.values m built where
  isNew := by
    obtain ⟨hadded, -, hfilled⟩ := store.filled_of_build hbuild
    refine ⟨?_, hfilled ▸ Store.hasMap_apply _ hadded _⟩
    rw [(store.build_eq_ok_iff.1 hbuild).1]
    exact Nat.lt_irrefl _
  mem_keys_iff key := by
    simp only [Dict.mem_keys_iff, get?_contents_build hstore hbuild, ← exists_isLastValue_iff]
    constructor
    · rintro ⟨_, v, hv, -⟩
      exact ⟨v, hv⟩
    · rintro ⟨v, hv⟩
      exact ⟨_, v, hv, rfl⟩
  holder := get?_contents_build hstore hbuild
  ownLines := (logs_of_build hstore hbuild).1
  sharedLog := (logs_of_build hstore hbuild).2
  others m' hm' := by
    have happly : store.apply (.build plan) = built := by rw [apply, hbuild]
    exact happly ▸ map_apply_build hm' plan

theorem constructs_build (hstore : store.Unaliased) (plan : MapPlan) :
    store.Constructs plan.values (store.build plan) where
  fails_iff := by
    have hok := store.exists_build_eq_ok_iff plan
    cases hbuild : store.build plan with
    | ok made => simpa [hbuild] using hok
    | error e => simpa [hbuild] using hok
  error before pair after hsplit hbefore hpair := by
    refine (store.build_of_not_isValidName hpair.2 hpair.1 hsplit fun other hother => ?_).1
    simpa [IsUnwritable, or_iff_not_imp_left] using hbefore other hother
  made m built hbuild := madeOf_of_build hstore hbuild

/-- Two makings of a map of the same pairs fail alike or give maps that show the same. -/
theorem Constructs.contents_eq {result result' : Except AttributeError (MapId × Store)}
    (h : store.Constructs values result) (h' : store.Constructs values result') :
    (result.map fun made => made.2.contents made.1) =
      result'.map fun made => made.2.contents made.1 := by
  by_cases hunwritable : ∃ pair ∈ values, IsUnwritable pair
  · obtain ⟨before, pair, after, hsplit, hbefore, hpair⟩ := exists_first_isUnwritable hunwritable
    rw [h.error before pair after hsplit hbefore hpair,
      h'.error before pair after hsplit hbefore hpair]
  · have hok := mt h.fails_iff.1 hunwritable
    have hok' := mt h'.fails_iff.1 hunwritable
    rcases result with e | ⟨m, built⟩
    · exact absurd ⟨e, rfl⟩ hok
    rcases result' with e | ⟨m', built'⟩
    · exact absurd ⟨e, rfl⟩ hok'
    refine congrArg Except.ok (Dict.ext_get? fun key => Option.ext fun holder => ?_)
    rw [(h.made m built rfl).holder, (h'.made m' built' rfl).holder]

/-- A pair with a null is left out. -/
theorem build_of_null (store : Store) (plan : MapPlan) (before after : List (String × Value))
    (key : String) :
    store.build { plan with values := before ++ (key, .null) :: after } =
      store.build { plan with values := before ++ after } := by
  have hsession (s : Session) :
      s.importAll (plainEntries (before ++ (key, .null) :: after)) =
        s.importAll (plainEntries (before ++ after)) := by
    simp only [plainEntries, List.map_append, List.map_cons, Session.importAll_append]
    rfl
  simp only [build, setAll, importAll, hsession]
  rfl

/-- To make a map of pairs at once or by any calls that add the same pairs in the same order is the
same: either fails if and only if a pair other than a null has a key that is no name, with the first
such pair as the error, and otherwise the new maps show the same, which is the last value under each
key, nulls left out, in holders of their own with no flag raised.  Nothing is logged, and pairs with
a null might as well not be there. -/
theorem constructors_agree (hstore : store.Reachable) (values : List (String × Value)) :
    store.Constructs values (store.ofValues values) ∧
      (∀ calls : List PlanCall, calls.flatMap PlanCall.added = values →
        store.Constructs values (store.build (.ofCalls calls)) ∧
          ((store.build (.ofCalls calls)).map fun made => made.2.contents made.1) =
            (store.ofValues values).map fun made => made.2.contents made.1) ∧
      ∀ (plan : MapPlan) before key after,
        store.build { plan with values := before ++ (key, .null) :: after } =
          store.build { plan with values := before ++ after } := by
  have hvalues : store.Constructs values (store.ofValues values) :=
    constructs_build hstore.unaliased { values }
  refine ⟨hvalues, ?_, fun plan before key after => store.build_of_null plan before after key⟩
  rintro calls rfl
  have hcalls : store.Constructs (calls.flatMap PlanCall.added) (store.build (.ofCalls calls)) := by
    rw [← MapPlan.values_ofCalls]
    exact constructs_build hstore.unaliased (.ofCalls calls)
  exact ⟨hcalls, hcalls.contents_eq hvalues⟩

/-- Two values under one key, nulls behind a value and under something that is no name, and calls
of all kinds between them. -/
theorem constructors_agree_of_repeated_key :
    (∃ m built, (empty.run [.build {}]).build (.ofCalls
        [.eventCapacity 0, .value "a" (.bool true), .values [("1", .null), ("b", .null)],
          .ownLog .trace, .values [("a", .string "x"), ("a", .null)]]) = .ok (m, built) ∧
      (built.contents m).get? "a" = some ⟨.string "x", false, false, .composite⟩ ∧
        "b" ∉ (built.contents m).keys) ∧
    (empty.run [.build {}]).build (.ofCalls
        [.value "2" .null, .value "1" (.bool true), .values [("2", .bool false)]]) =
      .error (.invalidName "1") := by
  have hreach : (empty.run [.build {}]).Reachable := ⟨_, rfl⟩
  constructor
  · obtain ⟨-, hcalls, -⟩ := constructors_agree hreach
      [("a", .bool true), ("1", .null), ("b", .null), ("a", .string "x"), ("a", .null)]
    obtain ⟨h, -⟩ := hcalls [.eventCapacity 0, .value "a" (.bool true),
      .values [("1", .null), ("b", .null)], .ownLog .trace,
      .values [("a", .string "x"), ("a", .null)]] rfl
    refine ⟨_, _, rfl, ?_, ?_⟩
    · refine ((h.made _ _ rfl).holder _ _).2 ⟨.string "x", ⟨by simp, ?_⟩, rfl⟩
      exact ⟨[("a", .bool true), ("1", .null), ("b", .null)], [("a", .null)], rfl, by simp⟩
    · rw [(h.made _ _ rfl).mem_keys_iff]
      simp
  · obtain ⟨-, hcalls, -⟩ := constructors_agree hreach
      [("2", .null), ("1", .bool true), ("2", .bool false)]
    obtain ⟨h, -⟩ := hcalls [.value "2" .null, .value "1" (.bool true),
      .values [("2", .bool false)]] rfl
    exact h.error [("2", .null)] ("1", .bool true) [("2", .bool false)] rfl
      (by simp [IsUnwritable]) ⟨by simp, by decide⟩

end Store

end AttributeStore
