import AttributeStore.Proofs.Import
import AttributeStore.Proofs.Lock

/-!
# Names in a store

Plain values are stored under valid names alone, and the copies of holders under anything.  What
stands under something that is no name is therefore the copy that an entry of an import made.  No
plain write reaches it, be it locked or not: it stays until it is taken out or another holder is
imported.

## Main definitions

* `Store.EntryMakes`, `Store.MadeByImport`: the holders that the entries of imports make.
* `Store.GuardsNames`: what plain writes under something that is no name do.

## Main results

* `isValidName_iff`: the valid names, character by character.
* `Store.madeByImport_of_holder?_run`: where the holders under other keys come from.
* `Store.names_of_run`: names in the stores that runs lead to.
-/

namespace AttributeStore

/-! ### The rule for names -/

private theorem isDigit_iff (c : Char) : c.isDigit ↔ '0' ≤ c ∧ c ≤ '9' := by
  simp [Char.isDigit, Char.le_def]

private theorem isAlpha_iff (c : Char) :
    c.isAlpha ↔ 'a' ≤ c ∧ c ≤ 'z' ∨ 'A' ≤ c ∧ c ≤ 'Z' := by
  have hcases : c.isAlpha =
      (decide ('A' ≤ c ∧ c ≤ 'Z') || decide ('a' ≤ c) && decide (c ≤ 'z')) := rfl
  simp [hcases, or_comm]

theorem isNameChar_iff (c : Char) :
    IsNameChar c ↔
      'a' ≤ c ∧ c ≤ 'z' ∨ 'A' ≤ c ∧ c ≤ 'Z' ∨ '0' ≤ c ∧ c ≤ '9' ∨ c = '_' := by
  simp only [IsNameChar, Char.isAlphanum, Bool.or_eq_true, isAlpha_iff, isDigit_iff, or_assoc]

/-- No character that may open a name is a digit. -/
private theorem not_isDigit_of_isNameStart {c : Char} (h : IsNameStart c) :
    ¬ ('0' ≤ c ∧ c ≤ '9') := by
  rintro ⟨-, hle⟩
  have hletter : ¬ 'a' ≤ '9' ∧ ¬ 'A' ≤ '9' ∧ ¬ '_' ≤ '9' := by decide
  rcases h with h | rfl
  · rcases (isAlpha_iff c).1 h with ⟨hc, -⟩ | ⟨hc, -⟩
    · exact hletter.1 (Char.le_trans hc hle)
    · exact hletter.2.1 (Char.le_trans hc hle)
  · exact hletter.2.2 hle

/-- A character may open a name if it may stand in one and is no digit. -/
theorem isNameStart_iff (c : Char) :
    IsNameStart c ↔ IsNameChar c ∧ ¬ ('0' ≤ c ∧ c ≤ '9') := by
  constructor
  · intro h
    exact ⟨h.imp_left fun halpha => by simp [Char.isAlphanum, halpha], not_isDigit_of_isNameStart h⟩
  · rintro ⟨halphanum | hunderscore, hdigit⟩
    · rw [Char.isAlphanum, Bool.or_eq_true, isDigit_iff] at halphanum
      exact .inl (halphanum.resolve_right hdigit)
    · exact .inr hunderscore

/-- A valid name is a nonempty text of ASCII letters, ASCII digits and underscores that does not
begin with a digit. -/
theorem isValidName_iff (name : String) :
    IsValidName name ↔
      name ≠ "" ∧
        (∀ c ∈ name.toList,
          'a' ≤ c ∧ c ≤ 'z' ∨ 'A' ≤ c ∧ c ≤ 'Z' ∨ '0' ≤ c ∧ c ≤ '9' ∨ c = '_') ∧
        ∀ c ∈ name.toList.head?, ¬ ('0' ≤ c ∧ c ≤ '9') := by
  simp only [IsValidName, ← isNameChar_iff, ne_eq, ← String.toList_eq_nil_iff]
  cases name.toList with
  | nil => simp [IsNameText]
  | cons c rest =>
    simp only [IsNameText, isNameStart_iff, List.forall_mem_cons, List.head?_cons, Option.mem_some,
      forall_eq', reduceCtorEq, not_false_eq_true, true_and]
    tauto

/-! ### Holders under what is no name -/

namespace Store

/-- An import that reaches an entry for a slot, a holder, and makes the holder `id` of it. -/
def EntryMakes (store : Store) (m : MapId) (key : String) (id : HolderId)
    (entries : List (String × Entry)) : Prop :=
  ∃ first source rest, entries = first ++ (key, .holder source) :: rest ∧
    (store.importAll m first).1 = .ok () ∧ (store.importAll m first).2.pool.nextId = id ∧
    (store.importAll m (first ++ [(key, .holder source)])).2.holder? m key = some id

/-- An import of a run has made the holder `id` of an entry for a slot. -/
def MadeByImport (store : Store) (m : MapId) (key : String) (id : HolderId)
    (operations : List Operation) : Prop :=
  ∃ before entries after, operations = before ++ .write m (.importAll entries) :: after ∧
    (store.run before).EntryMakes m key id entries

variable {store : Store} {m : MapId} {key : String} {id : HolderId}

/-- Only the import of a holder fills a slot under something that is no name. -/
private theorem exists_importHolder_of_fills (hname : ¬ IsValidName key) {step : Operation}
    {new : Holder} (h : store.Fills m key step new) :
    ∃ source, step = .write m (.importAll [(key, .holder source)]) := by
  cases h with
  | set v hm hvalid hopen => exact absurd hvalid hname
  | importHolder source hm => exact ⟨source, rfl⟩

private theorem exists_importAll_of_stepOf {operation : Operation} {source : HolderId}
    (h : store.StepOf operation (.write m (.importAll [(key, .holder source)]))) :
    ∃ entries, operation = .write m (.importAll entries) ∧ (key, .holder source) ∈ entries := by
  generalize hstep : Operation.write m (.importAll [(key, .holder source)]) = step at h
  cases h with
  | self hsingle => exact ⟨_, hstep.symm, List.mem_singleton_self _⟩
  | holder key' id hmem =>
    obtain ⟨rfl, hentries⟩ := Operation.write.inj hstep
    obtain ⟨rfl, hentry⟩ := Prod.mk.inj (List.singleton_inj.1 (Write.importAll.inj hentries))
    exact ⟨_, rfl, Entry.holder.inj hentry ▸ hmem⟩
  | _ => cases hstep

/-- A run without an import of a holder for a slot under something that is no name fills it with
nothing. -/
theorem holder?_of_holder?_run_of_not_isValidName (hname : ¬ IsValidName key)
    (operations : List Operation)
    (himports : ∀ entries, .write m (.importAll entries) ∈ operations →
      ∀ source, (key, .holder source) ∉ entries)
    (hslot : (store.run operations).holder? m key = some id) : store.holder? m key = some id := by
  refine store.run_induction
    (P := fun current => current.holder? m key = some id → store.holder? m key = some id)
    (fun h => h) (fun current step hstep hsingle hback h => ?_) hslot
  rcases holder?_of_holder?_apply hsingle h with hold | ⟨-, new, hfills⟩
  · exact hback hold
  · obtain ⟨source, rfl⟩ := exists_importHolder_of_fills hname hfills
    obtain ⟨_, operation, hmem, hof⟩ := store.exists_of_mem_unbundled hstep
    obtain ⟨entries, rfl, hentry⟩ := exists_importAll_of_stepOf hof
    exact absurd hentry (himports entries hmem source)

theorem EntryMakes.append {entries : List (String × Entry)}
    (h : store.EntryMakes m key id entries) (more : List (String × Entry)) :
    store.EntryMakes m key id (entries ++ more) := by
  obtain ⟨first, source, rest, rfl, hmakes⟩ := h
  exact ⟨first, source, rest ++ more, by simp, hmakes⟩

/-- What an import leaves in a slot under something that is no name was there before, or an entry
of the import has made it. -/
theorem entryMakes_of_holder?_importAll (hname : ¬ IsValidName key)
    {entries : List (String × Entry)}
    (hslot : (store.importAll m entries).2.holder? m key = some id) :
    store.holder? m key = some id ∨ store.EntryMakes m key id entries := by
  have hm : store.HasMap m :=
    (store.hasMap_commit m _ m).1 (Store.hasMap_of_holder? _ hslot)
  induction entries using List.reverseRecOn with
  | nil => exact .inl (by rwa [importAll_eq_apply, ← run_steps] at hslot)
  | append_singleton first e ih =>
    -- If it is not the last entry that makes the holder, it is one before it, whether or not the
    -- last one is reached.
    have hfirst := fun h => (ih h).imp_right (EntryMakes.append · [e])
    have hlast := hslot
    rw [store.importAll_append hm] at hslot
    cases hresult : store.importAll m first with
    | mk result next =>
      rw [hresult] at hslot hfirst
      cases result with
      | error _ => exact hfirst hslot
      | ok _ =>
        have hslot : (next.apply (.write m (.importAll [e]))).holder? m key = some id := hslot
        by_cases hentry : ∃ source, e = (key, .holder source)
        · obtain ⟨source, rfl⟩ := hentry
          have hsingle : (Operation.write m (.importAll [(key, .holder source)])).IsSingle :=
            ⟨key, source, rfl⟩
          rcases holder?_of_holder?_apply hsingle hslot with hold | ⟨rfl, -⟩
          · exact hfirst hold
          · exact .inr ⟨first, source, [], rfl, by simp [hresult], by simp [hresult], hlast⟩
        · refine hfirst (holder?_of_holder?_run_of_not_isValidName hname
            [.write m (.importAll [e])] ?_ hslot)
          intro entries hentries source hmem
          obtain rfl := Write.importAll.inj (Operation.write.inj (List.mem_singleton.1 hentries)).2
          exact hentry ⟨source, (List.mem_singleton.1 hmem).symm⟩

/-- What stands under something that is no name after an operation stood there before, or an entry
of an import has made it. -/
theorem entryMakes_of_holder?_apply (hname : ¬ IsValidName key) {operation : Operation}
    (hslot : (store.apply operation).holder? m key = some id) :
    store.holder? m key = some id ∨
      ∃ entries, operation = .write m (.importAll entries) ∧
        store.EntryMakes m key id entries := by
  by_cases himport : ∃ entries, operation = .write m (.importAll entries)
  · obtain ⟨entries, rfl⟩ := himport
    exact (entryMakes_of_holder?_importAll hname hslot).imp_right fun h => ⟨entries, rfl, h⟩
  · refine .inl (holder?_of_holder?_run_of_not_isValidName hname [operation] ?_ hslot)
    intro entries hentries
    exact absurd ⟨entries, (List.mem_singleton.1 hentries).symm⟩ himport

/-- Entries of imports have made what stands under something that is no name. -/
theorem madeByImport_of_holder?_run (hname : ¬ IsValidName key)
    (habsent : store.holder? m key = none) {operations : List Operation}
    (hslot : (store.run operations).holder? m key = some id) :
    store.MadeByImport m key id operations := by
  induction operations using List.reverseRecOn with
  | nil => exact absurd (habsent.symm.trans hslot) (by simp)
  | append_singleton operations operation ih =>
    rw [run_append] at hslot
    rcases entryMakes_of_holder?_apply hname hslot with hold | ⟨entries, rfl, hmakes⟩
    · obtain ⟨before, entries, after, rfl, hmakes⟩ := ih hold
      exact ⟨before, entries, after ++ [operation], by simp, hmakes⟩
    · exact ⟨operations, entries, [], rfl, hmakes⟩

/-- What stands under something that is no name stays until it is taken out or another holder is
imported. -/
theorem holder?_run_of_not_unseats (hname : ¬ IsValidName key) {operations : List Operation}
    (hseated : ∀ operation ∈ operations, ¬ operation.Unseats m key) :
    (store.run operations).holder? m key = store.holder? m key := by
  refine store.run_induction (P := fun current => current.holder? m key = store.holder? m key) rfl
    fun current step hstep hsingle hkept => ?_
  obtain ⟨_, operation, hmem, hof⟩ := store.exists_of_mem_unbundled hstep
  have hnot : ¬ step.Unseats m key := mt (unseats_of_stepOf hof) (hseated operation hmem)
  refine (current.holder?_apply_of_kept hsingle (fun new hfills => hnot ?_)
    (not_drops_of_not_unseats hnot)).trans hkept
  obtain ⟨source, rfl⟩ := exists_importHolder_of_fills hname hfills
  exact ⟨rfl, source, List.mem_singleton_self _⟩

/-! ### Plain values under what is no name -/

theorem set_of_not_isValidName (hname : ¬ IsValidName key) (v : Value) :
    store.set m key v = (.error (.invalidName key), store) := by
  simp [Store.set, Session.set, hname]

/-- After entries that succeed, a plain value under something that is no name ends an import. -/
theorem importAll_of_not_isValidName (hname : ¬ IsValidName key) {v : Value} (hnull : v ≠ .null)
    {before : List (String × Entry)} (hbefore : (store.importAll m before).1 = .ok ())
    (after : List (String × Entry)) :
    store.importAll m (before ++ (key, .value v) :: after) =
        (.error (.invalidName key), (store.importAll m before).2) ∧
      store.emitted m (.write m (.importAll (before ++ (key, .value v) :: after))) =
        store.emitted m (.write m (.importAll before)) := by
  refine store.importAll_of_isRefused ?_ ⟨v, rfl, hnull, hname⟩ after
  by_contra hrefused
  obtain ⟨first, key', entry, rest, rfl, hfirst, hentry⟩ := exists_first_isRefused hrefused
  simp [(store.importAll_of_isRefused hfirst hentry rest).1] at hbefore

/-- A first value under something that is no name keeps a map from being made. -/
theorem build_of_not_isValidName (store : Store) (hname : ¬ IsValidName key) {v : Value}
    (hnull : v ≠ .null) {plan : MapPlan} {before after : List (String × Value)}
    (hvalues : plan.values = before ++ (key, v) :: after)
    (hbefore : ∀ pair ∈ before, pair.2 = .null ∨ IsValidName pair.1) :
    store.build plan = .error (.invalidName key) ∧ store.apply (.build plan) = store := by
  have hfirst : ∀ e ∈ plainEntries before, ¬ e.2.IsRefused e.1 := by
    simp only [plainEntries, List.mem_map]
    rintro _ ⟨pair, hpair, rfl⟩ ⟨w, hw, hnot, hinvalid⟩
    obtain rfl := Entry.value.inj hw
    exact (hbefore pair hpair).elim hnot hinvalid
  have hentries : plainEntries plan.values =
      plainEntries before ++ (key, .value v) :: plainEntries after := by
    simp [plainEntries, hvalues]
  have hbuild : store.build plan = .error (.invalidName key) := by
    simp only [build, setAll, hentries]
    rw [(importAll_of_isRefused _ hfirst ⟨v, rfl, hnull, hname⟩ _).1]
  exact ⟨hbuild, by rw [apply, hbuild]⟩

/-- What plain writes under something that is no name do: they give this as an error, and nothing
happens, whatever stands there.  What stands there stays until it is taken out or another holder is
imported. -/
structure GuardsNames (store : Store) : Prop where
  set : ∀ (m : MapId) (key : String) (v : Value), ¬ IsValidName key →
    store.set m key v = (.error (.invalidName key), store) ∧
      store.emitted m (.write m (.set key v)) = []
  entry : ∀ (m : MapId) (before : List (String × Entry)) (key : String) (v : Value)
    (after : List (String × Entry)), ¬ IsValidName key → v ≠ .null →
    (store.importAll m before).1 = .ok () →
      store.importAll m (before ++ (key, .value v) :: after) =
          (.error (.invalidName key), (store.importAll m before).2) ∧
        store.emitted m (.write m (.importAll (before ++ (key, .value v) :: after))) =
          store.emitted m (.write m (.importAll before))
  build : ∀ (plan : MapPlan) (before : List (String × Value)) (key : String) (v : Value)
    (after : List (String × Value)), plan.values = before ++ (key, v) :: after →
    ¬ IsValidName key → v ≠ .null →
    (∀ pair ∈ before, pair.2 = .null ∨ IsValidName pair.1) →
      store.build plan = .error (.invalidName key) ∧ store.apply (.build plan) = store
  kept : ∀ (m : MapId) (key : String) (operations : List Operation), ¬ IsValidName key →
    (∀ operation ∈ operations, ¬ operation.Unseats m key) →
      (store.run operations).holder? m key = store.holder? m key

theorem guardsNames (store : Store) : store.GuardsNames where
  set m key v hname := by
    refine ⟨set_of_not_isValidName hname v, ?_⟩
    simp [emitted, Session.apply, Session.set, hname, session]
  entry m before key v after hname hnull hbefore :=
    importAll_of_not_isValidName hname hnull hbefore after
  build plan before key v after hvalues hname hnull hbefore :=
    store.build_of_not_isValidName hname hnull hvalues hbefore
  kept m key operations hname hseated := holder?_run_of_not_unseats hname hseated

/-- The valid names are the nonempty texts of ASCII letters, ASCII digits and underscores that do
not begin with a digit.  Whatever has happened to the empty store, what stands under anything else
was made by an entry of an import, so that without such imports into a map all of its keys are valid
names, and plain writes under anything else are refused. -/
theorem names_of_run (operations : List Operation) :
    (∀ name, IsValidName name ↔
      name ≠ "" ∧
        (∀ c ∈ name.toList,
          'a' ≤ c ∧ c ≤ 'z' ∨ 'A' ≤ c ∧ c ≤ 'Z' ∨ '0' ≤ c ∧ c ≤ '9' ∨ c = '_') ∧
        ∀ c ∈ name.toList.head?, ¬ ('0' ≤ c ∧ c ≤ '9')) ∧
      (∀ m key id, (empty.run operations).holder? m key = some id →
        IsValidName key ∨ empty.MadeByImport m key id operations) ∧
      (∀ m, (∀ entries, .write m (.importAll entries) ∈ operations →
          ∀ key source, (key, .holder source) ∈ entries → IsValidName key) →
        ∀ key id, (empty.run operations).holder? m key = some id → IsValidName key) ∧
      (empty.run operations).GuardsNames := by
  refine ⟨isValidName_iff, fun m key id hslot => ?_, fun m himports key id hslot => ?_,
    guardsNames _⟩
  · by_cases hname : IsValidName key
    · exact .inl hname
    · exact .inr (madeByImport_of_holder?_run hname (holder?_empty m key) hslot)
  · by_contra hname
    have habsent := holder?_of_holder?_run_of_not_isValidName hname operations
      (fun entries hmem source hentry => hname (himports entries hmem key source hentry)) hslot
    simp [holder?_empty] at habsent

/-- A holder is imported under a digit, where a plain write does not reach it. -/
theorem names_of_run_of_imported_digit :
    empty.MadeByImport ⟨0⟩ "1" ⟨1⟩
        [.build {}, .newHolder .null .basic, .write ⟨0⟩ (.importAll [("1", .holder ⟨0⟩)])] ∧
      (empty.run [.build {}, .newHolder .null .basic,
          .write ⟨0⟩ (.importAll [("1", .holder ⟨0⟩)])]).set ⟨0⟩ "1" (.bool true) =
        (.error (.invalidName "1"), empty.run [.build {}, .newHolder .null .basic,
          .write ⟨0⟩ (.importAll [("1", .holder ⟨0⟩)])]) := by
  have hname : ¬ IsValidName "1" := by decide
  obtain ⟨-, hmade, -, hguards⟩ := names_of_run
    [.build {}, .newHolder .null .basic, .write ⟨0⟩ (.importAll [("1", .holder ⟨0⟩)])]
  exact ⟨(hmade ⟨0⟩ "1" ⟨1⟩ (by decide)).resolve_left hname,
    (hguards.set ⟨0⟩ "1" (.bool true) hname).1⟩

end Store

end AttributeStore
