import AttributeStore.Proofs.Provenance
import AttributeStore.Proofs.TextRoundTrip
import AttributeStore.Proofs.WriteOrder
import AttributeStore.Store.View

/-!
# Ways of reading a map

A map can be asked for one key, for a holder, for a value, for a value of one kind, or for all of
its keys, holders or values, and a live view can be asked for the same.  All of these answers come
from one table, in which every key stands at most once, so they agree at every moment.  What is
under a key is what the last write there has left.

## Main definitions

* `Contents.ReadsAs`: how the value under a key is read as a primitive.
* `Store.presenceTests`: the ways of asking whether there is a key.
* `Store.ShowsOneTable`: the ways of reading a map, and of a live view of it, agree.

## Main results

* `Contents.readsAs`: when a value is read, and the errors otherwise.
* `Store.tfae_presenceTests`: the ways of asking for a key agree.
* `Store.get_run_eq_ok_iff`: what is under a key after a run.
* `Store.showsOneTable_run`: the ways of reading a map agree after every run.
-/

namespace AttributeStore

namespace Contents

variable (c : Contents) (key : String)

theorem get_eq_ok_iff (v : Value) :
    c.get key = .ok v ↔ ∃ h, c.get? key = some h ∧ v = h.value := by
  rw [get]
  cases c.get? key with
  | none => simp
  | some h => simp [eq_comm]

/-- How the value under a key is read as a primitive: an absent key and a null are undefined, and
any other value is read or gives the error that names it.  A fallback stands in for an absent key
and for nothing else. -/
structure ReadsAs (p : Primitive) : Prop where
  ok_iff : ∀ a, c.getAs p key = .ok a ↔
    ∃ h, c.get? key = some h ∧ h.value ≠ .null ∧ h.value.coerce? p = some a
  undefined_iff : c.getAs p key = .error (.undefined key) ↔
    c.get? key = none ∨ ∃ h, c.get? key = some h ∧ h.value = .null
  error_iff : ∀ e, c.getAs p key = .error e ∧ e ≠ .undefined key ↔
    ∃ h, c.get? key = some h ∧ h.value ≠ .null ∧ h.value.coerce? p = none ∧
      e = .cannotCoerce key h.value.text p.name
  or_of_present : ∀ fallback, c.contains key → c.getAsOr p key fallback = c.getAs p key
  or_of_absent : ∀ fallback, ¬ c.contains key → c.getAsOr p key fallback = .ok fallback

/-- A key is absent, or a null is under it, or another value, which is read or not. -/
theorem getAs_cases (p : Primitive) :
    (c.get? key = none ∧ c.getAs p key = .error (.undefined key)) ∨
    (∃ h, c.get? key = some h ∧ h.value = .null ∧ c.getAs p key = .error (.undefined key)) ∨
    ∃ h, c.get? key = some h ∧ h.value ≠ .null ∧
      c.getAs p key = (h.value.coerce? p).elim (.error (.ofValue key h.value p.name)) .ok := by
  cases hget : c.get? key with
  | none =>
    refine .inl ⟨rfl, ?_⟩
    rw [getAs, get, hget]
    rfl
  | some h =>
    have hvalue : c.get key = .ok h.value := by rw [get, hget]
    by_cases hnull : h.value = .null
    · refine .inr (.inl ⟨h, rfl, hnull, ?_⟩)
      rw [getAs, hvalue, hnull]
      rfl
    · have hisNull : h.value.isNull = false := by
        cases hkind : h.value with
        | null => exact absurd hkind hnull
        | _ => rfl
      exact .inr (.inr ⟨h, rfl, hnull, getAs_of_get hvalue hisNull p⟩)

theorem readsAs (p : Primitive) : c.ReadsAs key p where
  ok_iff a := by
    rcases c.getAs_cases key p with
      ⟨hget, hread⟩ | ⟨h, hget, hnull, hread⟩ | ⟨h, hget, hnull, hread⟩
    · simp [hget, hread]
    · simp [hget, hread, hnull]
    · cases hcoerce : h.value.coerce? p <;> simp [hget, hread, hnull, hcoerce]
  undefined_iff := by
    rcases c.getAs_cases key p with
      ⟨hget, hread⟩ | ⟨h, hget, hnull, hread⟩ | ⟨h, hget, hnull, hread⟩
    · simp [hget, hread]
    · simp [hget, hread, hnull]
    · cases hcoerce : h.value.coerce? p <;>
        simp [hget, hread, hnull, hcoerce, AttributeError.ofValue]
  error_iff e := by
    rcases c.getAs_cases key p with
      ⟨hget, hread⟩ | ⟨h, hget, hnull, hread⟩ | ⟨h, hget, hnull, hread⟩
    · simp [hget, hread, eq_comm]
    · simp [hget, hread, hnull, eq_comm]
    · cases hcoerce : h.value.coerce? p with
      | none =>
        simp only [hget, hread, hcoerce, Option.elim_none, AttributeError.ofValue]
        constructor
        · rintro ⟨heq, -⟩
          exact ⟨h, rfl, hnull, hcoerce, (Except.error.inj heq).symm⟩
        · rintro ⟨h', hget', -, -, rfl⟩
          obtain rfl := Option.some.inj hget'
          exact ⟨rfl, by simp⟩
      | some a => simp [hget, hread, hcoerce]
  or_of_present fallback h := if_pos h
  or_of_absent fallback h := if_neg h

end Contents

namespace Store

variable (store : Store) (m : MapId)

/-! ### The ways of asking for a key -/

/-- The ways of asking a map, or a live view of it, whether there is a key. -/
def presenceTests (view : LiveView) (key : String) : List Prop :=
  [(store.contents m).contains key = true, ∃ id, store.holder? m key = some id,
    ∃ v, (store.contents m).get key = .ok v, key ∈ (store.contents m).keys,
    key ∈ (store.table m).keys, view.contains store key = true,
    ∃ v, view.get? store key = some v, key ∈ (view.values store).keys,
    ∃ v, (key, v) ∈ view.items store]

theorem tfae_presenceTests (key : String) : (store.presenceTests m m.view key).TFAE := by
  refine List.tfae_of_forall (∃ id, store.holder? m key = some id) _ ?_
  simp only [presenceTests, List.forall_mem_cons, List.not_mem_nil, false_imp_iff, implies_true,
    and_true, true_and]
  refine ⟨?_, ?_, ?_, ?_, ?_, ?_, ?_, ?_⟩
  · simp [Dict.contains, get?_contents, Option.isSome_iff_exists]
  · simp [Contents.get_eq_ok_iff, get?_contents]
  · simp [Dict.mem_keys_iff, get?_contents]
  · exact Dict.mem_keys_iff _ key
  · simp [LiveView.contains, MapId.view, Dict.contains, get?_contents, Option.isSome_iff_exists]
  · simp [LiveView.get?, MapId.view]
  · simp [LiveView.values, MapId.view, Contents.values, Dict.mem_keys_iff, Dict.get?_map,
      get?_contents]
  · simp [LiveView.items, LiveView.values, MapId.view, Contents.values, ← Dict.get?_eq_some_iff,
      Dict.get?_map, get?_contents]

/-- The answers to all questions that a map and a live view of it can be asked come from one table:
the ways of asking for a key agree, and so do the lists of keys and the counts, every value is that
of the holder under its key, and primitives are read from these values. -/
structure ShowsOneTable (store : Store) (m : MapId) (view : LiveView) : Prop where
  present : ∀ key, (store.presenceTests m view key).TFAE
  nodup_keys : (store.contents m).keys.Nodup
  length_keys : (store.contents m).keys.length = (store.contents m).size
  isEmpty_iff : (store.contents m).isEmpty = true ↔ (store.contents m).size = 0
  size_view : view.size store = (store.contents m).size
  isEmpty_view : view.isEmpty store = (store.contents m).isEmpty
  size_values : (view.values store).size = (store.contents m).size
  length_items : (view.items store).length = (store.contents m).size
  size_table : (store.table m).size = (store.contents m).size
  holder : ∀ key id, store.holder? m key = some id → (store.table m).get? key = some id ∧
    (store.contents m).get key = .ok (store.holder id).value ∧
    view.get? store key = some (store.holder id).value ∧
    (view.values store).get? key = some (store.holder id).value ∧
    ∀ v, (key, v) ∈ view.items store ↔ v = (store.holder id).value
  readsAs : ∀ p key, (store.contents m).ReadsAs key p

theorem showsOneTable : store.ShowsOneTable m m.view where
  present := store.tfae_presenceTests m
  nodup_keys := (store.contents m).nodup_keys
  length_keys := by simp [Dict.keys, Dict.size]
  isEmpty_iff := by simp [Dict.isEmpty, Dict.size]
  size_view := rfl
  isEmpty_view := rfl
  size_values := by simp [LiveView.values, MapId.view, Contents.values, Dict.size, Dict.map]
  length_items := by
    simp [LiveView.items, LiveView.values, MapId.view, Contents.values, Dict.size, Dict.map]
  size_table := by simp [contents, Dict.size, Dict.map]
  holder key id hslot := by
    have hget : (store.contents m).get? key = some (store.holder id) := by
      rw [get?_contents, hslot, Option.map_some]
    have hvalue : (m.view.values store).get? key = some (store.holder id).value := by
      rw [LiveView.values, Contents.values, Dict.get?_map, MapId.view, hget, Option.map_some]
    refine ⟨hslot, by rw [Contents.get, hget], ?_, hvalue, fun v => ?_⟩
    · rw [LiveView.get?, MapId.view, hslot, Option.map_some]
    · rw [LiveView.items, ← Dict.get?_eq_some_iff, hvalue, Option.some.injEq, eq_comm]
  readsAs p key := (store.contents m).readsAs key p

/-- After a run there is a value under a key if and only if the last write that took effect there
has filled the slot, and this write has put the value there. -/
theorem get_run_eq_ok_iff (operations : List Operation) (m : MapId) (key : String) (v : Value) :
    ((empty.run operations).contents m).get key = .ok v ↔
      ∃ before write after new, empty.unbundled operations = before ++ write :: after ∧
        IsLast (TakesEffect m key) empty before write after ∧
        (empty.run before).Fills m key write new ∧ v = new.value := by
  have hsingle (step : Operation) (h : step ∈ empty.unbundled operations) : step.IsSingle :=
    empty.isSingle_of_mem_unbundled h
  rw [Contents.get_eq_ok_iff, ← run_unbundled]
  generalize empty.unbundled operations = steps at hsingle
  constructor
  · rintro ⟨_, hget, rfl⟩
    obtain ⟨id, hslot, rfl⟩ := Option.map_eq_some_iff.1 ((get?_contents ..).symm.trans hget)
    obtain ⟨before, write, after, rfl, hlast⟩ :=
      exists_isLast_takesEffect (holder?_empty m key) hsingle hslot
    have hafter (step : Operation) (h : step ∈ after) : step.IsSingle := hsingle step (by simp [h])
    obtain ⟨new, hfills⟩ := hlast.exists_fills hafter hslot
    obtain ⟨hnew, hvalue, -⟩ := hlast.holder_of_fills hafter hfills
    obtain rfl := Option.some.inj (hnew.symm.trans hslot)
    exact ⟨before, write, after, new, rfl, hlast, hfills, hvalue⟩
  · rintro ⟨before, write, after, new, rfl, hlast, hfills, rfl⟩
    have hafter (step : Operation) (h : step ∈ after) : step.IsSingle := hsingle step (by simp [h])
    obtain ⟨hnew, hvalue, -⟩ := hlast.holder_of_fills hafter hfills
    exact ⟨_, by rw [get?_contents, hnew, Option.map_some], hvalue.symm⟩

/-- After every run, all ways of reading a map and a live view of it, whenever it was taken, agree:
on the keys there are, none of which is listed twice, on their number, and on the value under each
key, which is that of the holder there and was put there by the last write that took effect.
Reading a value as a primitive fails as undefined if the key is absent or has a null, and otherwise
only with the error that names the value, if it cannot be read, while a fallback takes the place of
an absent key and of nothing else. -/
theorem showsOneTable_run (operations : List Operation) (m : MapId) :
    (empty.run operations).ShowsOneTable m m.view ∧
      ∀ key v, ((empty.run operations).contents m).get key = .ok v ↔
        ∃ before write after new, empty.unbundled operations = before ++ write :: after ∧
          IsLast (TakesEffect m key) empty before write after ∧
          (empty.run before).Fills m key write new ∧ v = new.value :=
  ⟨(empty.run operations).showsOneTable m, get_run_eq_ok_iff operations m⟩

end Store

end AttributeStore
