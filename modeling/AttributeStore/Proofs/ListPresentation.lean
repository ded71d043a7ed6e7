import AttributeStore.Proofs.JsonOutput

/-!
# What list views present

A list view of an array presents it as a list, and so the arrays in it, as long as these are reached
through arrays alone.  Below anything else nothing is touched.  Neither the text of a value nor its
JSON text tells arrays from lists, so the presentation shows in neither of them.

## Main definitions

* `Value.at?`: the value at an address.
* `Value.ReachedByArrays`: what is found on a way that leads through arrays alone.
* `Value.IsListed`: a value with the arrays that are reached in this way turned into lists.
* `ListView.Shows`: what a view over a value shows.

## Main results

* `Value.isListed_iff`: there is one such value, which is the one that views present.
* `Value.arraysToLists_arraysToLists`: presenting again changes nothing.
* `Value.chars_arraysToLists`, `Value.toJson_arraysToLists`: the renderings stay the same.
* `Contents.getAsList_shows`: what is got from a map as a list.
-/

namespace AttributeStore

namespace Value

/-! ### Addresses -/

/-- The value at an address, which gives the positions of the children to go down to. -/
def at? : Value → List Nat → Option Value
  | v, [] => some v
  | v, i :: rest => v.children[i]?.bind fun child => child.at? rest

/-- Whether a value is an array. -/
def IsArray (v : Value) : Prop := ∃ items, v = array items

/-- `v.ReachedByArrays path w` says that `w` stands in `v` at an address and that everything on the
way to it, `v` included, is an array. -/
inductive ReachedByArrays : Value → List Nat → Value → Prop
  | here (v : Value) : ReachedByArrays v [] v
  | item {items : List Value} {i : Nat} {item w : Value} {path : List Nat}
      (hitem : items[i]? = some item) (h : ReachedByArrays item path w) :
      ReachedByArrays (array items) (i :: path) w

/-- `v.IsListed shown` says that `shown` is `v` with the arrays that are reached through arrays
alone turned into lists.  In the place of such an array stands a list of as many items, none of
which is an array, and everything else that is reached stands where it was. -/
structure IsListed (v shown : Value) : Prop where
  array : ∀ {path : List Nat} {items : List Value}, v.ReachedByArrays path (array items) →
    ∃ items', shown.at? path = some (list items') ∧ items'.length = items.length ∧
      ∀ item ∈ items', ¬ item.IsArray
  other : ∀ {path : List Nat} {w : Value}, v.ReachedByArrays path w → ¬ w.IsArray →
    shown.at? path = some w

variable {v w shown : Value} {items : List Value} {path : List Nat}

/-! ### Arrays as lists -/

theorem arraysToListsItems_eq (items : List Value) :
    arraysToListsItems items = items.map arraysToLists := by
  induction items with
  | nil => rfl
  | cons item rest ih => rw [arraysToListsItems, ih, List.map_cons]

theorem arraysToLists_array (items : List Value) :
    (array items).arraysToLists = list (items.map arraysToLists) := by
  rw [arraysToLists, arraysToListsItems_eq]

theorem arraysToLists_of_not_isArray (h : ¬ v.IsArray) : v.arraysToLists = v := by
  cases v with
  | array items => exact absurd ⟨items, rfl⟩ h
  | _ => rfl

theorem not_isArray_arraysToLists (v : Value) : ¬ v.arraysToLists.IsArray := by
  rintro ⟨items, h⟩
  by_cases harray : v.IsArray
  · obtain ⟨items', rfl⟩ := harray
    rw [arraysToLists_array] at h
    cases h
  · rw [arraysToLists_of_not_isArray harray] at h
    exact harray ⟨items, h⟩

/-- What is no array any more stays as it is. -/
theorem arraysToLists_arraysToLists (v : Value) :
    v.arraysToLists.arraysToLists = v.arraysToLists :=
  arraysToLists_of_not_isArray v.not_isArray_arraysToLists

/-- Down a way through arrays, the conversion goes on as it began. -/
theorem ReachedByArrays.at?_arraysToLists (h : v.ReachedByArrays path w) :
    v.arraysToLists.at? path = some w.arraysToLists := by
  induction h with
  | here v => rfl
  | item hitem _ ih =>
    rw [arraysToLists_array, at?, children, List.getElem?_map, hitem]
    exact ih

theorem isListed_arraysToLists (v : Value) : v.IsListed v.arraysToLists where
  array {path items} h := by
    refine ⟨items.map arraysToLists, ?_, List.length_map _, ?_⟩
    · rw [h.at?_arraysToLists, arraysToLists_array]
    · exact List.forall_mem_map.2 fun item _ => item.not_isArray_arraysToLists
  other {path w} h hw := by rw [h.at?_arraysToLists, arraysToLists_of_not_isArray hw]

/-- The arrays that are reached through arrays alone can be turned into lists in one way only. -/
theorem isListed_iff : v.IsListed shown ↔ shown = v.arraysToLists := by
  refine ⟨fun h => ?_, fun h => h ▸ v.isListed_arraysToLists⟩
  induction v using induction_on_children generalizing shown with
  | step v ih =>
    by_cases harray : v.IsArray
    · obtain ⟨items, rfl⟩ := harray
      obtain ⟨items', hshown, hlength, -⟩ := h.array (.here (array items))
      obtain rfl : shown = list items' := Option.some.inj hshown
      rw [arraysToLists_array]
      congr 1
      refine List.ext_getElem (by simpa using hlength) fun i hi hi' => ?_
      have hitem : items[i]? = some items[i] := List.getElem?_eq_getElem (by omega)
      have hat (path : List Nat) : (list items').at? (i :: path) = items'[i].at? path := by
        rw [at?, children, List.getElem?_eq_getElem hi, Option.bind_some]
      rw [List.getElem_map]
      refine ih items[i] (List.getElem_mem _) ⟨fun {path inner} hreached => ?_, ?_⟩
      · rw [← hat]
        exact h.array (.item hitem hreached)
      · intro path w hreached hw
        rw [← hat]
        exact h.other (.item hitem hreached) hw
    · rw [arraysToLists_of_not_isArray harray]
      exact Option.some.inj (h.other (.here v) harray)

/-! ### Renderings -/

theorem charsOfItems_eq (items : List Value) : charsOfItems items = items.map chars := by
  induction items with
  | nil => rfl
  | cons item rest ih => rw [charsOfItems, ih, List.map_cons]

/-- What does not tell an array from a list with the same items does not tell a value from its
presentation. -/
private theorem arraysToLists_invariant {α : Type} (render : Value → α) (join : List α → α)
    (hlist : ∀ items, render (list items) = join (items.map render))
    (harray : ∀ items, render (array items) = join (items.map render)) (v : Value) :
    render v.arraysToLists = render v := by
  induction v using induction_on_children with
  | step v ih =>
    by_cases h : v.IsArray
    · obtain ⟨items, rfl⟩ := h
      rw [arraysToLists_array, hlist, harray, List.map_map]
      exact congrArg join (List.map_congr_left ih)
    · rw [arraysToLists_of_not_isArray h]

theorem chars_arraysToLists (v : Value) : v.arraysToLists.chars = v.chars :=
  arraysToLists_invariant chars Text.bracketed (fun items => by rw [chars, charsOfItems_eq])
    (fun items => by rw [chars, charsOfItems_eq]) v

theorem toJson_arraysToLists (v : Value) : v.arraysToLists.toJson = v.toJson :=
  arraysToLists_invariant toJson Json.array (fun items => by rw [toJson, toJsonItems_eq])
    (fun items => by rw [toJson, toJsonItems_eq]) v

end Value

namespace ListView

/-- What a view over a list or an array shows, by length, by index, in comparisons and as a whole.
It reads from the value itself and shows as many items as this has.  The items of a list are shown
as they are.  An array is shown as a list, and so are the arrays that are reached through it, so
that a view of an array of what is shown has nothing left to turn.  A list of what is shown has the
text and the JSON text of the value, and a view of it shows the same again. -/
structure Shows (view : ListView) (v : Value) : Prop where
  source : view.source = v
  length : view.length = v.children.length ∧ view.toList.length = v.children.length
  get? : ∀ i, view.get? i = view.toList[i]?
  get?_beyond : ∀ i, v.children.length ≤ i → view.get? i = none
  eq : ∀ values, view.eq values = (Value.list view.toList).eq (.list values)
  list : ∀ items, v = .list items → view.toList = items
  array : v.IsArray → v.IsListed (.list view.toList) ∧ (∀ item ∈ view.toList, ¬ item.IsArray) ∧
    ∃ next, ofValue? (.array view.toList) = some next ∧ next.toList = view.toList
  text : (Value.list view.toList).text = v.text
  json : (Value.list view.toList).json = v.json
  again : ∃ next, ofValue? (.list view.toList) = some next ∧ next.toList = view.toList

variable (view : ListView)

theorem length_toList : view.toList.length = view.length := List.length_map _

theorem get?_eq_getElem? (i : Nat) : view.get? i = view.toList[i]? := (List.getElem?_map ..).symm

theorem children_source : view.source.children = view.stored := by
  rw [source]
  split <;> rfl

/-- A view is the view of a value if it reads from this value. -/
theorem ofValue?_eq_some_iff {v : Value} : ofValue? v = some view ↔ view.source = v := by
  obtain ⟨stored, converted⟩ := view
  cases v <;> cases converted <;> simp [ofValue?, source, eq_comm]

theorem toList_of_list (items : List Value) : (ListView.mk items false).toList = items :=
  List.map_id' items

/-- A list of what is shown is the source with its arrays turned into lists. -/
theorem list_toList : Value.list view.toList = view.source.arraysToLists := by
  obtain ⟨stored, converted⟩ := view
  cases converted with
  | false => rw [toList_of_list]; rfl
  | true => exact (Value.arraysToLists_array stored).symm

/-- A comparison of lists is one by their lengths and item by item. -/
theorem eqItems_eq_all_zip (as bs : List Value) : Value.eqItems as bs =
    (as.length = bs.length && (as.zip bs).all fun pair => pair.1.eq pair.2) := by
  induction as generalizing bs with
  | nil => cases bs <;> rfl
  | cons a as ih =>
    cases bs with
    | nil => rfl
    | cons b bs =>
      rw [Value.eqItems, ih, List.zip_cons_cons, List.all_cons, List.length_cons, List.length_cons]
      simp [Bool.and_left_comm]

theorem eq_eq_eq_list (values : List Value) :
    view.eq values = (Value.list view.toList).eq (.list values) := by
  rw [Value.eq, eqItems_eq_all_zip, length_toList]
  rfl

/-- Nothing that is shown of an array is an array. -/
theorem not_isArray_of_mem_toList {items : List Value} {item : Value}
    (h : item ∈ (ListView.mk items true).toList) : ¬ item.IsArray := by
  obtain ⟨stored, -, rfl⟩ := List.mem_map.1 h
  exact stored.not_isArray_arraysToLists

/-- Where nothing is an array, nothing is turned. -/
theorem toList_of_not_isArray {items : List Value} (h : ∀ item ∈ items, ¬ item.IsArray) :
    (ListView.mk items true).toList = items :=
  (List.map_congr_left fun item hitem => Value.arraysToLists_of_not_isArray (h item hitem)).trans
    (List.map_id' items)

theorem shows_source : view.Shows view.source where
  source := rfl
  length := by
    rw [length_toList, children_source]
    exact ⟨rfl, rfl⟩
  get? := view.get?_eq_getElem?
  get?_beyond i hi := by
    rw [get?_eq_getElem?, List.getElem?_eq_none_iff, length_toList]
    rwa [children_source] at hi
  eq := view.eq_eq_eq_list
  list items h := by
    have hview : some view = some (ListView.mk items false) := (view.ofValue?_eq_some_iff.2 h).symm
    obtain rfl := Option.some.inj hview
    exact toList_of_list items
  array := by
    rintro ⟨items, h⟩
    have hview : some view = some (ListView.mk items true) := (view.ofValue?_eq_some_iff.2 h).symm
    obtain rfl := Option.some.inj hview
    have hnone (item : Value) (hitem : item ∈ (ListView.mk items true).toList) : ¬ item.IsArray :=
      not_isArray_of_mem_toList hitem
    exact ⟨Value.isListed_iff.2 (list_toList _), hnone, _, rfl, toList_of_not_isArray hnone⟩
  text := by rw [list_toList, Value.text, Value.chars_arraysToLists, Value.text]
  json := by rw [list_toList, Value.json, Value.toJson_arraysToLists, Value.json]
  again := ⟨_, rfl, toList_of_list _⟩

end ListView

namespace Contents

variable {c : Contents} {key : String} {v : Value}

theorem getAsList_of_get (h : c.get key = .ok v) (hnull : v.isNull = false) :
    c.getAsList key = (ListView.ofValue? v).elim (.error (.ofValue key v "List")) (.ok ∘ some) := by
  rw [getAsList, h]
  cases hview : ListView.ofValue? v <;>
    simp [Bind.bind, Except.bind, hnull, hview, pure, Except.pure]

/-- A stored list or array is got as a view that shows it, and a stored null as nothing.  Any other
value is refused with its text. -/
theorem getAsList_shows (h : c.get key = .ok v) :
    ((∃ items, v = .list items ∨ v = .array items) →
        ∃ view, c.getAsList key = .ok (some view) ∧ view.Shows v) ∧
      (v = .null → c.getAsList key = .ok none) ∧
      ((∀ items, v ≠ .list items ∧ v ≠ .array items) → v ≠ .null →
        c.getAsList key = .error (.cannotCoerce key v.text "List")) := by
  refine ⟨?_, ?_, fun hother hnull => ?_⟩
  · rintro ⟨items, hitems⟩
    obtain ⟨view, rfl⟩ : ∃ view : ListView, view.source = v := by
      rcases hitems with rfl | rfl
      · exact ⟨⟨items, false⟩, rfl⟩
      · exact ⟨⟨items, true⟩, rfl⟩
    refine ⟨view, ?_, view.shows_source⟩
    have hnull : view.source.isNull = false := by rcases hitems with h | h <;> rw [h] <;> rfl
    rw [getAsList_of_get h hnull, view.ofValue?_eq_some_iff.2 rfl]
    rfl
  · rintro rfl
    rw [getAsList, h]
    rfl
  · have hnull : v.isNull = false := by cases v <;> first | rfl | exact absurd rfl hnull
    have hnone : ListView.ofValue? v = none := by
      cases v with
      | list items => exact absurd rfl (hother items).1
      | array items => exact absurd rfl (hother items).2
      | _ => rfl
    rw [getAsList_of_get h hnull, hnone]
    rfl

/-- An array in an array is shown as a list, and the array in a list in it stays an array. -/
theorem getAsList_shows_of_nested_arrays :
    Contents.get (Dict.empty.insert "a"
        (.fresh (.array [.array [.list [.array []]], .null]) .basic)) "a" =
      .ok (.array [.array [.list [.array []]], .null]) ∧
    ∃ view, Contents.getAsList (Dict.empty.insert "a"
        (.fresh (.array [.array [.list [.array []]], .null]) .basic)) "a" = .ok (some view) ∧
      view.source = .array [.array [.list [.array []]], .null] ∧
      view.toList = [.list [.list [.array []]], .null] := by
  have h : Contents.get (Dict.empty.insert "a"
      (.fresh (.array [.array [.list [.array []]], .null]) .basic)) "a" =
        .ok (.array [.array [.list [.array []]], .null]) := rfl
  obtain ⟨view, hview, hshows⟩ := (getAsList_shows h).1 ⟨_, .inr rfl⟩
  have hlisted := Value.isListed_iff.1 (hshows.array ⟨_, rfl⟩).1
  exact ⟨h, view, hview, hshows.source, Value.list.inj hlisted⟩

end Contents

end AttributeStore
