import AttributeStore.Proofs.Equality
import Mathlib.Data.List.Induction

/-!
# Insertion into sets of values

A set of values compares a new value with the elements that it has kept, and not with those that it
has refused.  As equality is transitive, this makes no difference: what equals a refused value also
equals the element because of which it was refused.  Hence the elements are the values that equalled
no value inserted before them, and a set contains what equals any value ever inserted.

## Main definitions

* `ElementSet.insertAll`: insertion of values one by one, with the answers.
* `ElementSet.RecordsInsertions`: what a set and the answers tell about the values inserted.

## Main results

* `ElementSet.contains_ofList_iff`: what a set contains.
* `ElementSet.recordsInsertions`: what is known after any insertions.
-/

namespace AttributeStore

theorem Value.eq_comm {a b : Value} (ha : a.WellFormed) (hb : b.WellFormed) : a.eq b = b.eq a :=
  Bool.eq_iff_iff.2 ⟨eq_symm ha, eq_symm hb⟩

namespace ElementSet

variable {s : ElementSet} {values : List Value} {v w : Value}

/-! ### One insertion -/

theorem contains_iff : s.contains v = true ↔ ∃ item ∈ s.items, item.eq v = true :=
  List.any_eq_true

theorem add_of_contains (h : s.contains v = true) : s.add v = (false, s) := if_pos h

theorem add_of_not_contains (h : s.contains v = false) : s.add v = (true, ⟨s.items ++ [v]⟩) :=
  if_neg (by simp [h])

/-- A value is added if and only if the set does not contain it. -/
theorem add_eq (s : ElementSet) (v : Value) : s.add v = (!s.contains v, s.insert v) := by
  cases h : s.contains v with
  | true => rw [insert, add_of_contains h, Bool.not_true]
  | false => rw [insert, add_of_not_contains h, Bool.not_false]

theorem items_insert (s : ElementSet) (v : Value) :
    (s.insert v).items = s.items ++ if s.contains v then [] else [v] := by
  cases h : s.contains v with
  | true => rw [insert, add_of_contains h, if_pos rfl, List.append_nil]
  | false => rw [insert, add_of_not_contains h, if_neg Bool.false_ne_true]

/-- After an insertion a set contains what it contained before and what equals the value, whether
the value was added or not. -/
theorem contains_insert_iff :
    (s.insert v).contains w = true ↔ s.contains w = true ∨ v.eq w = true := by
  rw [contains_iff, items_insert]
  cases h : s.contains v with
  | true =>
    rw [if_pos rfl, List.append_nil, ← contains_iff]
    refine ⟨.inl, ?_⟩
    rintro (hw | hvw)
    · exact hw
    · -- The element that equals the value also equals what the value equals.
      obtain ⟨item, hitem, hv⟩ := contains_iff.1 h
      exact contains_iff.2 ⟨item, hitem, Value.eq_trans hv hvw⟩
  | false =>
    rw [if_neg Bool.false_ne_true, contains_iff]
    simp only [List.mem_append, List.mem_singleton, or_and_right, exists_or, exists_eq_left]

/-! ### Any insertions -/

theorem ofList_append_singleton (values : List Value) (v : Value) :
    ofList (values ++ [v]) = (ofList values).insert v :=
  List.foldl_append

/-- A set contains what equals a value that was inserted. -/
theorem contains_ofList_iff :
    (ofList values).contains w = true ↔ ∃ v ∈ values, v.eq w = true := by
  induction values using List.reverseRecOn with
  | nil => simp [contains_iff, ofList, empty]
  | append_singleton values v ih =>
    rw [ofList_append_singleton, contains_insert_iff, ih]
    simp only [List.mem_append, List.mem_singleton, or_and_right, exists_or, exists_eq_left]

/-- Inserts the values of a list one by one.  The answers tell which of them were added. -/
def insertAll (s : ElementSet) : List Value → List Bool × ElementSet
  | [] => ([], s)
  | v :: rest =>
    let (added, next) := s.add v
    let (answers, last) := next.insertAll rest
    (added :: answers, last)

theorem insertAll_append_singleton (s : ElementSet) (values : List Value) (v : Value) :
    s.insertAll (values ++ [v]) =
      ((s.insertAll values).1 ++ [!(s.insertAll values).2.contains v],
        (s.insertAll values).2.insert v) := by
  induction values generalizing s with
  | nil => simp [insertAll, add_eq]
  | cons u rest ih => simp [insertAll, add_eq, ih]

theorem snd_insertAll (values : List Value) : (empty.insertAll values).2 = ofList values := by
  induction values using List.reverseRecOn with
  | nil => rfl
  | append_singleton values v ih =>
    rw [insertAll_append_singleton, ih, ofList_append_singleton]

theorem length_answers (values : List Value) :
    (empty.insertAll values).1.length = values.length := by
  induction values using List.reverseRecOn with
  | nil => rfl
  | append_singleton values v ih => simp [insertAll_append_singleton, ih]

/-- The answer to a value compares it with all values inserted before. -/
theorem answer_eq {i : Nat} (hv : values[i]? = some v) :
    (empty.insertAll values).1[i]? = some (!(ofList (values.take i)).contains v) := by
  induction values using List.reverseRecOn with
  | nil => simp at hv
  | append_singleton values u ih =>
    rw [insertAll_append_singleton, snd_insertAll]
    rcases Nat.lt_trichotomy i values.length with hlt | rfl | hgt
    · rw [List.getElem?_append_left hlt] at hv
      rw [List.getElem?_append_left (by rwa [length_answers]), ih hv,
        List.take_append_of_le_length (Nat.le_of_lt hlt)]
    · obtain rfl : u = v := by simpa using hv
      rw [List.getElem?_append_right (Nat.le_of_eq (length_answers values)), length_answers,
        List.take_left' rfl]
      simp
    · rw [List.getElem?_eq_none (by simp; omega)] at hv
      cases hv

/-- The values to which the answer is that they were added. -/
def added (values : List Value) (answers : List Bool) : List Value :=
  ((values.zip answers).filter Prod.snd).map Prod.fst

theorem added_append_singleton {answers : List Bool} (h : answers.length = values.length)
    (v : Value) (answer : Bool) : added (values ++ [v]) (answers ++ [answer]) =
      added values answers ++ if answer then [v] else [] := by
  rw [added, List.zip_append h.symm, List.filter_append, List.map_append, ← added]
  cases answer <;> simp

theorem length_added {answers : List Bool} (h : answers.length = values.length) :
    (added values answers).length = answers.count true := by
  have hanswers : (values.zip answers).map Prod.snd = answers := List.map_snd_zip (Nat.le_of_eq h)
  rw [added, List.length_map, ← List.countP_eq_length_filter, List.count, ← hanswers,
    List.countP_map, hanswers]
  congr 1
  funext pair
  simp

/-- The elements of a set are the values that were added, in the order of their insertion. -/
theorem items_ofList (values : List Value) :
    (ofList values).items = added values (empty.insertAll values).1 := by
  induction values using List.reverseRecOn with
  | nil => rfl
  | append_singleton values v ih =>
    rw [ofList_append_singleton, items_insert, insertAll_append_singleton, snd_insertAll,
      added_append_singleton (length_answers values), ih]
    cases (ofList values).contains v <;> rfl

theorem mem_of_mem_items_ofList (h : v ∈ (ofList values).items) : v ∈ values := by
  rw [items_ofList, added, List.mem_map] at h
  obtain ⟨⟨u, answer⟩, hpair, rfl⟩ := h
  exact (List.of_mem_zip (List.mem_of_mem_filter hpair)).1

/-! ### Elements -/

theorem wellFormed_of_mem_items (hs : s.toValue.WellFormed) (hv : v ∈ s.items) : v.WellFormed :=
  hs.of_mem_children hv

/-- No two elements are equal, in either direction. -/
theorem pairwise_items (hs : s.toValue.WellFormed) :
    s.items.Pairwise fun a b => a.eq b = false ∧ b.eq a = false := by
  refine hs.1.imp_of_mem fun ha hb h => ⟨h, ?_⟩
  rwa [Value.eq_comm (wellFormed_of_mem_items hs hb) (wellFormed_of_mem_items hs ha)]

/-- A value with a `nan` within it is contained in no set. -/
theorem contains_of_hasNan (hs : s.toValue.WellFormed) (hv : v.WellFormed) (hnan : v.HasNan) :
    s.contains v = false := by
  rw [← Bool.not_eq_true, contains_iff]
  rintro ⟨item, hitem, heq⟩
  have hself : v.eq v = true :=
    Value.eq_trans (Value.eq_symm (wellFormed_of_mem_items hs hitem) heq) heq
  exact (Value.eq_self_iff hv).1 hself hnan

/-! ### The history of a set -/

/-- What the answers to inserting some values one by one, and the set that results, tell about these
values. -/
structure RecordsInsertions (values : List Value) (answers : List Bool) (s : ElementSet) :
    Prop where
  /-- There is one answer to each value. -/
  length_eq : answers.length = values.length
  /-- The answer is that a value was added, if and only if it equals no value inserted before. -/
  answer_iff : ∀ i v, values[i]? = some v →
    (answers[i]? = some true ↔ ∀ w ∈ values.take i, w.eq v = false)
  /-- The elements are the values that were added, in the order of their insertion. -/
  items_eq : s.items = added values answers
  /-- There are as many elements as values that were added. -/
  size_eq : s.size = answers.count true
  /-- No element is equal to another one. -/
  distinct : s.items.Pairwise fun a b => a.eq b = false ∧ b.eq a = false
  /-- The set contains what equals a value that was inserted, whether this was added or not. -/
  contains_iff : ∀ v, s.contains v = true ↔ ∃ w ∈ values, w.eq v = true
  /-- A value with a `nan` within it is not contained, and it is added if it is inserted. -/
  hasNan : ∀ v, Value.WellFormed v → v.HasNan →
    s.contains v = false ∧ s.add v = (true, ⟨s.items ++ [v]⟩)

/-- What is known after any values have been inserted into the set without elements. -/
theorem recordsInsertions (h : ∀ v ∈ values, v.WellFormed) :
    RecordsInsertions values (empty.insertAll values).1 (empty.insertAll values).2 := by
  have hset : (empty.insertAll values).2 = ofList values := snd_insertAll values
  have hwellFormed := wellFormed_ofList h
  refine ⟨length_answers values, fun i v hv => ?_, hset ▸ items_ofList values, ?_, ?_, fun v => ?_,
    fun v hv hnan => ?_⟩
  · rw [answer_eq hv, Option.some.injEq, Bool.not_eq_true', ← Bool.not_eq_true,
      contains_ofList_iff]
    simp
  · rw [hset, size, items_ofList, length_added (length_answers values)]
  · rw [hset]
    exact pairwise_items hwellFormed
  · rw [hset, contains_ofList_iff]
  · rw [hset]
    have hnot := contains_of_hasNan hwellFormed hv hnan
    exact ⟨hnot, add_of_not_contains hnot⟩

/-- Of two equal sets the second one is refused, and what is no number is added twice. -/
theorem recordsInsertions_of_equal_sets :
    (∀ v ∈ [.set [.null, .bool true], .set [.bool true, .null], .double .nan, .double .nan],
      Value.WellFormed v) ∧
    RecordsInsertions
      [.set [.null, .bool true], .set [.bool true, .null], .double .nan, .double .nan]
      [true, false, true, true] ⟨[.set [.null, .bool true], .double .nan, .double .nan]⟩ := by
  have hwellFormed : ∀ v ∈ [.set [.null, .bool true], .set [.bool true, .null], .double .nan,
      .double .nan], Value.WellFormed v := by
    simp only [List.forall_mem_cons]
    exact ⟨⟨by decide, trivial, trivial, trivial⟩, ⟨by decide, trivial, trivial, trivial⟩, trivial,
      trivial, by simp⟩
  exact ⟨hwellFormed, recordsInsertions hwellFormed⟩

end ElementSet

end AttributeStore
