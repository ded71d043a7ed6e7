import AttributeStore.Proofs.Insertion

/-!
# Equality of sets of values

Two sets are equal if they have equally many elements and the second one contains the elements of
the first one.  This is the same as containing the same values, as long as all elements are equal to
themselves: as no two elements of a set are equal, neither set can have more elements than the other
one.  What is contained depends neither on the order of the insertions nor on repetitions, and so
equality does not depend on them either, although other elements may have been kept.

## Main results

* `ElementSet.eq_iff`, `ElementSet.eq_eq_all_contains`: equality as sizes and the elements of one
  set.
* `ElementSet.eq_iff_contains_eq`: equality as containing the same values.
* `ElementSet.eq_ofList_extensional`: the same for sets of inserted values.
-/

namespace AttributeStore.ElementSet

variable {s t : ElementSet} {values values' : List Value} {v : Value}

/-- Sets are equal if they have equally many elements and the second one contains the elements of
the first one. -/
theorem eq_iff (hs : s.toValue.WellFormed) (ht : t.toValue.WellFormed) :
    s.eq t = true ↔ s.size = t.size ∧ ∀ item ∈ s.items, t.contains item = true := by
  simp only [eq, toValue, Value.eq, Bool.and_eq_true, decide_eq_true_eq, Value.allIn_iff, size,
    contains_iff]
  refine and_congr_right fun _ => forall₂_congr fun a ha => exists_congr fun b => ?_
  refine and_congr_right fun hb => ?_
  rw [Value.eq_comm (wellFormed_of_mem_items hs ha) (wellFormed_of_mem_items ht hb)]

/-- Equality of sets as a test of the sizes and one of each element, in which the elements of the
second set stand on the left. -/
theorem eq_eq_all_contains (hs : s.toValue.WellFormed) (ht : t.toValue.WellFormed) :
    s.eq t = (s.size == t.size && s.items.all t.contains) := by
  rw [Bool.eq_iff_iff, eq_iff hs ht]
  simp

theorem eq_symm (hs : s.toValue.WellFormed) (h : s.eq t = true) : t.eq s = true :=
  Value.eq_symm hs h

/-- The elements of a set that is equal to some set are equal to themselves. -/
theorem eq_self_of_mem (hs : s.toValue.WellFormed) (ht : t.toValue.WellFormed) (h : s.eq t = true)
    (hv : v ∈ s.items) : v.eq v = true := by
  obtain ⟨item, hitem, heq⟩ := contains_iff.1 (((eq_iff hs ht).1 h).2 v hv)
  exact Value.eq_trans (Value.eq_symm (wellFormed_of_mem_items ht hitem) heq) heq

/-- What is contained in a set is contained in every set that is equal to it. -/
theorem contains_of_eq (hs : s.toValue.WellFormed) (ht : t.toValue.WellFormed) (h : s.eq t = true)
    (hv : s.contains v = true) : t.contains v = true := by
  obtain ⟨item, hitem, hitemv⟩ := contains_iff.1 hv
  obtain ⟨other, hother, heq⟩ := contains_iff.1 (((eq_iff hs ht).1 h).2 item hitem)
  exact contains_iff.2 ⟨other, hother, Value.eq_trans heq hitemv⟩

/-- A set has at most as many elements as a set that contains all of them. -/
theorem size_le_of_contains (hs : s.toValue.WellFormed) (ht : t.toValue.WellFormed)
    (h : ∀ item ∈ s.items, t.contains item = true) : s.size ≤ t.size := by
  have hsome : ∀ a ∈ s.items, ∃ b ∈ t.items, b.eq a = true := fun a ha =>
    contains_iff.1 (h a ha)
  have hdistinct : s.items.Pairwise fun a a' =>
      ∀ b ∈ t.items, b.eq a = true → ¬ b.eq a' = true := by
    refine hs.1.imp fun hne b hb hab hab' => ?_
    have heq := Value.eq_trans (Value.eq_symm (wellFormed_of_mem_items ht hb) hab) hab'
    exact Bool.false_ne_true (hne.symm.trans heq)
  obtain ⟨taken, htaken, hrelated⟩ := exists_taken hsome hdistinct
  exact Nat.le_trans (Nat.le_of_eq hrelated.length_eq) htaken.length_le

/-- Sets are equal if and only if they contain the same values and no element is different from
itself. -/
theorem eq_iff_contains_eq (hs : s.toValue.WellFormed) (ht : t.toValue.WellFormed) :
    s.eq t = true ↔ (∀ item ∈ s.items ++ t.items, item.eq item = true) ∧
      ∀ v : Value, v.WellFormed → s.contains v = t.contains v := by
  constructor
  · intro h
    have h' := eq_symm hs h
    refine ⟨fun item hitem => ?_, fun v _ => ?_⟩
    · rcases List.mem_append.1 hitem with hitem | hitem
      · exact eq_self_of_mem hs ht h hitem
      · exact eq_self_of_mem ht hs h' hitem
    · exact Bool.eq_iff_iff.2 ⟨contains_of_eq hs ht h, contains_of_eq ht hs h'⟩
  · rintro ⟨hself, hcontains⟩
    have helements {item : Value} (hitem : item ∈ s.items) : t.contains item = true := by
      rw [← hcontains item (wellFormed_of_mem_items hs hitem)]
      exact contains_iff.2 ⟨item, hitem, hself item (List.mem_append_left _ hitem)⟩
    have helements' {item : Value} (hitem : item ∈ t.items) : s.contains item = true := by
      rw [hcontains item (wellFormed_of_mem_items ht hitem)]
      exact contains_iff.2 ⟨item, hitem, hself item (List.mem_append_right _ hitem)⟩
    have hsize : s.size = t.size :=
      Nat.le_antisymm (size_le_of_contains hs ht fun _ => helements)
        (size_le_of_contains ht hs fun _ => helements')
    exact (eq_iff hs ht).2 ⟨hsize, fun _ => helements⟩

/-- The sets of the same values without a `nan` are equal, in whichever order and however often
these are inserted. -/
theorem eq_ofList_of_mem_iff (h : ∀ v ∈ values, v.WellFormed) (hnan : ∀ v ∈ values, ¬ v.HasNan)
    (hsame : ∀ v, v ∈ values ↔ v ∈ values') : (ofList values).eq (ofList values') = true := by
  have h' : ∀ v ∈ values', v.WellFormed := fun v hv => h v ((hsame v).2 hv)
  refine (eq_iff_contains_eq (wellFormed_ofList h) (wellFormed_ofList h')).2
    ⟨fun item hitem => ?_, fun v _ => ?_⟩
  · have hmem : item ∈ values := by
      rcases List.mem_append.1 hitem with hitem | hitem
      · exact mem_of_mem_items_ofList hitem
      · exact (hsame item).2 (mem_of_mem_items_ofList hitem)
    exact (Value.eq_self_iff (h item hmem)).2 (hnan item hmem)
  · rw [Bool.eq_iff_iff, contains_ofList_iff, contains_ofList_iff]
    exact exists_congr fun u => and_congr_left fun _ => hsame u

/-- Sets of inserted values are equal if and only if they contain the same values and every element
is equal to itself, that is, has no `nan` within it.  The order of the insertions and repetitions
make no difference. -/
theorem eq_ofList_extensional (h : ∀ v ∈ values, v.WellFormed) (h' : ∀ v ∈ values', v.WellFormed) :
    ((ofList values).eq (ofList values') = true ↔
      (∀ item ∈ (ofList values).items ++ (ofList values').items, item.eq item = true) ∧
        ∀ v : Value, v.WellFormed → (ofList values).contains v = (ofList values').contains v) ∧
    (∀ item ∈ (ofList values).items ++ (ofList values').items,
      item.eq item = true ↔ ¬ item.HasNan) ∧
    ((∀ v ∈ values, ¬ v.HasNan) → (∀ v, v ∈ values ↔ v ∈ values') →
      (ofList values).eq (ofList values') = true) := by
  have hs := wellFormed_ofList h
  have ht := wellFormed_ofList h'
  refine ⟨eq_iff_contains_eq hs ht, fun item hitem => Value.eq_self_iff ?_,
    eq_ofList_of_mem_iff h⟩
  rcases List.mem_append.1 hitem with hitem | hitem
  · exact wellFormed_of_mem_items hs hitem
  · exact wellFormed_of_mem_items ht hitem

/-- Two equal sets as elements, of which the one that is inserted first is kept. -/
theorem eq_ofList_extensional_of_other_elements :
    (∀ v ∈ [.set [.double (.number false 0), .null], .set [.null, .double (.number true 0)]],
      Value.WellFormed v) ∧
    (∀ v ∈ [.set [.null, .double (.number true 0)], .set [.double (.number false 0), .null],
      .set [.null, .double (.number true 0)]], Value.WellFormed v) ∧
    (ofList [.set [.double (.number false 0), .null],
      .set [.null, .double (.number true 0)]]).items = [.set [.double (.number false 0), .null]] ∧
    (ofList [.set [.null, .double (.number true 0)], .set [.double (.number false 0), .null],
      .set [.null, .double (.number true 0)]]).items = [.set [.null, .double (.number true 0)]] ∧
    (ofList [.set [.double (.number false 0), .null], .set [.null, .double (.number true 0)]]).eq
      (ofList [.set [.null, .double (.number true 0)], .set [.double (.number false 0), .null],
        .set [.null, .double (.number true 0)]]) = true := by
  have hplus : (Value.set [.double (.number false 0), .null]).WellFormed :=
    ⟨by decide, trivial, trivial, trivial⟩
  have hminus : (Value.set [.null, .double (.number true 0)]).WellFormed :=
    ⟨by decide, trivial, trivial, trivial⟩
  have h : ∀ v ∈ [.set [.double (.number false 0), .null], .set [.null, .double (.number true 0)]],
      Value.WellFormed v := by
    simp only [List.forall_mem_cons]
    exact ⟨hplus, hminus, by simp⟩
  have h' : ∀ v ∈ [.set [.null, .double (.number true 0)], .set [.double (.number false 0), .null],
      .set [.null, .double (.number true 0)]], Value.WellFormed v := by
    simp only [List.forall_mem_cons]
    exact ⟨hminus, hplus, hminus, by simp⟩
  refine ⟨h, h', rfl, rfl, (eq_ofList_extensional h h').2.2 ?_ fun v => ?_⟩
  · simp only [List.forall_mem_cons]
    exact ⟨(Value.eq_self_iff hplus).1 (by decide), (Value.eq_self_iff hminus).1 (by decide),
      by simp⟩
  · simp only [List.mem_cons, List.not_mem_nil, or_false]
    tauto

end AttributeStore.ElementSet
