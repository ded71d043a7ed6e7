import AttributeStore.Value.ElementSet

/-!
# Well-formed values

The entries of a map value have to ascend strictly by their keys, and no element of a set value
may be equal to an earlier one.  Every value made by the builders satisfies both, at every depth
(`wellFormed_ofPairs`, `wellFormed_ofList`).
-/

namespace AttributeStore

namespace Value

mutual

/-- Maps with ascending keys and sets without repetitions, all the way down. -/
def WellFormed : Value → Prop
  | list items => ItemsWellFormed items
  | array items => ItemsWellFormed items
  | map entries => Ascending entries ∧ EntriesWellFormed entries
  | set items => items.Pairwise (fun a b => a.eq b = false) ∧ ItemsWellFormed items
  | _ => True
termination_by structural v => v

/-- Every item is well-formed. -/
def ItemsWellFormed : List Value → Prop
  | [] => True
  | item :: rest => item.WellFormed ∧ ItemsWellFormed rest

/-- Every value under a key is well-formed. -/
def EntriesWellFormed : List (String × Value) → Prop
  | [] => True
  | (_, v) :: rest => v.WellFormed ∧ EntriesWellFormed rest

end

theorem itemsWellFormed_iff {items : List Value} :
    ItemsWellFormed items ↔ ∀ item ∈ items, item.WellFormed := by
  induction items with
  | nil => simp [ItemsWellFormed]
  | cons item rest ih => simp [ItemsWellFormed, ih]

theorem entriesWellFormed_iff {entries : List (String × Value)} :
    EntriesWellFormed entries ↔ ∀ e ∈ entries, e.2.WellFormed := by
  induction entries with
  | nil => simp [EntriesWellFormed]
  | cons e rest ih => simp [EntriesWellFormed, ih]

private theorem entriesWellFormed_insertEntry {key : String} {v : Value}
    {entries : List (String × Value)} (hv : v.WellFormed) (h : EntriesWellFormed entries) :
    EntriesWellFormed (insertEntry key v entries) := by
  induction entries with
  | nil => exact ⟨hv, trivial⟩
  | cons e rest ih =>
    simp only [insertEntry]
    split
    · exact ⟨hv, h⟩
    · split
      · exact ⟨hv, h.2⟩
      · exact ⟨h.1, ih h.2⟩

private theorem entriesWellFormed_foldl (pairs : List (String × Value)) (d : Dict Value)
    (hd : EntriesWellFormed d.entries) (h : ∀ pair ∈ pairs, pair.2.WellFormed) :
    EntriesWellFormed (pairs.foldl (fun d e => d.insert e.1 e.2) d).entries := by
  induction pairs generalizing d with
  | nil => exact hd
  | cons pair rest ih =>
    exact ih _ (entriesWellFormed_insertEntry (h pair List.mem_cons_self) hd)
      fun e he => h e (List.mem_cons_of_mem _ he)

theorem wellFormed_ofPairs {pairs : List (String × Value)} (h : ∀ pair ∈ pairs, pair.2.WellFormed) :
    (ofPairs pairs).WellFormed :=
  ⟨(Dict.ofList pairs).ascending, entriesWellFormed_foldl pairs .empty trivial h⟩

end Value

namespace ElementSet

private theorem wellFormed_add {s : ElementSet} {v : Value} (hs : s.toValue.WellFormed)
    (hv : v.WellFormed) : (s.insert v).toValue.WellFormed := by
  obtain ⟨hpairwise, hitems⟩ := hs
  simp only [insert, add]
  split
  · exact ⟨hpairwise, hitems⟩
  next hnew =>
    simp only [contains, List.any_eq_true, not_exists, not_and, Bool.not_eq_true] at hnew
    refine ⟨List.pairwise_append.2 ⟨hpairwise, List.pairwise_singleton _ _, ?_⟩, ?_⟩
    · intro a ha b hb
      rw [List.mem_singleton.1 hb]
      exact hnew a ha
    · rw [Value.itemsWellFormed_iff] at hitems ⊢
      intro item hitem
      rcases List.mem_append.1 hitem with h | h
      · exact hitems item h
      · exact List.mem_singleton.1 h ▸ hv

private theorem wellFormed_foldl {values : List Value} {s : ElementSet}
    (hs : s.toValue.WellFormed) (h : ∀ v ∈ values, v.WellFormed) :
    (values.foldl insert s).toValue.WellFormed := by
  induction values generalizing s with
  | nil => exact hs
  | cons v rest ih =>
    exact ih (wellFormed_add hs (h v List.mem_cons_self))
      fun w hw => h w (List.mem_cons_of_mem _ hw)

theorem wellFormed_ofList {values : List Value} (h : ∀ v ∈ values, v.WellFormed) :
    (ofList values).toValue.WellFormed :=
  wellFormed_foldl ⟨.nil, trivial⟩ h

end ElementSet

end AttributeStore
