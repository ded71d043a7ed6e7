import AttributeStore.Value.WellFormed

/-!
# Nested values

The children of a value are the items of a sequence or set and the values of a map.  Since every
value is built from its children, what passes from the children to each value holds of all values.

## Main definitions

* `Value.children`: the values that a value is directly made of.
* `Value.Within`: a value, its children, their children and so on.
* `Value.HasNan`: values with a `nan` anywhere within them.

## Main results

* `Value.induction_on_children`: induction over nested values.
* `Value.hasNan_iff`: where a `nan` can be.
-/

namespace AttributeStore.Value

/-- The values that a value is directly made of. -/
def children : Value → List Value
  | list items | array items | set items => items
  | map entries => entries.map Prod.snd
  | _ => []

/-- What holds of a value if it holds of its children, holds of every value. -/
@[elab_as_elim]
theorem induction_on_children {motive : Value → Prop}
    (step : ∀ v, (∀ child ∈ v.children, motive child) → motive v) (v : Value) : motive v := by
  have hleaf {v : Value} (h : v.children = []) : motive v := step v (by simp [h])
  have hcons {items : List Value} {item : Value} (hitem : motive item)
      (hitems : ∀ child ∈ items, motive child) : ∀ child ∈ item :: items, motive child :=
    List.forall_mem_cons.2 ⟨hitem, hitems⟩
  refine Value.rec (motive_1 := motive) (motive_2 := fun items => ∀ child ∈ items, motive child)
    (motive_3 := fun entries => ∀ child ∈ entries.map Prod.snd, motive child)
    (motive_4 := fun entry => motive entry.2) ?null ?bool ?byte ?short ?int ?long ?float ?double
    ?char ?string ?list ?array ?map ?set ?object ?nil ?cons ?noEntry ?consEntry ?entry v
  case list | array | map | set => exact fun _ ih => step _ ih
  case nil | noEntry => simp
  case cons | consEntry => exact fun _ _ => hcons
  case entry => exact fun _ _ h => h
  all_goals intros; exact hleaf rfl

theorem WellFormed.of_mem_children {v child : Value} (h : v.WellFormed)
    (hchild : child ∈ v.children) : child.WellFormed := by
  cases v with
  | list items => exact itemsWellFormed_iff.1 h child hchild
  | array items => exact itemsWellFormed_iff.1 h child hchild
  | set items => exact itemsWellFormed_iff.1 h.2 child hchild
  | map entries =>
    obtain ⟨e, he, rfl⟩ := List.mem_map.1 hchild
    exact entriesWellFormed_iff.1 h.2 e he
  | _ => simp [children] at hchild

/-- `w.Within v` says that `w` is `v` itself, one of its children, one of theirs, and so on. -/
inductive Within : Value → Value → Prop
  | self (v : Value) : Within v v
  | child {w child v : Value} (hchild : child ∈ v.children) (h : Within w child) : Within w v

/-- The two values that are no numbers although their kind is one of numbers. -/
def IsNan (v : Value) : Prop := v = float .nan ∨ v = double .nan

/-- Whether a `nan` is anywhere within a value. -/
def HasNan (v : Value) : Prop := ∃ w, Within w v ∧ IsNan w

theorem hasNan_iff {v : Value} : v.HasNan ↔ v.IsNan ∨ ∃ child ∈ v.children, child.HasNan := by
  constructor
  · rintro ⟨w, hwithin, hnan⟩
    cases hwithin with
    | self => exact .inl hnan
    | child hchild h => exact .inr ⟨_, hchild, w, h, hnan⟩
  · rintro (hnan | ⟨child, hchild, w, hwithin, hnan⟩)
    · exact ⟨v, .self v, hnan⟩
    · exact ⟨w, .child hchild hwithin, hnan⟩

end AttributeStore.Value
