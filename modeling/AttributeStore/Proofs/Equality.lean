import AttributeStore.Value.Nesting
import Mathlib.Data.List.Forall2
import Mathlib.Data.List.Perm.Subperm

/-!
# Equality is a partial equivalence

Equality of values is symmetric and transitive, and a value is equal to itself unless a `nan` is
somewhere within it.  For sets this is not evident: equality compares their sizes and looks for each
element of the first one in the second one only.  As no two elements of the first set are equal,
each of them takes an element of the second one for itself, so that none is left over.

## Main definitions

* `Value.Alike`: the rules of equality, one for each way in which two values can be equal.

## Main results

* `Value.eq_iff_alike`: values are equal if a rule says so.
* `Value.eq_symm`, `Value.eq_trans`, `Value.eq_self_iff`: the three laws.
-/

namespace AttributeStore

namespace Binary

variable {f : Format} {x y z : Binary f}

theorem eq_eq_true_iff : x.eq y = true ↔
    ∃ s t m, x = number s m ∧ y = number t m ∧ (s = t ∨ m.val = 0) := by
  cases x <;> cases y <;> simp [eq]
  grind

theorem eq_symm (h : x.eq y = true) : y.eq x = true := by
  obtain ⟨s, t, m, rfl, rfl, hsign⟩ := eq_eq_true_iff.1 h
  exact eq_eq_true_iff.2 ⟨t, s, m, rfl, rfl, hsign.imp_left Eq.symm⟩

theorem eq_trans (hxy : x.eq y = true) (hyz : y.eq z = true) : x.eq z = true := by
  obtain ⟨s, t, m, rfl, rfl, hxy⟩ := eq_eq_true_iff.1 hxy
  obtain ⟨t', u, m', hy, rfl, hyz⟩ := eq_eq_true_iff.1 hyz
  obtain ⟨rfl, rfl⟩ : t = t' ∧ m = m' := by simpa using hy
  exact eq_eq_true_iff.2 ⟨s, u, m, rfl, rfl, by grind⟩

theorem eq_self_iff : x.eq x = true ↔ x ≠ nan := by
  cases x <;> simp [eq]

end Binary

/-- Elements of a list that are each related to one of a second list, no two of them to the same
one, take different places of the second list. -/
theorem exists_taken {α β : Type} {related : α → β → Prop} {as : List α} {bs : List β}
    (hsome : ∀ a ∈ as, ∃ b ∈ bs, related a b)
    (hdistinct : as.Pairwise fun a a' => ∀ b ∈ bs, related a b → ¬ related a' b) :
    ∃ taken, List.Subperm taken bs ∧ List.Forall₂ related as taken := by
  induction as generalizing bs with
  | nil => exact ⟨[], List.nil_subperm, .nil⟩
  | cons a rest ih =>
    obtain ⟨hfirst, hrest⟩ := List.pairwise_cons.1 hdistinct
    obtain ⟨b, hb, hab⟩ := hsome a List.mem_cons_self
    obtain ⟨left, right, rfl⟩ := List.append_of_mem hb
    -- Without the element that `a` takes, the others still find theirs.
    obtain ⟨taken, htaken, hrelated⟩ : ∃ taken, List.Subperm taken (left ++ right) ∧
        List.Forall₂ related rest taken := by
      refine ih (fun a' ha' => ?_) (hrest.imp fun h b' hb' => h b' (by simp at hb' ⊢; tauto))
      obtain ⟨b', hb', hab'⟩ := hsome a' (List.mem_cons_of_mem _ ha')
      have hne : b' ≠ b := fun heq => hfirst a' ha' b hb hab (heq ▸ hab')
      exact ⟨b', by simp at hb' ⊢; tauto, hab'⟩
    exact ⟨b :: taken, ((List.subperm_cons b).2 htaken).trans List.perm_middle.symm.subperm,
      .cons hab hrelated⟩

theorem exists_of_mem_forall₂ {α β : Type} {related : α → β → Prop} {as : List α} {bs : List β}
    (h : List.Forall₂ related as bs) {b : β} (hb : b ∈ bs) : ∃ a ∈ as, related a b := by
  induction h with
  | nil => simp at hb
  | cons hab _ ih =>
    rcases List.mem_cons.1 hb with rfl | hrest
    · exact ⟨_, List.mem_cons_self, hab⟩
    · obtain ⟨a, ha, hab⟩ := ih hrest
      exact ⟨a, List.mem_cons_of_mem _ ha, hab⟩

/-- If both lists have the same length, no element of the second one is left over. -/
theorem exists_related_of_length_eq {α β : Type} {related : α → β → Prop} {as : List α}
    {bs : List β} (hlength : as.length = bs.length) (hsome : ∀ a ∈ as, ∃ b ∈ bs, related a b)
    (hdistinct : as.Pairwise fun a a' => ∀ b ∈ bs, related a b → ¬ related a' b) :
    ∀ b ∈ bs, ∃ a ∈ as, related a b := by
  obtain ⟨taken, htaken, hrelated⟩ := exists_taken hsome hdistinct
  have hall : taken.Perm bs :=
    htaken.perm_of_length_le (Nat.le_of_eq (hlength.symm.trans hrelated.length_eq))
  exact fun b hb => exists_of_mem_forall₂ hrelated (hall.mem_iff.2 hb)

section Items

variable {α : Type} {related : α → α → Prop} {as bs cs : List α}

private theorem forall₂_symm (h : List.Forall₂ related as bs)
    (hsymm : ∀ a ∈ as, ∀ b, related a b → related b a) : List.Forall₂ related bs as := by
  induction h with
  | nil => exact .nil
  | cons hab _ ih =>
    exact .cons (hsymm _ List.mem_cons_self _ hab)
      (ih fun a ha => hsymm a (List.mem_cons_of_mem _ ha))

private theorem forall₂_trans (h : List.Forall₂ related as bs) (h' : List.Forall₂ related bs cs)
    (htrans : ∀ a ∈ as, ∀ b c, related a b → related b c → related a c) :
    List.Forall₂ related as cs := by
  induction h generalizing cs with
  | nil => exact h'
  | cons hab _ ih =>
    obtain ⟨c, cs, hbc, hrest, rfl⟩ := List.forall₂_cons_left_iff.1 h'
    exact .cons (htrans _ List.mem_cons_self _ _ hab hbc)
      (ih hrest fun a ha => htrans a (List.mem_cons_of_mem _ ha))

end Items

namespace Value

/-! ### The rules of equality -/

/-- The values of which every other one differs. -/
def IsPlain : Value → Prop
  | null | bool _ | byte _ | short _ | int _ | long _ | char _ | string _ => True
  | _ => False

/-- The ways in which two values are equal. -/
inductive Alike : Value → Value → Prop
  | plain {v : Value} (h : v.IsPlain) : Alike v v
  | float {x y : Binary.Single} (h : x.eq y = true) : Alike (float x) (float y)
  | double {x y : Binary.Double} (h : x.eq y = true) : Alike (double x) (double y)
  | list {as bs : List Value} (h : List.Forall₂ (fun a b => a.eq b = true) as bs) :
      Alike (list as) (list bs)
  | array {as bs : List Value} (h : List.Forall₂ (fun a b => a.eq b = true) as bs) :
      Alike (array as) (array bs)
  | map {as bs : List (String × Value)}
      (h : List.Forall₂ (fun a b => a.1 = b.1 ∧ a.2.eq b.2 = true) as bs) : Alike (map as) (map bs)
  | set {as bs : List Value} (hlength : as.length = bs.length)
      (h : ∀ a ∈ as, ∃ b ∈ bs, a.eq b = true) : Alike (set as) (set bs)
  | object {o p : Object} (h : o.identity = p.identity) : Alike (object o) (object p)

theorem eqItems_iff {as bs : List Value} :
    eqItems as bs = true ↔ List.Forall₂ (fun a b => a.eq b = true) as bs := by
  induction as generalizing bs with
  | nil => cases bs <;> simp [eqItems]
  | cons a rest ih => cases bs <;> simp [eqItems, ih]

theorem eqEntries_iff {as bs : List (String × Value)} :
    eqEntries as bs = true ↔
      List.Forall₂ (fun a b => a.1 = b.1 ∧ a.2.eq b.2 = true) as bs := by
  induction as generalizing bs with
  | nil => cases bs <;> simp [eqEntries]
  | cons a rest ih => cases bs <;> simp [eqEntries, ih]

theorem allIn_iff {as bs : List Value} :
    allIn as bs = true ↔ ∀ a ∈ as, ∃ b ∈ bs, a.eq b = true := by
  induction as with
  | nil => simp [allIn]
  | cons a rest ih => simp [allIn, ih]

theorem eq_iff_alike {a b : Value} : a.eq b = true ↔ Alike a b := by
  constructor
  · intro h
    cases a <;> cases b <;> simp only [eq, eqItems_iff, eqEntries_iff, allIn_iff, decide_eq_true_eq,
      Bool.and_eq_true, Bool.false_eq_true] at h
    case float.float => exact .float h
    case double.double => exact .double h
    case list.list => exact .list h
    case array.array => exact .array h
    case map.map => exact .map h
    case set.set => exact .set h.1 h.2
    case object.object => exact .object h
    case null.null => exact .plain trivial
    all_goals exact h ▸ .plain trivial
  · rintro (h | h | h | h | h | h | ⟨hlength, h⟩ | h)
    · cases a <;> simp_all [IsPlain, eq]
    · exact h
    · exact h
    · exact eqItems_iff.2 h
    · exact eqItems_iff.2 h
    · exact eqEntries_iff.2 h
    · simp [eq, hlength, allIn_iff.2 h]
    · simp [eq, h]

/-! ### The laws of equality -/

private theorem snd_mem_children {entries : List (String × Value)} {e : String × Value}
    (he : e ∈ entries) : e.2 ∈ (map entries).children :=
  List.mem_map.2 ⟨e, he, rfl⟩

theorem eq_trans {a b c : Value} (hab : a.eq b = true) (hbc : b.eq c = true) : a.eq c = true := by
  induction a using induction_on_children generalizing b c with
  | step a ih =>
    rw [eq_iff_alike] at hab hbc ⊢
    cases hab with
    | plain h => exact hbc
    | float h =>
      cases hbc with
      | plain h' => exact h'.elim
      | float h' => exact .float (Binary.eq_trans h h')
    | double h =>
      cases hbc with
      | plain h' => exact h'.elim
      | double h' => exact .double (Binary.eq_trans h h')
    | list h =>
      cases hbc with
      | plain h' => exact h'.elim
      | list h' => exact .list (forall₂_trans h h' fun a ha _ _ => ih a ha)
    | array h =>
      cases hbc with
      | plain h' => exact h'.elim
      | array h' => exact .array (forall₂_trans h h' fun a ha _ _ => ih a ha)
    | map h =>
      cases hbc with
      | plain h' => exact h'.elim
      | map h' =>
        exact .map (forall₂_trans h h' fun a ha _ _ hab hbc =>
          ⟨hab.1.trans hbc.1, ih _ (snd_mem_children ha) hab.2 hbc.2⟩)
    | set hlength h =>
      cases hbc with
      | plain h' => exact h'.elim
      | set hlength' h' =>
        refine .set (hlength.trans hlength') fun a ha => ?_
        obtain ⟨b, hb, hab⟩ := h a ha
        obtain ⟨c, hc, hbc⟩ := h' b hb
        exact ⟨c, hc, ih a ha hab hbc⟩
    | object h =>
      cases hbc with
      | plain h' => exact h'.elim
      | object h' => exact .object (h.trans h')

theorem eq_symm {a b : Value} (ha : a.WellFormed) (h : a.eq b = true) : b.eq a = true := by
  induction a using induction_on_children generalizing b with
  | step a ih =>
    have hchild (a' : Value) (ha' : a' ∈ a.children) (b' : Value) (h' : a'.eq b' = true) :
        b'.eq a' = true :=
      ih a' ha' (ha.of_mem_children ha') h'
    rw [eq_iff_alike] at h ⊢
    cases h with
    | plain h => exact .plain h
    | float h => exact .float (Binary.eq_symm h)
    | double h => exact .double (Binary.eq_symm h)
    | list h => exact .list (forall₂_symm h hchild)
    | array h => exact .array (forall₂_symm h hchild)
    | map h =>
      exact .map (forall₂_symm h fun e he _ hab =>
        ⟨hab.1.symm, hchild _ (snd_mem_children he) _ hab.2⟩)
    | @set as bs hlength h =>
      -- Two elements of the first set that equal one of the second would equal each other.
      have hdistinct : as.Pairwise fun a a' => ∀ b ∈ bs, a.eq b = true → ¬ a'.eq b = true := by
        refine ha.1.imp_of_mem fun _ ha' hne b _ hab hab' => ?_
        simp [eq_trans hab (hchild _ ha' b hab')] at hne
      refine .set hlength.symm fun b hb => ?_
      obtain ⟨a, ha, hab⟩ := exists_related_of_length_eq hlength h hdistinct b hb
      exact ⟨a, ha, hchild a ha b hab⟩
    | object h => exact .object h.symm

/-- A value is equal to itself if its children are and it is no `nan`. -/
theorem eq_self_iff_children {a : Value} (ha : a.WellFormed) :
    a.eq a = true ↔ ¬ a.IsNan ∧ ∀ child ∈ a.children, child.eq child = true := by
  have hset {items : List Value} (hitems : ∀ item ∈ items, item.WellFormed) :
      (∀ item ∈ items, ∃ b ∈ items, item.eq b = true) ↔
        ∀ item ∈ items, item.eq item = true := by
    refine ⟨fun h item hitem => ?_, fun h item hitem => ⟨item, hitem, h item hitem⟩⟩
    obtain ⟨b, -, hb⟩ := h item hitem
    exact eq_trans hb (eq_symm (hitems item hitem) hb)
  cases a with
  | set items => simp [eq, allIn_iff, IsNan, children, hset (itemsWellFormed_iff.1 ha.2)]
  | map entries =>
    simp only [eq, eqEntries_iff, List.forall₂_same, IsNan, children, List.forall_mem_map]
    simp
  | _ => simp [eq, eqItems_iff, List.forall₂_same, Binary.eq_self_iff, IsNan, children]

theorem eq_self_iff {a : Value} (ha : a.WellFormed) : a.eq a = true ↔ ¬ a.HasNan := by
  induction a using induction_on_children with
  | step a ih =>
    rw [eq_self_iff_children ha, hasNan_iff, not_or, not_exists]
    refine and_congr_right fun _ => forall_congr' fun child => ?_
    rw [not_and]
    exact forall_congr' fun hchild => ih child hchild (ha.of_mem_children hchild)

/-- Equality of values is symmetric and transitive, and exactly the values without a `nan` within
them are equal to themselves. -/
theorem eq_isPartialEquivalence {a b c : Value} (ha : a.WellFormed) :
    (a.eq b = true → b.eq a = true) ∧ (a.eq b = true → b.eq c = true → a.eq c = true) ∧
      (a.eq a = true ↔ ¬ a.HasNan) :=
  ⟨eq_symm ha, eq_trans, eq_self_iff ha⟩

/-- Two sets with the two zeros and with equal sets as elements, in different orders. -/
theorem eq_symm_of_nested_sets :
    (set [double (.number false 0), set [null, bool true]]).WellFormed ∧
      (set [double (.number false 0), set [null, bool true]]).eq
        (set [set [bool true, null], double (.number true 0)]) = true ∧
      (set [set [bool true, null], double (.number true 0)]).eq
        (set [double (.number false 0), set [null, bool true]]) = true ∧
      ¬ (set [double (.number false 0), set [null, bool true]]).HasNan := by
  have hwellFormed : (set [double (.number false 0), set [null, bool true]]).WellFormed :=
    ⟨by decide, trivial, ⟨by decide, trivial, trivial, trivial⟩, trivial⟩
  have heq : (set [double (.number false 0), set [null, bool true]]).eq
      (set [set [bool true, null], double (.number true 0)]) = true := by decide
  obtain ⟨hsymm, -, hself⟩ := eq_isPartialEquivalence (b := _) (c := null) hwellFormed
  exact ⟨hwellFormed, heq, hsymm heq, hself.1 (by decide)⟩

end Value

end AttributeStore
