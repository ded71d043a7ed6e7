/-!
# Dictionaries in key order

A dictionary from strings is a list of entries whose keys strictly ascend, so that two
dictionaries with the same entries are equal.  An ordered map lists its entries in this order, that
of the code points.  A hash table lists them in an order of its own, as a `Dict.Listing`.

## Main definitions

* `insertEntry`, `findEntry`: putting an entry at the place of its key, and finding it.
* `Dict`: lists of entries with strictly ascending keys, with `Dict.get?`, `Dict.insert`,
  `Dict.erase`, `Dict.filter` and `Dict.map`.
* `Dict.Listing`: the entries of a dictionary in any order.

## Main results

* `Dict.get?_eq_some_iff`, `Dict.mem_keys_iff`: what stands under a key is what the entry of the key
  says, and the keys are those under which something stands.
* `Dict.get?_insert`, `Dict.get?_erase`, `Dict.get?_filter`, `Dict.get?_map`: what stands under a
  key after each change.
* `Dict.map_congr`: a dictionary is mapped by what a function does to what stands in it.
-/

namespace AttributeStore

variable {α β : Type}

/-- Puts an entry at the place of its key, over the one that stands there. -/
def insertEntry (key : String) (a : α) : List (String × α) → List (String × α)
  | [] => [(key, a)]
  | (k, b) :: rest =>
    if key < k then (key, a) :: (k, b) :: rest
    else if key = k then (key, a) :: rest
    else (k, b) :: insertEntry key a rest

/-- What stands under a key. -/
def findEntry (key : String) : List (String × α) → Option α
  | [] => none
  | (k, a) :: rest => if key = k then some a else findEntry key rest

/-- Entries in strictly ascending order of their keys. -/
def Ascending (entries : List (String × α)) : Prop := entries.Pairwise fun a b => a.1 < b.1

private theorem fst_mem_insertEntry {key : String} {a : α} {entries : List (String × α)}
    {e : String × α} (h : e ∈ insertEntry key a entries) : e.1 = key ∨ e ∈ entries := by
  induction entries with
  | nil => simp_all [insertEntry]
  | cons x rest ih =>
    simp only [insertEntry] at h
    split at h
    · rcases List.mem_cons.1 h with rfl | h
      · exact .inl rfl
      · exact .inr h
    · split at h
      · rcases List.mem_cons.1 h with rfl | h
        · exact .inl rfl
        · exact .inr (List.mem_cons_of_mem _ h)
      · rcases List.mem_cons.1 h with rfl | h
        · exact .inr List.mem_cons_self
        · exact (ih h).imp_right (List.mem_cons_of_mem _)

private theorem lt_of_not_lt_of_ne {a b : String} (h : ¬ a < b) (hne : a ≠ b) : b < a :=
  Std.lt_of_le_of_ne (String.not_lt.1 h) (Ne.symm hne)

/-- Putting an entry at its place keeps the order. -/
theorem Ascending.insertEntry {key : String} {a : α} {entries : List (String × α)}
    (h : Ascending entries) : Ascending (insertEntry key a entries) := by
  induction entries with
  | nil => simp [Ascending, AttributeStore.insertEntry]
  | cons x rest ih =>
    obtain ⟨hx, hrest⟩ := List.pairwise_cons.1 h
    simp only [AttributeStore.insertEntry]
    split
    next hlt =>
      refine List.pairwise_cons.2 ⟨fun e he => ?_, h⟩
      rcases List.mem_cons.1 he with rfl | he
      · exact hlt
      · exact String.lt_trans hlt (hx e he)
    next hnlt =>
      split
      next heq =>
        subst heq
        exact List.pairwise_cons.2 ⟨hx, hrest⟩
      next hne =>
        refine List.pairwise_cons.2 ⟨fun e he => ?_, ih hrest⟩
        rcases fst_mem_insertEntry he with hkey | he
        · exact hkey ▸ lt_of_not_lt_of_ne hnlt hne
        · exact hx e he

/-- In ascending entries every entry is the one of its key. -/
theorem Ascending.findEntry_eq_some_iff {entries : List (String × α)} (h : Ascending entries)
    (key : String) (a : α) : findEntry key entries = some a ↔ (key, a) ∈ entries := by
  induction entries with
  | nil => simp [findEntry]
  | cons x rest ih =>
    obtain ⟨k, b⟩ := x
    obtain ⟨hx, hrest⟩ := List.pairwise_cons.1 h
    by_cases hkey : key = k
    · subst hkey
      have hnot : (key, a) ∉ rest := fun hmem => String.lt_irrefl key (hx _ hmem)
      simp [findEntry, hnot, eq_comm]
    · simp [findEntry, hkey, ih hrest]

/-- Changing what stands under the keys keeps the order. -/
theorem Ascending.mapValues (f : α → β) {entries : List (String × α)} (h : Ascending entries) :
    Ascending (entries.map fun e => (e.1, f e.2)) := by
  simpa [Ascending, List.pairwise_map] using h

/-- A dictionary, listed in strictly ascending order of its keys. -/
structure Dict (α : Type) where
  /-- The keys with what stands under them. -/
  entries : List (String × α)
  /-- The keys strictly ascend. -/
  ascending : Ascending entries

namespace Dict

/-- The dictionary without entries. -/
def empty : Dict α := ⟨[], .nil⟩

instance : Inhabited (Dict α) := ⟨empty⟩

instance : EmptyCollection (Dict α) := ⟨empty⟩

variable (d : Dict α)

/-- What stands under a key. -/
def get? (key : String) : Option α := findEntry key d.entries

/-- Whether something stands under a key. -/
def contains (key : String) : Bool := (d.get? key).isSome

/-- All keys, in ascending order. -/
def keys : List String := d.entries.map Prod.fst

/-- The number of entries. -/
def size : Nat := d.entries.length

/-- Whether there are no entries. -/
def isEmpty : Bool := d.entries.isEmpty

/-- Puts something under a key, over what stands there. -/
def insert (key : String) (a : α) : Dict α := ⟨insertEntry key a d.entries, d.ascending.insertEntry⟩

/-- Takes out the entry of a key. -/
def erase (key : String) : Dict α :=
  ⟨d.entries.filter fun e => e.1 ≠ key, d.ascending.filter _⟩

/-- Keeps the entries for which a test on what stands there succeeds. -/
def filter (p : α → Bool) : Dict α := ⟨d.entries.filter fun e => p e.2, d.ascending.filter _⟩

/-- Applies a function to what stands under each key. -/
def map (f : α → β) : Dict β :=
  ⟨d.entries.map fun e => (e.1, f e.2), d.ascending.mapValues f⟩

/-- The dictionary of a list of entries; of two entries with one key the later one stays. -/
def ofList (entries : List (String × α)) : Dict α :=
  entries.foldl (fun d e => d.insert e.1 e.2) empty

@[simp]
theorem get?_empty (key : String) : (empty : Dict α).get? key = none := rfl

theorem get?_eq_some_iff (key : String) (a : α) :
    d.get? key = some a ↔ (key, a) ∈ d.entries :=
  d.ascending.findEntry_eq_some_iff key a

theorem mem_keys_iff (key : String) : key ∈ d.keys ↔ ∃ a, d.get? key = some a := by
  simp [keys, get?_eq_some_iff]

theorem get?_insert (key key' : String) (a : α) :
    (d.insert key a).get? key' = if key' = key then some a else d.get? key' := by
  simp only [get?, insert]
  induction d.entries with
  | nil => simp [insertEntry, findEntry]
  | cons x rest ih =>
    obtain ⟨k, b⟩ := x
    simp only [insertEntry]
    split
    · simp [findEntry]
    · split
      · by_cases h : key' = key <;> simp_all [findEntry]
      · by_cases hk : key' = k <;> by_cases h : key' = key <;> simp_all [findEntry]

theorem get?_erase (key key' : String) :
    (d.erase key).get? key' = if key' = key then none else d.get? key' := by
  simp only [get?, erase]
  induction d.entries with
  | nil => simp [findEntry]
  | cons x rest ih =>
    obtain ⟨k, b⟩ := x
    by_cases hx : k = key <;> by_cases hk : key' = k <;> by_cases h : key' = key <;>
      simp_all [findEntry]

theorem get?_filter (p : α → Bool) (key : String) :
    (d.filter p).get? key = (d.get? key).filter p := by
  refine Option.ext fun a => ?_
  rw [get?_eq_some_iff, Option.filter_eq_some_iff, get?_eq_some_iff]
  exact List.mem_filter

theorem get?_map (f : α → β) (key : String) : (d.map f).get? key = (d.get? key).map f := by
  simp only [get?, map]
  induction d.entries with
  | nil => rfl
  | cons x rest ih =>
    obtain ⟨k, b⟩ := x
    by_cases hk : key = k <;> simp_all [findEntry]

theorem map_map {γ : Type} (f : α → β) (g : β → γ) : (d.map f).map g = d.map fun a => g (f a) := by
  simp [map, Function.comp_def]

/-- Functions that agree on what stands in a dictionary map it alike. -/
theorem map_congr {f g : α → β} (h : ∀ key a, d.get? key = some a → f a = g a) :
    d.map f = d.map g := by
  have hentries : (d.entries.map fun e => (e.1, f e.2)) = d.entries.map fun e => (e.1, g e.2) := by
    refine List.map_congr_left fun e he => ?_
    rw [h e.1 e.2 ((d.get?_eq_some_iff e.1 e.2).2 he)]
  simp only [map, hentries]

/-- The entries of a dictionary as a hash table lists them, in whatever order. -/
structure Listing where
  /-- The entries in the order of the listing. -/
  entries : List (String × α)
  /-- They are the entries of the dictionary, each of them listed once. -/
  perm : entries.Perm d.entries

instance : Inhabited d.Listing := ⟨⟨d.entries, .refl _⟩⟩

end Dict

end AttributeStore
