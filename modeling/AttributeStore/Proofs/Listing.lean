import AttributeStore.Store.Contents
import Mathlib.Data.List.Sort

/-!
# Listings of hash tables

The holders of a map stand in a hash table, and the order in which it lists them says nothing about
the map.  What is collected from a listing into an ordered map does not show the order of the
listing any more, so the snapshot of a map is the same for all listings, and it has the values that
may be exported, in the order of their keys.

## Main results

* `Dict.ext_get?`: a dictionary is determined by what stands under the keys.
* `Dict.ofList_eq_of_perm`: the entries of a dictionary can be put into it in any order.
* `Contents.snapshotValues_eq_serializable`: the snapshot has what may be exported.
* `Contents.get?_snapshotValues_eq_some_iff`: this is, the values of the marked holders.
-/

namespace AttributeStore

/-! ### Dictionaries -/

namespace Dict

variable {α : Type} {d d' : Dict α} {entries : List (String × α)}

/-- Dictionaries with the same under every key are equal. -/
theorem ext_get? (h : ∀ key, d.get? key = d'.get? key) : d = d' := by
  have hirrefl : Std.Irrefl fun a b : String × α => a.1 < b.1 :=
    ⟨fun a => String.lt_irrefl a.1⟩
  have hantisymm : Std.Antisymm fun a b : String × α => a.1 < b.1 :=
    ⟨fun a b hab hba => absurd (String.lt_trans hab hba) (String.lt_irrefl a.1)⟩
  have hentries : d.entries = d'.entries := by
    refine d.ascending.eq_of_mem_iff d'.ascending fun entry => ?_
    rw [← d.get?_eq_some_iff, ← d'.get?_eq_some_iff, h]
  cases d
  cases d'
  simpa using hentries

/-- No key of a dictionary is listed twice. -/
theorem nodup_keys (d : Dict α) : (d.entries.map Prod.fst).Nodup := by
  refine List.pairwise_map.2 (List.Pairwise.imp (fun {e e'} hlt heq => ?_) d.ascending)
  rw [heq] at hlt
  exact String.lt_irrefl _ hlt

/-- What stands under a key after entries under different keys were put into a dictionary. -/
theorem get?_foldl_insert_eq_some_iff (hkeys : (entries.map Prod.fst).Nodup) (d : Dict α)
    (key : String) (a : α) :
    (entries.foldl (fun d e => d.insert e.1 e.2) d).get? key = some a ↔
      (key, a) ∈ entries ∨ key ∉ entries.map Prod.fst ∧ d.get? key = some a := by
  induction entries generalizing d with
  | nil => simp
  | cons e rest ih =>
    obtain ⟨k, b⟩ := e
    obtain ⟨hnew, hrest⟩ := List.nodup_cons.1 hkeys
    rw [List.foldl_cons, ih hrest, get?_insert]
    by_cases hkey : key = k
    · subst hkey
      have hnot : (key, a) ∉ rest := fun hmem => hnew (List.mem_map.2 ⟨_, hmem, rfl⟩)
      simp [hnot, hnew, eq_comm]
    · simp [hkey]

/-- The entries of a dictionary, put into an empty one in any order, are this dictionary. -/
theorem ofList_eq_of_perm (h : entries.Perm d.entries) : ofList entries = d := by
  have hkeys : (entries.map Prod.fst).Nodup := (h.map Prod.fst).nodup_iff.2 d.nodup_keys
  refine ext_get? fun key => Option.ext fun a => ?_
  rw [ofList, get?_foldl_insert_eq_some_iff hkeys, get?_empty, h.mem_iff, ← get?_eq_some_iff]
  simp

end Dict

/-! ### What may be exported -/

namespace Contents

variable {c : Contents} {key : String} {v : Value}

theorem mem_serializable_iff :
    (key, v) ∈ c.serializable.entries ↔
      ∃ h, c.get? key = some h ∧ h.persistable = true ∧ h.value = v := by
  rw [← Dict.get?_eq_some_iff, serializable, values, Dict.get?_map, Dict.get?_filter]
  simp [Option.map_eq_some_iff, Option.filter_eq_some_iff, and_assoc]

/-- In whatever order a map is listed, its snapshot has what may be exported. -/
theorem snapshotValues_eq_serializable (listing : c.Listing) :
    c.snapshotValues listing = c.serializable :=
  Dict.ofList_eq_of_perm ((listing.perm.filter _).map _)

/-- In whatever order a map is listed, its snapshot has the values of the marked holders, and no
others. -/
theorem get?_snapshotValues_eq_some_iff (listing : c.Listing) :
    (c.snapshotValues listing).get? key = some v ↔
      ∃ h, c.get? key = some h ∧ h.persistable = true ∧ h.value = v := by
  rw [snapshotValues_eq_serializable, Dict.get?_eq_some_iff, mem_serializable_iff]

end Contents

end AttributeStore
