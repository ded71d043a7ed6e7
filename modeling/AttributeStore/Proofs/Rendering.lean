import AttributeStore.Proofs.JsonOutput
import AttributeStore.Proofs.WriteOrder
import AttributeStore.Store.View

/-!
# Renderings of a map

A map is rendered by itself, by its live views, as a map value and as JSON, and the entries are
brought into order at a different point each time.  All of this depends on nothing but the values
under their keys and the permissions to export them: not on the order in which the map is listed
each time, and not on what has happened to it before.

## Main definitions

* `Contents.SameValues`: contents with the same values and permissions under the same keys.
* `Store.Rendered`: what the renderings of a map are.

## Main results

* `Value.text_map`: the text of a map value, entry by entry.
* `Store.text_view`, `Contents.compact_snapshot`: the text of a view and the JSON text of a snapshot
  are those of map values, in whatever order the map is listed.
* `Store.rendered_by_values`: renderings agree with each other, and the same values render alike.
-/

namespace AttributeStore

/-! ### Map values -/

namespace Value

theorem charsOfEntries_eq (entries : List (String × Value)) :
    charsOfEntries entries = entries.map fun e => e.1.toList ++ '=' :: e.2.chars := by
  induction entries with
  | nil => rfl
  | cons e rest ih => rw [charsOfEntries, ih, List.map_cons]

theorem chars_map (entries : List (String × Value)) :
    (map entries).chars =
      Text.braced (entries.map fun e => e.1.toList ++ '=' :: e.2.chars) := by
  rw [chars, charsOfEntries_eq]

/-- Every entry is written once, with an equals sign between the key and the text of the value. -/
theorem text_map (entries : List (String × Value)) :
    (map entries).text =
      "\x7b" ++ ", ".intercalate (entries.map fun e => e.1 ++ "=" ++ e.2.text) ++ "\x7d" := by
  have hentries : (entries.map fun e => e.1 ++ "=" ++ e.2.text).map String.toList =
      entries.map fun e => e.1.toList ++ '=' :: e.2.chars := by
    simp [text]
  refine String.ext ?_
  rw [text, String.toList_ofList, chars_map, Text.braced, Text.commaSeparated, ← hentries]
  simp [String.toList_intercalate]

end Value

/-! ### The renderings of contents -/

namespace Contents

/-- Contents with the same values and the same permissions to export them, under the same keys. -/
def SameValues (c c' : Contents) : Prop :=
  ∀ key, ((c.get? key).map fun h => (h.value, h.persistable)) =
    (c'.get? key).map fun h => (h.value, h.persistable)

variable {c c' : Contents}

theorem mem_values_iff (key : String) (v : Value) :
    (key, v) ∈ c.values.entries ↔ c.get key = .ok v := by
  rw [← Dict.get?_eq_some_iff, values, Dict.get?_map, get]
  cases c.get? key <;> simp

/-- The JSON text of a snapshot is that of the map value of what may be exported, in whatever order
the map is listed. -/
theorem compact_snapshot (listing : c.Listing) :
    (c.snapshot listing).compact = (Value.map c.serializable.entries).json := by
  rw [snapshot_eq, snapshotValues_eq_serializable, Value.json]

theorem SameValues.values_eq (h : c.SameValues c') : c.values = c'.values := by
  refine Dict.ext_get? fun key => ?_
  have hkey := congrArg (Option.map Prod.fst) (h key)
  rw [Option.map_map, Option.map_map] at hkey
  rw [values, values, Dict.get?_map, Dict.get?_map]
  exact hkey

theorem SameValues.serializable_eq (h : c.SameValues c') : c.serializable = c'.serializable := by
  refine Dict.ext_get? fun key => ?_
  -- What is exported under a key is decided by the value and the permission there.
  have hexport (c : Contents) : c.serializable.get? key =
      (((c.get? key).map fun h => (h.value, h.persistable)).filter Prod.snd).map Prod.fst := by
    rw [serializable, values, Dict.get?_map, Dict.get?_filter, Option.filter_map, Option.map_map]
    rfl
  rw [hexport, hexport, h key]

end Contents

namespace Store

/-- What the renderings of a map are, in whatever order it is listed for each of them. -/
structure Rendered (store : Store) (m : MapId) : Prop where
  /-- The text of the map is that of the map value of its keys and values, in whatever order these
  are put together to make it. -/
  text : ∀ (listing : (m.view.values store).Listing) (pairs : List (String × Value)),
    pairs.Perm (store.contents m).values.entries →
      store.text m listing = (Value.ofPairs pairs).text
  /-- It shows each key once with the text of its value, and the keys in ascending order. -/
  entries : ∃ pairs : List (String × Value), Ascending pairs ∧
    (∀ key v, (key, v) ∈ pairs ↔ (store.contents m).get key = .ok v) ∧
    ∀ listing, store.text m listing =
      "\x7b" ++ ", ".intercalate (pairs.map fun e => e.1 ++ "=" ++ e.2.text) ++ "\x7d"
  /-- Every live view of the map has the same text. -/
  view : ∀ view : LiveView, view.source = m →
    ∀ listing listing', view.text store listing = store.text m listing'
  /-- Both exports have the values of the marked holders under their keys, and nothing else. -/
  exported : (∀ listing, (store.contents m).snapshotValues listing =
      (store.contents m).serializable) ∧
    ∀ key v, (key, v) ∈ (store.contents m).serializable.entries ↔
      ∃ h, (store.contents m).get? key = some h ∧ h.persistable = true ∧ h.value = v
  /-- The JSON text of the snapshot is that of the map value of what may be exported, in whatever
  order this is put together to make it. -/
  snapshot : ∀ (listing : (store.contents m).Listing) (pairs : List (String × Value)),
    pairs.Perm (store.contents m).serializable.entries →
      ((store.contents m).snapshot listing).compact = (Value.ofPairs pairs).json

variable (store : Store) (m : MapId)

/-- The text of a view is that of the map value of its values, in whatever order these are
listed. -/
theorem text_view (view : LiveView) (listing : (view.values store).Listing) :
    view.text store listing = (Value.map (view.values store).entries).text := by
  rw [LiveView.text, Dict.ofList_eq_of_perm listing.perm, Value.text, Value.chars_map]

theorem rendered : store.Rendered m where
  text listing pairs h := by
    rw [Value.ofPairs, Dict.ofList_eq_of_perm h, Store.text, text_view]
    rfl
  entries := ⟨_, (store.contents m).values.ascending, fun _ _ => Contents.mem_values_iff _ _,
    fun listing => (store.text_view m.view listing).trans (Value.text_map _)⟩
  view := by
    rintro view rfl listing listing'
    exact (store.text_view view listing).trans (store.text_view view listing').symm
  exported := ⟨Contents.snapshotValues_eq_serializable, fun _ _ => Contents.mem_serializable_iff⟩
  snapshot listing pairs h := by
    rw [Value.ofPairs, Dict.ofList_eq_of_perm h, Contents.compact_snapshot]

/-- The renderings of every map agree with each other, and two maps of any two stores, whatever has
happened to them, are rendered alike if they have the same values under the same keys with the same
permissions, in whatever orders the two are listed. -/
theorem rendered_by_values :
    (∀ store m, Rendered store m) ∧
      ∀ (store store' : Store) (m m' : MapId),
        (store.contents m).SameValues (store'.contents m') →
          (∀ listing listing', store.text m listing = store'.text m' listing') ∧
          (∀ listing listing', m.view.text store listing = m'.view.text store' listing') ∧
          (store.contents m).serializable = (store'.contents m').serializable ∧
          ∀ listing listing',
            (store.contents m).snapshotValues listing =
              (store'.contents m').snapshotValues listing' ∧
            ((store.contents m).snapshot listing).compact =
              ((store'.contents m').snapshot listing').compact := by
  refine ⟨rendered, fun store store' m m' h => ?_⟩
  have hvalues : m.view.values store = m'.view.values store' := h.values_eq
  have htext (listing : (m.view.values store).Listing)
      (listing' : (m'.view.values store').Listing) :
      m.view.text store listing = m'.view.text store' listing' := by
    rw [text_view, text_view, hvalues]
  refine ⟨htext, htext, h.serializable_eq, fun listing listing' => ⟨?_, ?_⟩⟩
  · rw [Contents.snapshotValues_eq_serializable, Contents.snapshotValues_eq_serializable,
      h.serializable_eq]
  · rw [Contents.compact_snapshot, Contents.compact_snapshot, h.serializable_eq]

/-- A key that was taken out and came back locked, beside one that is no name, and the same values
written in the other order.  The first map is listed backwards. -/
theorem rendered_by_values_of_written_again :
    ((empty.run [.build {}, .write ⟨0⟩ (.set "b" .null), .write ⟨0⟩ (.unset "b"),
        .newHolder (.bool true) .basic, .write ⟨0⟩ (.importAll [("a b", .holder ⟨1⟩)]),
        .write ⟨0⟩ (.set "b" (.char 'x')), .lock ⟨3⟩]).contents ⟨0⟩).SameValues
      ((empty.run [.build {}, .build {}, .write ⟨1⟩ (.set "b" (.char 'x')),
        .newHolder (.bool true) .composite,
        .write ⟨1⟩ (.importAll [("a b", .holder ⟨1⟩)])]).contents ⟨1⟩) ∧
    (empty.run [.build {}, .write ⟨0⟩ (.set "b" .null), .write ⟨0⟩ (.unset "b"),
        .newHolder (.bool true) .basic, .write ⟨0⟩ (.importAll [("a b", .holder ⟨1⟩)]),
        .write ⟨0⟩ (.set "b" (.char 'x')), .lock ⟨3⟩]).text ⟨0⟩ ⟨_, List.reverse_perm _⟩ =
      (empty.run [.build {}, .build {}, .write ⟨1⟩ (.set "b" (.char 'x')),
        .newHolder (.bool true) .composite,
        .write ⟨1⟩ (.importAll [("a b", .holder ⟨1⟩)])]).text ⟨1⟩ default := by
  have hsame : ((empty.run [.build {}, .write ⟨0⟩ (.set "b" .null), .write ⟨0⟩ (.unset "b"),
        .newHolder (.bool true) .basic, .write ⟨0⟩ (.importAll [("a b", .holder ⟨1⟩)]),
        .write ⟨0⟩ (.set "b" (.char 'x')), .lock ⟨3⟩]).contents ⟨0⟩).SameValues
      ((empty.run [.build {}, .build {}, .write ⟨1⟩ (.set "b" (.char 'x')),
        .newHolder (.bool true) .composite,
        .write ⟨1⟩ (.importAll [("a b", .holder ⟨1⟩)])]).contents ⟨1⟩) := fun key => by
    rw [← Dict.get?_map, ← Dict.get?_map]
    rfl
  exact ⟨hsame, (rendered_by_values.2 _ _ _ _ hsame).1 _ _⟩

end Store

end AttributeStore
