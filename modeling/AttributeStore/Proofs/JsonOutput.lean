import AttributeStore.Proofs.JsonReading
import AttributeStore.Proofs.LayoutText
import AttributeStore.Proofs.Listing
import AttributeStore.Value.Nesting
import Mathlib.Data.List.Forall2

/-!
# JSON shows the values

What a reader of JSON makes of the text of a value is described without the encoder:
`Value.IsShownBy` says which trees a receiver may take for a value.  The text of every value reads
as such a tree, and the snapshot of a map reads as the object of what may be exported.

## Main definitions

* `Binary.IsFinite`: the floating-point numbers that have digits.
* `Value.IsShownBy`: the trees that show a value.

## Main results

* `Value.hasNumberTokens_toJson`, `Value.isShownBy_toJson`: the trees that the encoder makes.
* `Value.read?_json`: the text of a value reads as a tree that shows it.
* `Contents.json_readsBack`: the same for values and snapshots.
-/

namespace AttributeStore

/-! ### Showing a value -/

namespace Binary

variable {f : Format}

/-- Neither an infinity nor `nan`. -/
def IsFinite : Binary f → Prop
  | nan => False
  | number _ magnitude => magnitude ≠ Fin.last f.infinity

/-- A token that shows a finite number: a number token that is read as this number. -/
def IsReadFrom (x : Binary f) (token : String) : Prop :=
  Json.isNumberToken token.toList ∧ Decimal.readBinary? f token.toList = some x

end Binary

namespace Value

/-- Which trees show a value.  A number without digits is shown as `null`, an integer by a token
that is read as this integer, a character and an object by their texts, sequences by the trees of
their items in order, and a map by an object with the same keys in ascending order. -/
inductive IsShownBy : Value → Json → Prop
  | null : IsShownBy null .null
  | bool (b : Bool) : IsShownBy (bool b) (.bool b)
  | integer {v : Value} {n : Int} {token : String} (hvalue : v.integer? = some n)
      (htoken : Json.isNumberToken token.toList) (hread : Text.readInteger? token.toList = some n) :
      IsShownBy v (.number token)
  | floatWithoutDigits {x : Binary.Single} (h : ¬ x.IsFinite) : IsShownBy (float x) .null
  | float {x : Binary.Single} {token : String} (hfinite : x.IsFinite)
      (htoken : x.IsReadFrom token) : IsShownBy (float x) (.number token)
  | doubleWithoutDigits {x : Binary.Double} (h : ¬ x.IsFinite) : IsShownBy (double x) .null
  | double {x : Binary.Double} {token : String} (hfinite : x.IsFinite)
      (htoken : x.IsReadFrom token) : IsShownBy (double x) (.number token)
  | char (c : Char) : IsShownBy (char c) (.string (String.singleton c))
  | string (s : String) : IsShownBy (string s) (.string s)
  | object (o : Object) : IsShownBy (object o) (.string o.text)
  | list {items : List Value} {trees : List Json} (h : List.Forall₂ IsShownBy items trees) :
      IsShownBy (list items) (.array trees)
  | array {items : List Value} {trees : List Json} (h : List.Forall₂ IsShownBy items trees) :
      IsShownBy (array items) (.array trees)
  | set {items : List Value} {trees : List Json} (h : List.Forall₂ IsShownBy items trees) :
      IsShownBy (set items) (.array trees)
  | map {entries : List (String × Value)} {members : List (String × Json)}
      (hkeys : members.map Prod.fst = entries.map Prod.fst) (hascending : Ascending members)
      (h : List.Forall₂ IsShownBy (entries.map Prod.snd) (members.map Prod.snd)) :
      IsShownBy (map entries) (.object members)

end Value

/-! ### What the encoder makes -/

namespace Binary

variable {f : Format} (layout : Decimal.Layout)

theorem toJson_of_not_isFinite {x : Binary f} (h : ¬ x.IsFinite) : x.toJson layout = .null := by
  cases x with
  | nan => rfl
  | number negative magnitude => exact if_pos (not_not.1 h)

theorem toJson_number {magnitude : Fin (f.infinity + 1)} (h : magnitude ≠ Fin.last f.infinity)
    (negative : Bool) : (number negative magnitude).toJson layout =
      .number (String.ofList (layout.finiteText negative magnitude)) := if_neg h

/-- A finite number becomes a token that is read as this number. -/
theorem exists_toJson_eq_number {x : Binary f} (h : x.IsFinite) :
    ∃ token, x.toJson layout = .number token ∧ x.IsReadFrom token := by
  cases x with
  | nan => exact h.elim
  | number negative magnitude =>
    refine ⟨_, toJson_number layout h negative, ?_⟩
    rw [IsReadFrom, String.toList_ofList]
    exact ⟨Decimal.isNumberToken_finiteText layout negative magnitude,
      Decimal.readBinary?_finiteText layout negative magnitude⟩

theorem hasNumberTokens_toJson (x : Binary f) : (x.toJson layout).HasNumberTokens := by
  by_cases h : x.IsFinite
  · obtain ⟨token, htree, htoken, -⟩ := exists_toJson_eq_number layout h
    exact htree ▸ htoken
  · rw [toJson_of_not_isFinite layout h]
    trivial

end Binary

namespace Value

theorem toJsonItems_eq (items : List Value) : toJsonItems items = items.map toJson := by
  induction items with
  | nil => rfl
  | cons item rest ih => rw [toJsonItems, ih, List.map_cons]

theorem toJsonMembers_eq (entries : List (String × Value)) :
    toJsonMembers entries = entries.map fun e => (e.1, e.2.toJson) := by
  induction entries with
  | nil => rfl
  | cons e rest ih => rw [toJsonMembers, ih, List.map_cons]

theorem hasNumberTokens_ofInt (n : Int) : (Json.ofInt n).HasNumberTokens := by
  simpa [Json.ofInt, Json.HasNumberTokens] using Json.isNumberToken_numeral n

/-- The encoder writes number tokens only. -/
theorem hasNumberTokens_toJson (v : Value) : v.toJson.HasNumberTokens := by
  induction v using induction_on_children with
  | step v ih =>
    have hitems {items : List Value} (h : ∀ item ∈ items, item.toJson.HasNumberTokens) :
        Json.ItemsHaveNumberTokens (toJsonItems items) := by
      rw [toJsonItems_eq, Json.itemsHaveNumberTokens_iff]
      exact List.forall_mem_map.2 h
    cases v with
    | byte n => exact hasNumberTokens_ofInt n.toInt
    | short n => exact hasNumberTokens_ofInt n.toInt
    | int n => exact hasNumberTokens_ofInt n.toInt
    | long n => exact hasNumberTokens_ofInt n.toInt
    | float x => exact x.hasNumberTokens_toJson _
    | double x => exact x.hasNumberTokens_toJson _
    | list items => exact hitems ih
    | array items => exact hitems ih
    | set items => exact hitems ih
    | map entries =>
      rw [toJson, Json.HasNumberTokens, toJsonMembers_eq, Json.membersHaveNumberTokens_iff]
      exact List.forall_mem_map.2 fun e he => ih e.2 (List.mem_map.2 ⟨e, he, rfl⟩)
    | _ => trivial

theorem isShownBy_ofInt {v : Value} {n : Int} (h : v.integer? = some n) :
    v.IsShownBy (Json.ofInt n) :=
  .integer h (by simpa using Json.isNumberToken_numeral n)
    (by simpa using Text.readInteger?_numeral n)

/-- The encoder makes a tree that shows the value. -/
theorem isShownBy_toJson {v : Value} (h : v.WellFormed) : v.IsShownBy v.toJson := by
  induction v using induction_on_children with
  | step v ih =>
    have hchildren : ∀ child ∈ v.children, child.IsShownBy child.toJson :=
      fun child hchild => ih child hchild (h.of_mem_children hchild)
    have hitems {items : List Value} (h : ∀ item ∈ items, item.IsShownBy item.toJson) :
        List.Forall₂ IsShownBy items (toJsonItems items) := by
      rw [toJsonItems_eq, List.forall₂_map_right_iff, List.forall₂_same]
      exact h
    cases v with
    | null => exact .null
    | bool b => exact .bool b
    | byte n => exact isShownBy_ofInt rfl
    | short n => exact isShownBy_ofInt rfl
    | int n => exact isShownBy_ofInt rfl
    | long n => exact isShownBy_ofInt rfl
    | float x =>
      rw [toJson]
      by_cases hfinite : x.IsFinite
      · obtain ⟨token, htree, htoken⟩ := x.exists_toJson_eq_number Binary.singleTokenLayout hfinite
        exact htree ▸ .float hfinite htoken
      · rw [x.toJson_of_not_isFinite Binary.singleTokenLayout hfinite]
        exact .floatWithoutDigits hfinite
    | double x =>
      rw [toJson]
      by_cases hfinite : x.IsFinite
      · obtain ⟨token, htree, htoken⟩ := x.exists_toJson_eq_number Binary.doubleTokenLayout hfinite
        exact htree ▸ .double hfinite htoken
      · rw [x.toJson_of_not_isFinite Binary.doubleTokenLayout hfinite]
        exact .doubleWithoutDigits hfinite
    | char c => exact .char c
    | string s => exact .string s
    | object o => exact .object o
    | list items => exact .list (hitems hchildren)
    | array items => exact .array (hitems hchildren)
    | set items => exact .set (hitems hchildren)
    | map entries =>
      rw [toJson, toJsonMembers_eq]
      refine .map (by simp) (h.1.mapValues _) ?_
      simp only [List.map_map, List.forall₂_map_left_iff, List.forall₂_map_right_iff,
        List.forall₂_same]
      exact fun e he => hchildren e.2 (List.mem_map.2 ⟨e, he, rfl⟩)

/-- The text of a value reads as a tree that shows the value. -/
theorem read?_json (v : Value) : Json.read? v.json = some v.toJson :=
  Json.read?_compact v.hasNumberTokens_toJson

end Value

namespace Contents

variable {c : Contents}

/-- The snapshot of a map is the tree of a map value. -/
theorem snapshot_eq (listing : c.Listing) :
    c.snapshot listing = (Value.map (c.snapshotValues listing).entries).toJson := by
  rw [Value.toJson, Value.toJsonMembers_eq, snapshot]

/-- The values of a snapshot are those of holders. -/
theorem wellFormed_snapshotValues (h : ∀ key h, c.get? key = some h → h.value.WellFormed)
    (listing : c.Listing) : (Value.map (c.snapshotValues listing).entries).WellFormed := by
  refine ⟨(c.snapshotValues listing).ascending, Value.entriesWellFormed_iff.2 fun e he => ?_⟩
  obtain ⟨holder, hget, -, hvalue⟩ :=
    (get?_snapshotValues_eq_some_iff listing).1 ((Dict.get?_eq_some_iff ..).2 he)
  exact hvalue ▸ h e.1 holder hget

/-- The text of every value reads as a tree that shows the value.  In whatever order a map is
listed, its snapshot has the values that may be exported under their keys, and the text of the
snapshot reads as an object that shows the map value of these, and so shows what stands under the
keys that may be exported, in the order of these keys. -/
theorem json_readsBack :
    (∀ v : Value, v.WellFormed → ∃ tree, Json.read? v.json = some tree ∧ v.IsShownBy tree) ∧
    ∀ c : Contents, (∀ key h, c.get? key = some h → h.value.WellFormed) → ∀ listing : c.Listing,
      (∀ key v, (c.snapshotValues listing).get? key = some v ↔
        ∃ h, c.get? key = some h ∧ h.persistable = true ∧ h.value = v) ∧
      ∃ members, Json.read? (c.snapshot listing).compact = some (.object members) ∧
        (Value.map (c.snapshotValues listing).entries).IsShownBy (.object members) ∧
        Ascending members ∧
        (∀ key tree, (key, tree) ∈ members →
          ∃ h, c.get? key = some h ∧ h.persistable = true ∧ h.value.IsShownBy tree) ∧
        ∀ key h, c.get? key = some h → h.persistable = true → ∃ tree, (key, tree) ∈ members := by
  refine ⟨fun v h => ⟨v.toJson, v.read?_json, v.isShownBy_toJson h⟩, fun c hc listing =>
    ⟨fun key v => get?_snapshotValues_eq_some_iff listing, ?_⟩⟩
  let members := ((c.snapshotValues listing).map Value.toJson).entries
  have hmember {key : String} {tree : Json} : (key, tree) ∈ members ↔
      ∃ h, c.get? key = some h ∧ h.persistable = true ∧ h.value.toJson = tree := by
    rw [← Dict.get?_eq_some_iff, Dict.get?_map, Option.map_eq_some_iff]
    simp [get?_snapshotValues_eq_some_iff, and_assoc]
  have hobject : (Value.map (c.snapshotValues listing).entries).toJson = .object members :=
    (snapshot_eq listing).symm
  refine ⟨members, ?_, ?_, Dict.ascending _, fun key tree hmem => ?_,
    fun key h hget hpersistable => ?_⟩
  · rw [snapshot_eq, ← hobject]
    exact Value.read?_json _
  · rw [← hobject]
    exact Value.isShownBy_toJson (wellFormed_snapshotValues hc listing)
  · obtain ⟨h, hget, hpersistable, rfl⟩ := hmember.1 hmem
    exact ⟨h, hget, hpersistable, Value.isShownBy_toJson (hc key h hget)⟩
  · exact ⟨h.value.toJson, hmember.2 ⟨h, hget, hpersistable, rfl⟩⟩

/-- A map value with an escaped key, a set of two values that are no numbers and the negative zero,
and the snapshot of a map whose one key has to be escaped. -/
theorem json_readsBack_of_escaped_key :
    (∃ tree, Json.read? (Value.map [("\n\"", .set [.double .nan, .double .nan]),
        ("é", .list [.char '\\', .float (.number true 0)])]).json = some tree ∧
      (Value.map [("\n\"", .set [.double .nan, .double .nan]),
        ("é", .list [.char '\\', .float (.number true 0)])]).IsShownBy tree) ∧
    ∀ listing : (Dict.empty.insert "\x01"
        (Holder.fresh (.string "\x02") .basic).markPersistable).Listing,
      ∃ members, Json.read? (Contents.snapshot _ listing).compact = some (.object members) ∧
        ∃ tree, ("\x01", tree) ∈ members := by
  refine ⟨json_readsBack.1 _ ⟨List.pairwise_pair.2 (by decide),
    ⟨by decide, trivial, trivial, trivial⟩, ⟨trivial, trivial, trivial⟩, trivial⟩,
    fun listing => ?_⟩
  obtain ⟨-, members, hread, -, -, -, hmem⟩ := json_readsBack.2 (Dict.empty.insert "\x01"
      (Holder.fresh (.string "\x02") .basic).markPersistable) (fun key h hget => by
    rw [Dict.get?_insert] at hget
    split at hget
    · cases hget
      trivial
    · cases hget) listing
  exact ⟨members, hread, hmem "\x01" _ rfl rfl⟩

end Contents

end AttributeStore
