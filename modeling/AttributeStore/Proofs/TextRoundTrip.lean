import AttributeStore.Proofs.Conversion
import AttributeStore.Proofs.LayoutText
import AttributeStore.Proofs.Lock

/-!
# Primitives read back from a map

A primitive that is written to a map is read back as it is, and from its text.  The texts of
integers are read by the rules for integers, and those of floating-point numbers by the rules for
literals.  The two infinities are the exception: their texts are no literals.

## Main definitions

* `Primitive.IsInfinite`: the primitives whose texts are not read back.

## Main results

* `Value.coerce?_toValue`: every primitive is read as itself.
* `Value.coerce?_text`, `Value.coerce?_text_of_isInfinite`: what a text is read as.
* `Store.primitive_readsBack`: the same through a map.
-/

namespace AttributeStore

namespace Primitive

/-- The infinities of the two floating-point kinds, by their signs. -/
def IsInfinite (negative : Bool) : (p : Primitive) → p.Carrier → Prop
  | float, x => x = .infinite negative
  | double, x => x = .infinite negative
  | _, _ => False

end Primitive

namespace Value

/-- A primitive is read as itself. -/
theorem coerce?_toValue (p : Primitive) (a : p.Carrier) : (p.toValue a).coerce? p = some a := by
  cases p with
  | bool => rfl
  | byte => exact congrArg some (Int8.ofInt_toInt a)
  | short => exact congrArg some (Int16.ofInt_toInt a)
  | int => exact congrArg some (Int32.ofInt_toInt a)
  | long => exact congrArg some (Int64.ofInt_toInt a)
  | float => exact congrArg some (Binary.convert_convert Binary.Format.single_embeds_double a)
  | double => exact congrArg some (Binary.convert_self a)
  | char => rfl

/-- The numeral of an integer within the bounds is read as what it is wrapped to. -/
theorem readInteger?_numeral {α : Type} {wrap : Int → α} {cut : Binary.Double → α}
    {least greatest n : Int} {a : α} (hleast : least ≤ n) (hgreatest : n ≤ greatest)
    (hwrap : wrap n = a) :
    (string (String.ofList (Text.numeral n))).readInteger? wrap cut least greatest = some a := by
  have hread : Text.readInteger? (string (String.ofList (Text.numeral n))).chars = some n := by
    rw [chars, String.toList_ofList, Text.readInteger?_numeral]
  simp only [readInteger?, integer?, floating?, hread, Option.bind_some, hleast, hgreatest,
    and_self, if_true, hwrap]

theorem readFloating?_string (f : Binary.Format) (s : String) :
    (string s).readFloating? f = Decimal.readBinary? f s.toList := rfl

theorem chars_number {f : Binary.Format} {magnitude : Fin (f.infinity + 1)}
    (h : magnitude ≠ Fin.last f.infinity) (negative : Bool) :
    (Binary.number negative magnitude).chars = Binary.textLayout.finiteText negative magnitude :=
  if_neg h

/-- A floating-point number that is no infinity is read from its text. -/
theorem readBinary?_chars {f : Binary.Format} {x : Binary f}
    (h : ∀ negative, x ≠ .infinite negative) :
    Decimal.readBinary? f x.chars = some x := by
  cases x with
  | nan => rfl
  | number negative magnitude =>
    have hfinite : magnitude ≠ Fin.last f.infinity := fun heq =>
      h negative (congrArg (Binary.number negative) heq)
    rw [chars_number hfinite, Decimal.readBinary?_finiteText]

theorem chars_infinite (f : Binary.Format) (negative : Bool) :
    (Binary.infinite (f := f) negative).chars =
      (if negative then ['-'] else []) ++ ['i', 'n', 'f'] :=
  if_pos rfl

/-- The text of an infinity is no literal. -/
theorem readBinary?_infinite (f : Binary.Format) (negative : Bool) :
    Decimal.readBinary? f (Binary.infinite (f := f) negative).chars = none := by
  rw [chars_infinite]
  cases negative <;> rfl

/-- A primitive that is no infinity is read from its text. -/
theorem coerce?_text {p : Primitive} {a : p.Carrier} (h : ∀ negative, ¬ p.IsInfinite negative a) :
    (string (p.toValue a).text).coerce? p = some a := by
  cases p with
  | bool => cases a <;> rfl
  | byte =>
    rw [coerce?]
    exact readInteger?_numeral (Int8.minValue_le_toInt a) (Int8.toInt_le a) (Int8.ofInt_toInt a)
  | short =>
    rw [coerce?]
    exact readInteger?_numeral (Int16.minValue_le_toInt a) (Int16.toInt_le a) (Int16.ofInt_toInt a)
  | int =>
    rw [coerce?]
    exact readInteger?_numeral (Int32.minValue_le_toInt a) (Int32.toInt_le a) (Int32.ofInt_toInt a)
  | long =>
    rw [coerce?]
    exact readInteger?_numeral (Int64.minValue_le_toInt a) (Int64.toInt_le a) (Int64.ofInt_toInt a)
  | float =>
    rw [coerce?, readFloating?_string, text, String.toList_ofList]
    exact readBinary?_chars h
  | double =>
    rw [coerce?, readFloating?_string, text, String.toList_ofList]
    exact readBinary?_chars h
  | char =>
    have hchars : (Primitive.char.toValue a).text.toList = [a] := String.toList_ofList
    simp [coerce?, readChar?, hchars]

theorem text_of_isInfinite {p : Primitive} {a : p.Carrier} {negative : Bool}
    (h : p.IsInfinite negative a) :
    (p.toValue a).text = if negative then "-inf" else "inf" := by
  have htext (f : Binary.Format) : String.ofList (Binary.infinite (f := f) negative).chars =
      if negative then "-inf" else "inf" := by
    rw [chars_infinite]
    cases negative <;> rfl
  cases p with
  | float => exact h ▸ htext .single
  | double => exact h ▸ htext .double
  | _ => exact h.elim

/-- The text of an infinity is not read as a primitive of its kind. -/
theorem coerce?_text_of_isInfinite {p : Primitive} {a : p.Carrier} {negative : Bool}
    (h : p.IsInfinite negative a) : (string (p.toValue a).text).coerce? p = none := by
  have hread (f : Binary.Format) : (string (String.ofList
      (Binary.infinite (f := f) negative).chars)).readFloating? f = none := by
    rw [readFloating?_string, String.toList_ofList, readBinary?_infinite]
  cases p with
  | float => exact h ▸ hread .single
  | double => exact h ▸ hread .double
  | _ => exact h.elim

end Value

namespace Contents

variable {c : Contents} {key : String} {v : Value}

theorem getAs_of_get (h : c.get key = .ok v) (hnull : v.isNull = false) (p : Primitive) :
    c.getAs p key = (v.coerce? p).elim (.error (.ofValue key v p.name)) .ok := by
  rw [getAs, h]
  cases hread : v.coerce? p <;> simp [Bind.bind, Except.bind, hnull, hread]

theorem getAsString_of_get (h : c.get key = .ok v) (hnull : v.isNull = false) :
    c.getAsString key = .ok (some v.text) := by
  rw [getAsString, h]
  simp [Bind.bind, Except.bind, hnull, pure, Except.pure]

end Contents

namespace Store

variable {store : Store} {m : MapId} {key : String}

/-- A plain value is written to an open slot and is what stands there, and the slot stays open. -/
theorem exists_set (hm : store.HasMap m) (hname : IsValidName key) (hopen : store.IsOpen m key)
    (v : Value) :
    ∃ id written, store.set m key v = (.ok id, written) ∧ written.HasMap m ∧
      written.IsOpen m key ∧ (written.contents m).get key = .ok v := by
  have hset : ∃ id written, store.set m key v = (.ok id, written) := by
    simp [Store.set, Session.set, hname]
  obtain ⟨id, written, hset⟩ := hset
  obtain ⟨hslot, -, hholder, -⟩ := set_of_isOpen hm hopen hset
  refine ⟨id, written, hset, written.hasMap_of_holder? hslot, ?_, ?_⟩
  · intro old hold
    obtain rfl : id = old := Option.some.inj (hslot.symm.trans hold)
    rw [hholder]
  · simp [Contents.get, get?_contents, hslot, hholder]

/-- A primitive that is written to an open slot is read back, and so is its text.  Once the text is
written in its place, the primitive is read from the text, unless it is infinite.  Strings are their
own texts. -/
theorem primitive_readsBack (hm : store.HasMap m) (hname : IsValidName key)
    (hopen : store.IsOpen m key) (p : Primitive) (a : p.Carrier) :
    (∃ id written, store.set m key (p.toValue a) = (.ok id, written) ∧
      (written.contents m).getAs p key = .ok a ∧
      (written.contents m).getAsString key = .ok (some (p.toValue a).text) ∧
      ∃ id' rewritten, written.set m key (.string (p.toValue a).text) = (.ok id', rewritten) ∧
        ((∀ negative, ¬ p.IsInfinite negative a) → (rewritten.contents m).getAs p key = .ok a) ∧
        ∀ negative, p.IsInfinite negative a →
          (p.toValue a).text = (if negative then "-inf" else "inf") ∧
          (rewritten.contents m).getAs p key =
            .error (.cannotCoerce key (p.toValue a).text p.name)) ∧
    ∀ s, ∃ id written, store.set m key (.string s) = (.ok id, written) ∧
      (written.contents m).getAsString key = .ok (some s) := by
  have hnull : (p.toValue a).isNull = false := by cases p <;> rfl
  have hstring (s : String) : (Value.string s).text = s := String.ofList_toList
  constructor
  · obtain ⟨id, written, hset, hm', hopen', hget⟩ := exists_set hm hname hopen (p.toValue a)
    obtain ⟨id', rewritten, hset', -, -, hget'⟩ :=
      exists_set hm' hname hopen' (.string (p.toValue a).text)
    refine ⟨id, written, hset, ?_, Contents.getAsString_of_get hget hnull, id', rewritten, hset',
      fun hfinite => ?_, fun negative hinfinite => ?_⟩
    · rw [Contents.getAs_of_get hget hnull, Value.coerce?_toValue, Option.elim_some]
    · rw [Contents.getAs_of_get hget' rfl, Value.coerce?_text hfinite, Option.elim_some]
    · refine ⟨Value.text_of_isInfinite hinfinite, ?_⟩
      rw [Contents.getAs_of_get hget' rfl, Value.coerce?_text_of_isInfinite hinfinite,
        Option.elim_none, AttributeError.ofValue, hstring]
  · intro s
    obtain ⟨id, written, hset, -, -, hget⟩ := exists_set hm hname hopen (.string s)
    exact ⟨id, written, hset, (Contents.getAsString_of_get hget rfl).trans (by rw [hstring])⟩

/-- The negative infinity of 64 bits and then its text are written over a null. -/
theorem primitive_readsBack_of_infinity :
    (empty.run [.build {}, .write ⟨0⟩ (.set "k" .null)]).IsOpen ⟨0⟩ "k" ∧
      ∃ id written, (empty.run [.build {}, .write ⟨0⟩ (.set "k" .null)]).set ⟨0⟩ "k"
          (.double (.infinite true)) = (.ok id, written) ∧
        (written.contents ⟨0⟩).getAs .double "k" = .ok (.infinite true) ∧
        ∃ id' rewritten, written.set ⟨0⟩ "k" (.string "-inf") = (.ok id', rewritten) ∧
          (rewritten.contents ⟨0⟩).getAs .double "k" =
            .error (.cannotCoerce "k" "-inf" "double") := by
  have hm : (empty.run [.build {}, .write ⟨0⟩ (.set "k" .null)]).HasMap ⟨0⟩ := by decide
  have hopen : (empty.run [.build {}, .write ⟨0⟩ (.set "k" .null)]).IsOpen ⟨0⟩ "k" := by
    rintro old hold
    obtain rfl : ⟨0⟩ = old := Option.some.inj hold
    rfl
  obtain ⟨⟨id, written, hset, hget, -, id', rewritten, hset', -, hinfinite⟩, -⟩ :=
    primitive_readsBack hm (by decide) hopen .double (.infinite true)
  obtain ⟨htext, hget'⟩ := hinfinite true rfl
  rw [if_pos rfl] at htext
  rw [htext] at hset' hget'
  exact ⟨hopen, id, written, hset, hget, id', rewritten, hset', hget'⟩

end Store

end AttributeStore
