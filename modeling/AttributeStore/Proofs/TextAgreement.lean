import AttributeStore.Proofs.TextReads

/-!
# Reading a value and reading its text

A value can be read as a primitive, and so can the string of its text.  Both give the same truth
value, and for what is no number they give the same number.  An integer is read as a floating-point
number in two ways that have nothing in common, by rounding it and by reading its digits as a
decimal, and both end at the same number.  The text of an integer is read as an integer only in the
range of the kind, where the direct read does not wrap.  Out of this range the text is refused and
the direct read wraps.

## Main definitions

* `Value.AgreesWithText`: where reading a value and reading its text agree.

## Main results

* `Decimal.readBinary?_numeral`: the numeral of an integer is read as the nearest number.
* `Value.agreesWithText`: the two ways agree.
-/

namespace AttributeStore

open Text (IsInteger IsDigits IsWord)

/-! ### Numerals -/

theorem Text.isDigits_digitsOf (n : Nat) : IsDigits (Text.digitsOf n) :=
  ⟨Text.digitsOf_ne_nil n, fun _ => Text.isDigit_of_mem_digitsOf⟩

theorem Text.isInteger_numeral (n : Int) : IsInteger (Text.numeral n) n :=
  Text.readInteger?_eq_some_iff.1 (Text.readInteger?_numeral n)

/-- A numeral denotes no other integer. -/
theorem Text.isInteger_numeral_iff {n n' : Int} : IsInteger (Text.numeral n) n' ↔ n = n' := by
  rw [← Text.readInteger?_eq_some_iff, Text.readInteger?_numeral, Option.some.injEq]

namespace Decimal

theorem isDecimal_digitsOf (n : Nat) : IsDecimal (Text.digitsOf n) ⟨n, 0⟩ := by
  have hdecimal := IsDecimal.intro (.whole (Text.isDigits_digitsOf n)) .missing
  simpa [Text.digitsValue_digitsOf] using hdecimal

theorem ofScientific_whole {f : Binary.Format} (negative : Bool) (n : Nat) :
    (Binary.ofScientific negative ⟨n, 0⟩ : Binary f) = .ofQuotient negative n 1 := by
  rw [Binary.ofScientific_eq_ofQuotient]
  simp [Scientific.numerator, Scientific.denominator]

/-- The numeral of an integer is read as the number nearest to the integer. -/
theorem readBinary?_numeral (f : Binary.Format) (n : Int) :
    readBinary? f (Text.numeral n) = some (.ofInt n) := by
  have htrim : Text.trim (Text.numeral n) = Text.numeral n :=
    Text.trim_of_not_isBlank fun _ => (Text.isInteger_numeral n).isBlank_of_mem
  have hread {sign : List Char} {negative : Bool} (hsign : Text.IsSign sign negative) {k : Nat}
      (hnumeral : Text.numeral n = sign ++ Text.digitsOf k) :
      readBinary? f (Text.numeral n) = some (.ofQuotient negative k 1) := by
    rw [← ofScientific_whole]
    exact readBinary?_of_isDecimal f hsign (isDecimal_digitsOf k) List.mem_cons_self
      (by rw [htrim, hnumeral, List.append_nil])
  cases n with
  | ofNat k => exact hread .missing rfl
  | negSucc k =>
    rw [hread .minus rfl, Binary.ofInt, decide_eq_true (Int.negSucc_lt_zero k), Int.natAbs_negSucc]

end Decimal

namespace Value

variable {v v' : Value} {p : Primitive} {w : Nat} {n : Int}

/-! ### Values that are no numbers -/

theorem readInteger?_of_not_isNumber {α : Type} (wrap : Int → α) (cut : Binary.Double → α)
    (least greatest : Int) (hv : v.isNumber = false) : v.readInteger? wrap cut least greatest =
      (Text.readInteger? v.chars).bind fun n =>
        if least ≤ n ∧ n ≤ greatest then some (wrap n) else none := by
  cases v <;> first | rfl | cases hv

/-- Values that are no numbers are read as numbers by their texts alone. -/
theorem coerce?_congr_chars (hv : v.isNumber = false) (hv' : v'.isNumber = false)
    (htext : v.chars = v'.chars) (hbool : p ≠ .bool) (hchar : p ≠ .char) :
    v.coerce? p = v'.coerce? p := by
  cases p with
  | bool => exact absurd rfl hbool
  | char => exact absurd rfl hchar
  | byte | short | int | long =>
    simp only [coerce?, readInteger?_of_not_isNumber _ _ _ _ hv,
      readInteger?_of_not_isNumber _ _ _ _ hv', htext]
  | float | double =>
    simp only [coerce?, readFloating?_of_not_isNumber _ hv, readFloating?_of_not_isNumber _ hv',
      htext]

theorem chars_string_text (v : Value) : (string v.text).chars = v.chars := toList_text v

/-! ### Truth values -/

theorem isWord_chars_bool (b : Bool) : IsWord (Text.truthWord b) (bool b).chars :=
  Text.map_toLower_eq_truthWord_iff.1 (by cases b <;> rfl)

/-- A value and its text are read as one truth value. -/
theorem coerce?_bool_string_text (v : Value) : (string v.text).coerce? .bool = v.coerce? .bool := by
  refine Option.ext fun b => ?_
  rw [coerce?_bool_eq_some_iff, coerce?_bool_eq_some_iff, chars_string_text, or_iff_right (by simp)]
  refine ⟨.inr, ?_⟩
  rintro (rfl | hword)
  · exact isWord_chars_bool b
  · exact hword

/-! ### Integers -/

theorem chars_of_integer? (hv : v.integer? = some n) : v.chars = Text.numeral n := by
  cases v with
  | byte m | short m | int m | long m =>
    obtain rfl := Option.some.inj hv
    rfl
  | float | double | null | bool | char | string | list | array | map | set | object => cases hv

/-- The text of an integer is read as the floating-point number that the integer is read as. -/
theorem readFloating?_string_text (f : Binary.Format) (hv : v.integer? = some n) :
    (string v.text).readFloating? f = some (.ofInt n) ∧ v.readFloating? f = some (.ofInt n) := by
  constructor
  · rw [readFloating?_of_not_isNumber f rfl, chars_string_text, chars_of_integer? hv,
      Decimal.readBinary?_numeral]
  · rw [readFloating?, hv]

/-- The text of an integer is read as the integer, if it is in the range of the kind. -/
theorem coerceInteger?_string_text (h : p.integerWidth? = some w) (hv : v.integer? = some n) :
    (string v.text).coerceInteger? p =
      if -2 ^ (w - 1) ≤ n ∧ n < 2 ^ (w - 1) then some n else none := by
  refine Option.ext fun n' => ?_
  rw [coerceInteger?_eq_some_iff h rfl, chars_string_text, chars_of_integer? hv,
    Text.isInteger_numeral_iff, Option.ite_none_right_eq_some, Option.some.injEq]
  constructor
  · rintro ⟨rfl, hrange⟩
    exact ⟨hrange, rfl⟩
  · rintro ⟨hrange, rfl⟩
    exact ⟨rfl, hrange⟩

/-! ### All kinds of values -/

/-- Where reading a value and reading the string of its text agree. -/
structure AgreesWithText : Prop where
  /-- Both give the same truth value. -/
  bool : ∀ v : Value, (string v.text).coerce? .bool = v.coerce? .bool
  /-- What is no number is read as the same number, whatever kind of number is asked for. -/
  other : ∀ v : Value, v.isNumber = false → ∀ p, p ≠ .bool → p ≠ .char →
    (string v.text).coerce? p = v.coerce? p
  /-- An integer is read as the same floating-point number. -/
  floating : ∀ v n, Value.integer? v = some n → ∀ p, p = .float ∨ p = .double →
    ∃ a, v.coerce? p = some a ∧ (string v.text).coerce? p = some a
  /-- The text of an integer is accepted for an integer kind if and only if the integer is in the
  range of the kind.  Then both give the integer; otherwise the direct read wraps it. -/
  integer : ∀ v n, Value.integer? v = some n → ∀ p w, Primitive.integerWidth? p = some w →
    (((string v.text).coerce? p).isSome ↔ -2 ^ (w - 1) ≤ n ∧ n < 2 ^ (w - 1)) ∧
    (-2 ^ (w - 1) ≤ n ∧ n < 2 ^ (w - 1) →
      (string v.text).coerce? p = v.coerce? p ∧ v.coerceInteger? p = some n) ∧
    (¬ (-2 ^ (w - 1) ≤ n ∧ n < 2 ^ (w - 1)) →
      (string v.text).coerce? p = none ∧ v.coerceInteger? p = some (n.bmod (2 ^ w)))

/-- Reading a value and reading its text agree. -/
theorem agreesWithText : AgreesWithText where
  bool v := coerce?_bool_string_text v
  other v hv p hbool hchar := coerce?_congr_chars rfl hv (chars_string_text v) hbool hchar
  floating v n hv p hp := by
    rcases hp with rfl | rfl
    · obtain ⟨htext, hdirect⟩ := readFloating?_string_text .single hv
      exact ⟨_, hdirect, htext⟩
    · obtain ⟨htext, hdirect⟩ := readFloating?_string_text .double hv
      exact ⟨_, hdirect, htext⟩
  integer v n hv p w h := by
    have hw : 0 < w := Nat.lt_of_lt_of_le (by decide) (integerWidth_bounds h).1
    have htext := coerceInteger?_string_text h hv
    have hdirect := coerceInteger?_of_integer? h hv
    have hsome : ((string v.text).coerce? p).isSome ↔ -2 ^ (w - 1) ≤ n ∧ n < 2 ^ (w - 1) := by
      rw [← isSome_coerceInteger? h, htext]
      split <;> simp_all
    refine ⟨hsome, fun hrange => ?_, fun hrange => ⟨?_, hdirect⟩⟩
    · rw [Binary.bmod_of_mem hw hrange] at hdirect
      rw [if_pos hrange, ← hdirect] at htext
      exact ⟨coerce?_eq_of_coerceInteger?_eq h htext, hdirect⟩
    · exact Option.not_isSome_iff_eq_none.1 fun h => hrange (hsome.1 h)

/-- Just out of range the text is refused, and the direct read wraps. -/
example : (string (int 128).text).coerce? .byte = none ∧
    (int 128).coerceInteger? .byte = some (-128) := by
  decide +kernel

end Value

end AttributeStore
