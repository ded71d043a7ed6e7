import AttributeStore.Proofs.IntegerReads
import AttributeStore.Proofs.JsonOutput
import AttributeStore.Proofs.LayoutText
import AttributeStore.Proofs.LiteralGrammar

/-!
# Reading values through their texts

What is no number is read through its text.  It is read as an integer if its text is an integer
within the bounds of the kind, as a truth value if its text is one of the two words, and as a
character if it is one.  Hence sequences, maps and nulls, however deep, are read as nothing at all,
because no such text starts with a bracket, a brace or an `n`.

## Main definitions

* `Text.truthWord`: the words for the truth values.
* `Value.ReadThroughText`: what values that are no numbers are read as.

## Main results

* `Value.readThroughText`: values that are no numbers are read through their texts.
-/

namespace AttributeStore

open Text (IsInteger IsWord)

/-! ### Truth words -/

namespace Text

/-- The word for a truth value. -/
def truthWord : Bool → List Char
  | true => ['t', 'r', 'u', 'e']
  | false => ['f', 'a', 'l', 's', 'e']

theorem map_toLower_eq_truthWord_iff {b : Bool} {text : List Char} :
    text.map Char.toLower = truthWord b ↔ IsWord (truthWord b) text :=
  map_toLower_eq_iff (by cases b <;> simp [truthWord])

/-- A text is at most one of the two words. -/
theorem IsWord.truthWord_unique {b b' : Bool} {text : List Char} (h : IsWord (truthWord b) text)
    (h' : IsWord (truthWord b') text) : b = b' := by
  have hwords := (map_toLower_eq_truthWord_iff.2 h).symm.trans (map_toLower_eq_truthWord_iff.2 h')
  cases b <;> cases b' <;> first | rfl | cases hwords

/-- Each of the words starts with one of two letters. -/
theorem not_isWord_truthWord {c : Char} (hc : c ∉ ['t', 'T', 'f', 'F']) (b : Bool)
    (rest : List Char) : ¬ IsWord (truthWord b) (c :: rest) := by
  intro h
  have hcase (lower upper : Char) (hcodes : upper.toNat + 32 = lower.toNat)
      (h : c = lower ∨ c.toNat + 32 = lower.toNat) : c = lower ∨ c = upper :=
    h.imp_right fun h => Char.toNat_inj.1 (by omega)
  have hletter : c ∈ ['t', 'T', 'f', 'F'] := by
    cases b with
    | true => rcases hcase 't' 'T' rfl (List.forall₂_cons.1 h).1 with rfl | rfl <;> simp
    | false => rcases hcase 'f' 'F' rfl (List.forall₂_cons.1 h).1 with rfl | rfl <;> simp
  exact hc hletter

end Text

namespace Value

/-! ### Truth values and characters -/

section

variable {v : Value} {p : Primitive} {w : Nat} {n : Int} {c : Char}

theorem toList_text (v : Value) : v.text.toList = v.chars := String.toList_ofList

/-- A value is read as a truth value if it is one or its text is the word for it. -/
theorem coerce?_bool_eq_some_iff {b : Bool} :
    v.coerce? .bool = some b ↔ v = .bool b ∨ IsWord (Text.truthWord b) v.chars := by
  by_cases hbool : ∃ b', v = .bool b'
  · obtain ⟨b', rfl⟩ := hbool
    have hself : IsWord (Text.truthWord b') (Value.bool b').chars :=
      Text.map_toLower_eq_truthWord_iff.1 (by cases b' <;> rfl)
    rw [coerce?, readBool?, Option.some.injEq, Value.bool.injEq]
    exact ⟨.inl, fun h => h.elim id hself.truthWord_unique⟩
  · have hread : v.coerce? .bool =
        if v.chars.map Char.toLower = Text.truthWord true then some true
        else if v.chars.map Char.toLower = Text.truthWord false then some false else none := by
      cases v <;> first | rfl | exact absurd ⟨_, rfl⟩ hbool
    rw [or_iff_right fun h => hbool ⟨b, h⟩, ← Text.map_toLower_eq_truthWord_iff, hread]
    generalize v.chars.map Char.toLower = lower
    cases b <;> split_ifs <;> simp_all [Text.truthWord]

/-- A value is read as a character if it is one or a string of one. -/
theorem coerce?_char_eq_some_iff :
    v.coerce? .char = some c ↔ v = .char c ∨ ∃ s, v = .string s ∧ s.toList = [c] := by
  cases v with
  | char c' => simp [coerce?, readChar?]
  | string s =>
    simp only [coerce?, readChar?]
    split <;> simp_all
  | _ => simp [coerce?, readChar?]

/-! ### Integers and literals -/

/-- What is no number is read as an integer if its text is one within the bounds. -/
theorem coerceInteger?_eq_some_iff (h : p.integerWidth? = some w) (hv : v.isNumber = false) :
    v.coerceInteger? p = some n ↔
      IsInteger v.chars n ∧ -2 ^ (w - 1) ≤ n ∧ n < 2 ^ (w - 1) := by
  have hkind : v.integer? = none ∧ v.floating? = none := by
    cases v <;> first | exact ⟨rfl, rfl⟩ | cases hv
  have hw : 0 < w := Nat.lt_of_lt_of_le (by decide) (integerWidth_bounds h).1
  have hmem {n : Int} : -2 ^ (w - 1) ≤ n ∧ n ≤ 2 ^ (w - 1) - 1 ↔
      -2 ^ (w - 1) ≤ n ∧ n < 2 ^ (w - 1) := and_congr_right fun _ => Int.le_sub_one_iff
  rw [coerceInteger?_eq h, readInteger?, hkind.1, hkind.2, Option.bind_eq_some_iff]
  simp only [Text.readInteger?_eq_some_iff, Option.ite_none_right_eq_some, hmem, Option.some.injEq]
  constructor
  · rintro ⟨n', hinteger, hrange, rfl⟩
    rw [Binary.bmod_of_mem hw hrange]
    exact ⟨hinteger, hrange⟩
  · rintro ⟨hinteger, hrange⟩
    exact ⟨n, hinteger, hrange, Binary.bmod_of_mem hw hrange⟩

theorem readFloating?_of_not_isNumber (f : Binary.Format) (hv : v.isNumber = false) :
    v.readFloating? f = Decimal.readBinary? f v.chars := by
  cases v <;> first | rfl | cases hv

/-- The text of what is read as a number is a literal. -/
theorem exists_denotes_of_coerce? (hv : v.isNumber = false) (hbool : p ≠ .bool) (hchar : p ≠ .char)
    (h : (v.coerce? p).isSome) : ∃ l, Decimal.Denotes (Text.trim v.chars) l := by
  have hinteger {w : Nat} (hw : p.integerWidth? = some w) :
      ∃ l, Decimal.Denotes (Text.trim v.chars) l := by
    rw [← isSome_coerceInteger? hw, Option.isSome_iff_exists] at h
    obtain ⟨n, hn⟩ := h
    exact Decimal.exists_denotes_of_isInteger ((coerceInteger?_eq_some_iff hw hv).1 hn).1
  cases p with
  | bool => exact absurd rfl hbool
  | char => exact absurd rfl hchar
  | byte | short | int | long => exact hinteger rfl
  | float | double =>
    rw [coerce?, readFloating?_of_not_isNumber _ hv] at h
    exact (Decimal.isSome_readBinary?_iff (by decide)).1 h

/-- A text that starts like no literal is not read as a number. -/
theorem coerce?_eq_none_of_head {rest : List Char} (hv : v.isNumber = false)
    (htext : v.chars = c :: rest) (hblank : Text.isBlank c = false)
    (hstart : Decimal.isLiteralStart c = false) (hbool : p ≠ .bool) (hchar : p ≠ .char) :
    v.coerce? p = none := by
  rw [← Option.not_isSome_iff_eq_none]
  intro hsome
  obtain ⟨l, hl⟩ := exists_denotes_of_coerce? hv hbool hchar hsome
  rw [htext] at hl
  obtain ⟨c', hc', hstart'⟩ := hl.head?
  rw [Text.head?_trim_cons hblank, Option.mem_some_iff] at hc'
  cases (hc' ▸ hstart).symm.trans hstart'

/-- A text that starts with none of the first letters of the words is not read as a truth value. -/
theorem coerce?_bool_eq_none_of_head {rest : List Char} (hv : ∀ b, v ≠ .bool b)
    (htext : v.chars = c :: rest) (hc : c ∉ ['t', 'T', 'f', 'F']) : v.coerce? .bool = none := by
  rw [Option.eq_none_iff_forall_ne_some]
  intro b hb
  rcases coerce?_bool_eq_some_iff.1 hb with rfl | hword
  · exact hv b rfl
  · exact Text.not_isWord_truthWord hc b rest (htext ▸ hword)

/-- The text of a number is a word or starts with a character of a number token. -/
theorem exists_head_of_isNumber (h : v.isNumber) :
    ∃ c rest, v.chars = c :: rest ∧ (Json.isNumberChar c ∨ c = 'N' ∨ c = 'i') := by
  have htoken {token : List Char} (h : Json.isNumberToken token) :
      ∃ c rest, token = c :: rest ∧ (Json.isNumberChar c ∨ c = 'N' ∨ c = 'i') := by
    obtain ⟨c, rest, rfl⟩ := List.exists_cons_of_ne_nil (Json.isNumberToken_ne_nil h)
    exact ⟨c, rest, rfl, .inl (Json.isNumberChar_of_mem_token h List.mem_cons_self)⟩
  have hbinary {f : Binary.Format} (x : Binary f) :
      ∃ c rest, x.chars = c :: rest ∧ (Json.isNumberChar c ∨ c = 'N' ∨ c = 'i') := by
    cases x with
    | nan => exact ⟨_, _, rfl, .inr (.inl rfl)⟩
    | number negative magnitude =>
      rw [Binary.chars]
      split
      next =>
        cases negative with
        | true => exact ⟨_, _, rfl, .inl rfl⟩
        | false => exact ⟨_, _, rfl, .inr (.inr rfl)⟩
      next => exact htoken (Decimal.isNumberToken_finiteText _ _ _)
  cases v with
  | byte n | short n | int n | long n => exact htoken (Json.isNumberToken_numeral n.toInt)
  | float x | double x => exact hbinary x
  | null | bool | char | string | list | array | map | set | object => cases h

/-- The text of one character is a literal if and only if the character is a digit. -/
theorem isSome_coerce?_singleton (hv : v.isNumber = false) (htext : v.chars = [c])
    (hbool : p ≠ .bool) (hchar : p ≠ .char) : (v.coerce? p).isSome ↔ c.isDigit := by
  constructor
  · intro hsome
    obtain ⟨l, hl⟩ := exists_denotes_of_coerce? hv hbool hchar hsome
    have hinside := Text.trim_isInfix v.chars
    rw [htext] at hl hinside
    obtain ⟨c', hc', hdigit⟩ := hl.exists_isDigit (hinside.length_le.trans_lt (by simp))
    rwa [List.mem_singleton.1 (hinside.subset hc')] at hdigit
  · intro hdigit
    have hinteger : IsInteger [c] (Text.signed false (Text.digitsValue [c])) :=
      .intro .missing ⟨List.cons_ne_nil c [], List.forall_mem_singleton.2 hdigit⟩
    have hvalue := Text.digitsValue_singleton_lt hdigit
    have hkinds {w : Nat} (hw : p.integerWidth? = some w) : (v.coerce? p).isSome := by
      have hbound : (2 : Int) ^ 7 ≤ 2 ^ (w - 1) :=
        pow_le_pow_right₀ (by decide) (Nat.le_sub_one_of_lt (integerWidth_bounds hw).1)
      have hread : v.coerceInteger? p = some (Text.digitsValue [c] : Int) :=
        (coerceInteger?_eq_some_iff hw hv).2 ⟨htext ▸ hinteger, by omega, by omega⟩
      rw [← isSome_coerceInteger? hw, hread, Option.isSome_some]
    have hliteral : ∃ l, Decimal.Denotes (Text.trim v.chars) l :=
      Decimal.exists_denotes_of_isInteger (htext ▸ hinteger)
    cases p with
    | bool => exact absurd rfl hbool
    | char => exact absurd rfl hchar
    | byte | short | int | long => exact hkinds rfl
    | float | double =>
      rw [coerce?, readFloating?_of_not_isNumber _ hv]
      exact (Decimal.isSome_readBinary?_iff (by decide)).2 hliteral

end

/-! ### All kinds of values -/

/-- How values that are no numbers are read, and how numbers are read as what is no number. -/
structure ReadThroughText : Prop where
  /-- The integer kinds accept the integers within their bounds, with leading zeros and with nothing
  around them. -/
  integer_iff : ∀ v : Value, v.isNumber = false → ∀ p w n, Primitive.integerWidth? p = some w →
    (v.coerceInteger? p = some n ↔
      IsInteger v.text.toList n ∧ -2 ^ (w - 1) ≤ n ∧ n < 2 ^ (w - 1))
  /-- A truth value is one or a word for it, in either case. -/
  bool_iff : ∀ (v : Value) (b : Bool),
    v.coerce? .bool = some b ↔ v = .bool b ∨ IsWord (Text.truthWord b) v.text.toList
  /-- A character is one or a string of it. -/
  char_iff : ∀ (v : Value) (c : Char),
    v.coerce? .char = some c ↔ v = .char c ∨ ∃ s, v = .string s ∧ s.toList = [c]
  /-- Nothing is read from the absence of a value. -/
  null : ∀ p, Value.null.coerce? p = none
  /-- Nothing is read from sequences and sets. -/
  sequence : ∀ items p, (Value.list items).coerce? p = none ∧
    (Value.array items).coerce? p = none ∧ (Value.set items).coerce? p = none
  /-- Nothing is read from maps. -/
  map : ∀ entries p, (Value.map entries).coerce? p = none
  /-- Truth values are neither numbers nor characters. -/
  bool : ∀ b p, p ≠ .bool → (Value.bool b).coerce? p = none
  /-- Of the characters only the digits are numbers. -/
  char : ∀ c p, p ≠ .bool → p ≠ .char → (((Value.char c).coerce? p).isSome ↔ c.isDigit)
  /-- An object is read as the string of its text, but it is no character. -/
  object : ∀ o p, (Value.object o).coerce? p =
    if p = .char then none else (Value.string o.text).coerce? p
  /-- Numbers are neither truth values nor characters. -/
  number : ∀ v : Value, v.isNumber → v.coerce? .bool = none ∧ v.coerce? .char = none

/-- A value that starts like no literal and no truth word is read as nothing but a character. -/
theorem coerce?_eq_none_of_text {v : Value} {c : Char} {rest : List Char} (p : Primitive)
    (hnumber : v.isNumber = false) (hchar : v.coerce? .char = none) (hbool : ∀ b, v ≠ .bool b)
    (htext : v.chars = c :: rest) (hblank : Text.isBlank c = false)
    (hstart : Decimal.isLiteralStart c = false) (hword : c ∉ ['t', 'T', 'f', 'F']) :
    v.coerce? p = none := by
  by_cases hp : p = .char
  · rwa [hp]
  · by_cases hp' : p = .bool
    · rw [hp']
      exact coerce?_bool_eq_none_of_head hbool htext hword
    · exact coerce?_eq_none_of_head hnumber htext hblank hstart hp' hp

/-- Values that are no numbers are read through their texts. -/
theorem readThroughText : ReadThroughText where
  integer_iff v hv p w n h := by rw [toList_text, coerceInteger?_eq_some_iff h hv]
  bool_iff v b := by rw [toList_text, coerce?_bool_eq_some_iff]
  char_iff v c := coerce?_char_eq_some_iff
  null p := coerce?_eq_none_of_text p rfl rfl (fun b => by simp) rfl rfl rfl (by simp)
  sequence items p := by
    refine ⟨?_, ?_, ?_⟩ <;>
      exact coerce?_eq_none_of_text p rfl rfl (fun b => by simp) rfl rfl rfl (by simp)
  map entries p := coerce?_eq_none_of_text p rfl rfl (fun b => by simp) rfl rfl rfl (by simp)
  bool b p hbool := by
    by_cases hchar : p = .char
    · subst hchar
      rfl
    · cases b <;> exact coerce?_eq_none_of_head rfl rfl rfl rfl hbool hchar
  char c p hbool hchar := isSome_coerce?_singleton rfl rfl hbool hchar
  object o p := by
    split
    next hchar =>
      subst hchar
      rfl
    next hchar => cases p <;> first | rfl | exact absurd rfl hchar
  number v hv := by
    obtain ⟨c, rest, htext, hc⟩ := exists_head_of_isNumber hv
    refine ⟨coerce?_bool_eq_none_of_head ?_ htext ?_, ?_⟩
    · rintro b rfl
      cases hv
    · intro hletter
      simp only [List.mem_cons, List.not_mem_nil, or_false] at hletter
      rcases hletter with rfl | rfl | rfl | rfl <;> rcases hc with hc | hc | hc <;> cases hc
    · cases v <;> first | rfl | cases hv

/-- Signs and leading zeros are read, and the bounds are exact. -/
example : (string "-000128").coerceInteger? .byte = some (-128) ∧
    (string "+127").coerceInteger? .byte = some 127 ∧
      (string "128").coerceInteger? .byte = none := by
  decide +kernel

end Value

end AttributeStore
