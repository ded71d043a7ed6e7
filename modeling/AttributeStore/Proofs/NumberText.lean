import AttributeStore.Json.Reader
import AttributeStore.Proofs.DecimalGrammar

/-!
# The texts of numbers

The text of a number without its sign has a whole part, perhaps a fraction, and perhaps an exponent.
The texts of this form are the number tokens of JSON without a sign, and all of them are
floating-point literals.

## Main definitions

* `NumberText`: the parts of such a text.

## Main results

* `Json.isUnsignedToken_iff`, `Json.isNumberToken_iff`: these texts are the number tokens.
* `Json.isNumberToken_numeral`: the numeral of an integer is a number token.
* `Decimal.readBinary?_chars`: what a text of this form is read as.
-/

namespace AttributeStore

/-- The parts of the text of a number without its sign. -/
structure NumberText where
  /-- The digits in front of the point. -/
  whole : List Char
  /-- The digits behind the point.  If there are none, there is no point either. -/
  fraction : List Char
  /-- The exponent with its mark, or nothing. -/
  exponentText : List Char
  /-- What the exponent is read as. -/
  exponent : Int
  isDigit_of_mem_whole : ∀ c ∈ whole, c.isDigit
  isDigit_of_mem_fraction : ∀ c ∈ fraction, c.isDigit
  isWholePart_whole : Json.isWholePart whole
  readExponent?_exponentText : Decimal.readExponent? exponentText = some exponent

namespace NumberText

variable (t : NumberText)

/-- What stands behind the whole part. -/
def numberEnd : List Char :=
  (if t.fraction = [] then [] else '.' :: t.fraction) ++ t.exponentText

/-- The whole text. -/
def chars : List Char := t.whole ++ t.numberEnd

/-- The decimal that the text denotes. -/
def decimal : Scientific :=
  ⟨Text.digitsValue (t.whole ++ t.fraction), t.exponent - t.fraction.length⟩

theorem whole_ne_nil : t.whole ≠ [] := by
  intro h
  have hpart := t.isWholePart_whole
  simp [h, Json.isWholePart] at hpart

theorem isExponent_exponentText : Decimal.IsExponent t.exponentText t.exponent :=
  Decimal.readExponent?_eq_some_iff.1 t.readExponent?_exponentText

theorem head?_exponentText {c : Char} (h : c ∈ t.exponentText.head?) :
    c.isDigit = false ∧ c ≠ '.' :=
  t.isExponent_exponentText.head? h

theorem head?_numberEnd {c : Char} (h : c ∈ t.numberEnd.head?) : c.isDigit = false := by
  by_cases hfraction : t.fraction = []
  · exact (t.head?_exponentText (by simpa [numberEnd, hfraction] using h)).1
  · obtain rfl : '.' = c := by simpa [numberEnd, hfraction] using h
    decide

theorem splitDigits_chars : Decimal.splitDigits t.chars = (t.whole, t.numberEnd) :=
  Decimal.splitDigits_append t.isDigit_of_mem_whole fun _ => t.head?_numberEnd

theorem splitDigits_fraction :
    Decimal.splitDigits (t.fraction ++ t.exponentText) = (t.fraction, t.exponentText) :=
  Decimal.splitDigits_append t.isDigit_of_mem_fraction fun _ h => (t.head?_exponentText h).1

/-- Only the characters of number tokens occur. -/
theorem isNumberChar_of_mem_chars {c : Char} (h : c ∈ t.chars) : Json.isNumberChar c := by
  have hdigit {c : Char} (h : c.isDigit) : Json.isNumberChar c := by simp [Json.isNumberChar, h]
  have hexponent {text : List Char} {exponent : Int} (htext : Decimal.IsExponent text exponent) :
      ∀ c ∈ text, Json.isNumberChar c := by
    cases htext with
    | missing => exact List.forall_mem_nil _
    | marked hmark hinteger =>
      rintro c (_ | ⟨_, hc⟩)
      · rcases hmark with rfl | rfl <;> rfl
      · rcases hinteger.mem_cases hc with hc | rfl | rfl
        · exact hdigit hc
        all_goals rfl
  simp only [chars, numberEnd, List.mem_append] at h
  rcases h with h | h | h
  · exact hdigit (t.isDigit_of_mem_whole c h)
  · split at h
    · cases h
    · rcases List.mem_cons.1 h with rfl | h
      · decide
      · exact hdigit (t.isDigit_of_mem_fraction c h)
  · exact hexponent t.isExponent_exponentText c h

theorem exists_chars_eq_cons : ∃ c rest, c.isDigit ∧ t.chars = c :: rest := by
  have hdigits := t.isDigit_of_mem_whole
  rw [chars]
  cases h : t.whole with
  | nil => exact absurd h t.whole_ne_nil
  | cons c rest => exact ⟨c, _, hdigits c (h ▸ List.mem_cons_self), rfl⟩

/-- The text of a number is the text of a decimal. -/
theorem isDecimal_chars : Decimal.IsDecimal t.chars t.decimal := by
  have hwhole : Text.IsDigits t.whole := ⟨t.whole_ne_nil, t.isDigit_of_mem_whole⟩
  by_cases hfraction : t.fraction = []
  · have hdecimal := Decimal.IsDecimal.intro (.whole hwhole) t.isExponent_exponentText
    simpa [chars, numberEnd, decimal, hfraction] using hdecimal
  · have hdecimal := Decimal.IsDecimal.intro (.pointed hwhole t.isDigit_of_mem_fraction)
      t.isExponent_exponentText
    simpa [chars, numberEnd, decimal, hfraction] using hdecimal

end NumberText

/-! ### Number tokens -/

namespace Json

theorem isNumberEnd_numberEnd (t : NumberText) : isNumberEnd t.numberEnd = true := by
  have hexponent : (Decimal.readExponent? t.exponentText).isSome = true := by
    simp [t.readExponent?_exponentText]
  by_cases hfraction : t.fraction = []
  · rw [NumberText.numberEnd, if_pos hfraction, List.nil_append]
    unfold isNumberEnd
    split
    next rest heq =>
      -- An exponent does not start with a point.
      exact absurd rfl (t.head?_exponentText (c := '.') (by simp [heq])).2
    next => exact hexponent
  · simp [NumberText.numberEnd, hfraction, isNumberEnd, t.splitDigits_fraction, hexponent]

theorem isUnsignedToken_chars (t : NumberText) : isUnsignedToken t.chars = true := by
  simp [isUnsignedToken, t.splitDigits_chars, t.isWholePart_whole, isNumberEnd_numberEnd]

private theorem exists_numberText_of_isNumberEnd {whole numberEnd : List Char}
    (hdigits : ∀ c ∈ whole, c.isDigit) (hwhole : isWholePart whole) (h : isNumberEnd numberEnd) :
    ∃ t : NumberText, whole ++ numberEnd = t.chars := by
  unfold isNumberEnd at h
  split at h
  next rest =>
    cases hsplit : Decimal.splitDigits rest with
    | mk fraction exponentText =>
      obtain ⟨hfraction, rfl⟩ := Decimal.splitDigits_eq hsplit
      simp only [hsplit, Bool.and_eq_true, decide_eq_true_eq, Option.isSome_iff_exists] at h
      obtain ⟨hne, exponent, hexponent⟩ := h
      exact ⟨⟨whole, fraction, exponentText, exponent, hdigits, hfraction, hwhole, hexponent⟩,
        by simp [NumberText.chars, NumberText.numberEnd, hne]⟩
  next =>
    obtain ⟨exponent, hexponent⟩ := Option.isSome_iff_exists.1 h
    exact ⟨⟨whole, [], numberEnd, exponent, hdigits, by simp, hwhole, hexponent⟩,
      by simp [NumberText.chars, NumberText.numberEnd]⟩

/-- The number tokens without a sign. -/
theorem isUnsignedToken_iff {token : List Char} :
    isUnsignedToken token ↔ ∃ t : NumberText, token = t.chars := by
  constructor
  · intro h
    cases hsplit : Decimal.splitDigits token with
    | mk whole numberEnd =>
      obtain ⟨hdigits, rfl⟩ := Decimal.splitDigits_eq hsplit
      simp only [isUnsignedToken, hsplit, Bool.and_eq_true] at h
      exact exists_numberText_of_isNumberEnd hdigits h.1 h.2
  · rintro ⟨t, rfl⟩
    exact isUnsignedToken_chars t

/-- A number token, with its sign. -/
theorem isNumberToken_iff {token : List Char} :
    isNumberToken token ↔
      ∃ (negative : Bool) (t : NumberText),
        token = (if negative then ['-'] else []) ++ t.chars := by
  unfold isNumberToken
  split
  next token =>
    rw [isUnsignedToken_iff]
    constructor
    · rintro ⟨t, rfl⟩
      exact ⟨true, t, rfl⟩
    · rintro ⟨negative, t, h⟩
      obtain ⟨c, rest, hdigit, ht⟩ := t.exists_chars_eq_cons
      cases negative with
      | true => exact ⟨t, by simpa using h⟩
      | false =>
        -- The token starts with a minus, but a text without a sign starts with a digit.
        obtain ⟨rfl, -⟩ : '-' = c ∧ _ := by simpa [ht] using h
        cases hdigit
  next hsign =>
    rw [isUnsignedToken_iff]
    constructor
    · rintro ⟨t, rfl⟩
      exact ⟨false, t, rfl⟩
    · rintro ⟨negative, t, h⟩
      cases negative with
      | true => exact absurd h (hsign t.chars)
      | false => exact ⟨t, h⟩

/-- The characters of a number token. -/
theorem isNumberChar_of_mem_token {token : List Char} (h : isNumberToken token) {c : Char}
    (hc : c ∈ token) : isNumberChar c := by
  obtain ⟨negative, t, rfl⟩ := isNumberToken_iff.1 h
  rcases List.mem_append.1 hc with hc | hc
  · obtain rfl : c = '-' := by cases negative <;> simp_all
    decide
  · exact t.isNumberChar_of_mem_chars hc

theorem isNumberToken_ne_nil {token : List Char} (h : isNumberToken token) : token ≠ [] := by
  obtain ⟨negative, t, rfl⟩ := isNumberToken_iff.1 h
  obtain ⟨c, rest, -, ht⟩ := t.exists_chars_eq_cons
  simp [ht]

/-- The numeral of an integer is a number token. -/
theorem isNumberToken_numeral (i : Int) : isNumberToken (Text.numeral i) := by
  have hwhole (n : Nat) : isWholePart (Text.digitsOf n) := by
    by_cases hzero : n = 0
    · simp [hzero, isWholePart, Text.digitsOf]
    · simp [isWholePart, Text.digitsOf_ne_nil, Text.head?_digitsOf_ne_zero hzero]
  have hunsigned (n : Nat) : ∃ t : NumberText, Text.digitsOf n = t.chars :=
    ⟨⟨Text.digitsOf n, [], [], 0, fun c => Text.isDigit_of_mem_digitsOf, by simp, hwhole n, rfl⟩,
      by simp [NumberText.chars, NumberText.numberEnd]⟩
  rw [isNumberToken_iff]
  cases i with
  | ofNat n =>
    obtain ⟨t, ht⟩ := hunsigned n
    exact ⟨false, t, ht⟩
  | negSucc n =>
    obtain ⟨t, ht⟩ := hunsigned (n + 1)
    exact ⟨true, t, by simp [Text.numeral, ht]⟩

end Json

/-! ### Literals -/

theorem Json.isBlank_of_isNumberChar {c : Char} (h : isNumberChar c) : Text.isBlank c = false := by
  simp only [isNumberChar, Bool.or_eq_true, decide_eq_true_eq] at h
  rcases h with ((((hdigit | rfl) | rfl) | rfl) | rfl) | rfl
  · have hcode := Text.toNat_of_isDigit hdigit
    exact Text.isBlank_of_mem_range (by omega)
  all_goals rfl

namespace Decimal

/-- The text of a number is a literal, with and without a minus sign. -/
theorem readBinary?_chars (f : Binary.Format) (negative : Bool) (t : NumberText) :
    readBinary? f ((if negative then ['-'] else []) ++ t.chars) =
      some (.ofScientific negative t.decimal) := by
  have hblank : ∀ c ∈ (if negative then ['-'] else []) ++ t.chars, Text.isBlank c = false :=
    fun c hc => Json.isBlank_of_isNumberChar
      (Json.isNumberChar_of_mem_token (Json.isNumberToken_iff.2 ⟨negative, t, rfl⟩) hc)
  have hsign : Text.IsSign (if negative then ['-'] else []) negative := by
    cases negative with
    | true => exact .minus
    | false => exact .missing
  refine readBinary?_of_isDecimal f hsign t.isDecimal_chars List.mem_cons_self ?_
  rw [Text.trim_of_not_isBlank hblank, List.append_nil]

end Decimal

end AttributeStore
