import AttributeStore.Decimal.Layout
import AttributeStore.Proofs.DecimalValue
import AttributeStore.Proofs.NumberText

/-!
# What layouts write

Every layout writes a finite number as the text of a number, with digits that read back.  Zeros that
are put around the shortest digits or taken away from them do not change the value, whichever way a
layout chooses.

## Main definitions

* `Decimal.IsLeading`: digits of which the first is no zero.

## Main results

* `Decimal.Layout.exists_numberText`: magnitudes are written as texts of numbers.
* `Decimal.readBinary?_finiteText`, `Decimal.isNumberToken_finiteText`: what a layout writes reads
  back as the number and is a number token.
-/

namespace AttributeStore

/-! ### Digits with zeros around them -/

namespace Text

variable (digits : List Char) (count : Nat)

theorem digitsValue_append_zeros :
    digitsValue (digits ++ List.replicate count '0') = digitsValue digits * 10 ^ count := by
  rw [digitsValue, Nat.ofDigitChars_append, Nat.ofDigitChars_replicate_zero, Nat.mul_comm,
    digitsValue]

theorem digitsValue_zeros_append :
    digitsValue (List.replicate count '0' ++ digits) = digitsValue digits := by
  rw [digitsValue, Nat.ofDigitChars_append, Nat.ofDigitChars_replicate_zero, Nat.mul_zero,
    digitsValue]

end Text

namespace Decimal

theorem exists_eq_dropTrailingZeros_append (digits : List Char) :
    ∃ zeros, digits = dropTrailingZeros digits ++ List.replicate zeros '0' := by
  have hzeros : digits.reverse.takeWhile (· = '0') =
      List.replicate (digits.reverse.takeWhile (· = '0')).length '0' :=
    List.eq_replicate_of_mem fun c hc => by
      simpa using List.all_eq_true.1 List.all_takeWhile c hc
  refine ⟨(digits.reverse.takeWhile (· = '0')).length, ?_⟩
  rw [dropTrailingZeros, ← List.reverse_replicate, ← hzeros, ← List.reverse_append,
    List.takeWhile_append_dropWhile, List.reverse_reverse]

/-- Digits of a number other than zero, of which the first is no zero. -/
structure IsLeading (digits : List Char) : Prop where
  ne_nil : digits ≠ []
  head?_ne : digits.head? ≠ some '0'
  isDigit : ∀ c ∈ digits, c.isDigit

variable {digits : List Char} {exponent : Int}

theorem IsLeading.exists_eq_cons (h : IsLeading digits) :
    ∃ c rest, digits = c :: rest ∧ c ≠ '0' ∧ c.isDigit := by
  obtain ⟨hne, hhead, hdigits⟩ := h
  cases digits with
  | nil => exact absurd rfl hne
  | cons c rest => exact ⟨c, rest, rfl, by simpa using hhead, hdigits c List.mem_cons_self⟩

/-- The digits of a decimal without the zeros at its end, with the exponent that belongs to them. -/
theorem isLeading_dropTrailingZeros {d : Scientific} (h : d.significand ≠ 0) :
    IsLeading (dropTrailingZeros (Text.digitsOf d.significand)) ∧
      Scientific.value ⟨Text.digitsValue (dropTrailingZeros (Text.digitsOf d.significand)),
        d.leadingExponent + 1 - (dropTrailingZeros (Text.digitsOf d.significand)).length⟩ =
          d.value := by
  obtain ⟨zeros, hzeros⟩ := exists_eq_dropTrailingZeros_append (Text.digitsOf d.significand)
  generalize dropTrailingZeros (Text.digitsOf d.significand) = digits at hzeros ⊢
  have hhead := Text.head?_digitsOf_ne_zero h
  constructor
  · have hne : digits ≠ [] := by
      rintro rfl
      cases zeros with
      | zero => exact Text.digitsOf_ne_nil _ hzeros
      | succ zeros => simp [hzeros, List.replicate_succ] at hhead
    refine ⟨hne, ?_, fun c hc => ?_⟩
    · simpa [hzeros, List.head?_append_of_ne_nil _ hne] using hhead
    · exact Text.isDigit_of_mem_digitsOf (hzeros ▸ List.mem_append_left _ hc)
  · have hsignificand : d.significand = Text.digitsValue digits * 10 ^ zeros := by
      rw [← Text.digitsValue_append_zeros, ← hzeros, Text.digitsValue_digitsOf]
    have hexponent : d.leadingExponent + 1 - digits.length = d.exponent + zeros := by
      simp only [Scientific.leadingExponent, hzeros, List.length_append, List.length_replicate]
      omega
    rw [hexponent, ← Scientific.value_mul_pow _ _ zeros, ← hsignificand, Int.add_sub_cancel]

/-! ### What layouts write -/

theorem positional_of_neg (hdigits : IsLeading digits) (hexponent : exponent < 0) :
    ∃ t : NumberText, positional digits exponent = t.chars ∧
      t.decimal = ⟨Text.digitsValue digits, exponent + 1 - digits.length⟩ := by
  have hfraction : List.replicate (-exponent - 1).toNat '0' ++ digits ≠ [] := by
    simp [hdigits.ne_nil]
  refine ⟨⟨['0'], List.replicate (-exponent - 1).toNat '0' ++ digits, [], 0,
    List.forall_mem_singleton.2 rfl, ?_, rfl, rfl⟩, ?_, ?_⟩
  · intro c hc
    rcases List.mem_append.1 hc with hc | hc
    · rw [List.eq_of_mem_replicate hc]
      decide
    · exact hdigits.isDigit c hc
  · simp [positional, hexponent, NumberText.chars, NumberText.numberEnd, hdigits.ne_nil]
  · simp only [NumberText.decimal, Scientific.mk.injEq]
    constructor
    · exact (congrArg Text.digitsValue (List.append_assoc ..)).symm.trans
        (Text.digitsValue_zeros_append digits ((-exponent - 1).toNat + 1))
    · simp only [List.length_append, List.length_replicate]
      omega

theorem positional_of_nonneg (hdigits : IsLeading digits) (hexponent : 0 ≤ exponent) :
    ∃ t : NumberText, positional digits exponent = t.chars ∧
      t.decimal.value =
        Scientific.value ⟨Text.digitsValue digits, exponent + 1 - digits.length⟩ := by
  obtain ⟨n, rfl⟩ := Int.eq_ofNat_of_zero_le hexponent
  let zeros := n + 1 + 1 - digits.length
  let padded := digits ++ List.replicate zeros '0'
  have hpadded : ∀ c ∈ padded, c.isDigit := by
    intro c hc
    rcases List.mem_append.1 hc with hc | hc
    · exact hdigits.isDigit c hc
    · rw [List.eq_of_mem_replicate hc]
      decide
  have hlength : padded.length = digits.length + zeros := by simp [padded]
  have hwhole : Json.isWholePart (padded.take (n + 1)) = true := by
    obtain ⟨c, rest, rfl, hzero, -⟩ := hdigits.exists_eq_cons
    simp [Json.isWholePart, padded, hzero]
  have hfraction : padded.drop (n + 1) ≠ [] := by
    rw [Ne, List.drop_eq_nil_iff]
    omega
  refine ⟨⟨padded.take (n + 1), padded.drop (n + 1), [], 0,
    fun c hc => hpadded c (List.mem_of_mem_take hc),
    fun c hc => hpadded c (List.mem_of_mem_drop hc), hwhole, rfl⟩, ?_, ?_⟩
  · simp [positional, NumberText.chars, NumberText.numberEnd, hfraction, padded, zeros]
  · -- The zeros behind the digits are taken back by the exponent.
    have hplaces : (0 : Int) - (padded.drop (n + 1)).length = n + 1 - digits.length - zeros := by
      rw [List.length_drop]
      omega
    rw [NumberText.decimal, List.take_append_drop, Text.digitsValue_append_zeros, hplaces,
      Scientific.value_mul_pow]

namespace Layout

variable (layout : Layout)

theorem readExponent?_exponentText (exponent : Int) :
    readExponent? (layout.exponentText exponent) = some exponent := by
  have hsign : Text.readInteger? ((if layout.plusInExponent ∧ 0 ≤ exponent then ['+'] else []) ++
      Text.numeral exponent) = some exponent := by
    split
    next hplus =>
      obtain ⟨n, rfl⟩ := Int.eq_ofNat_of_zero_le hplus.2
      exact (Text.readInteger?_plus_digits fun _ => Text.isDigit_of_mem_digitsOf).trans
        (Text.readInteger?_numeral n)
    next => exact Text.readInteger?_numeral exponent
  simpa [exponentText, readExponent?] using hsign

theorem exponential_eq (hdigits : IsLeading digits) (exponent : Int) :
    ∃ t : NumberText, pointed digits ++ layout.exponentText exponent = t.chars ∧
      t.decimal = ⟨Text.digitsValue digits, exponent + 1 - digits.length⟩ := by
  obtain ⟨c, rest, rfl, hzero, hdigit⟩ := hdigits.exists_eq_cons
  refine ⟨⟨[c], rest, layout.exponentText exponent, exponent, by simpa using hdigit,
    fun _ h => hdigits.isDigit _ (List.mem_cons_of_mem _ h), by simp [Json.isWholePart, hzero],
    layout.readExponent?_exponentText exponent⟩, ?_, ?_⟩
  · cases rest <;> simp [pointed, NumberText.chars, NumberText.numberEnd]
  · simp only [NumberText.decimal, List.singleton_append, Scientific.mk.injEq, List.length_cons,
      true_and]
    omega

/-- Digits are written as the text of a number that has their value. -/
theorem digitsText_eq (hdigits : IsLeading digits) (exponent : Int) :
    ∃ t : NumberText, layout.digitsText digits exponent = t.chars ∧
      t.decimal.value =
        Scientific.value ⟨Text.digitsValue digits, exponent + 1 - digits.length⟩ := by
  simp only [digitsText]
  split
  · rcases Int.lt_or_le exponent 0 with hneg | hnonneg
    · obtain ⟨t, htext, hdecimal⟩ := positional_of_neg hdigits hneg
      exact ⟨t, htext, congrArg _ hdecimal⟩
    · exact positional_of_nonneg hdigits hnonneg
  · obtain ⟨t, htext, hdecimal⟩ := layout.exponential_eq hdigits exponent
    exact ⟨t, htext, congrArg _ hdecimal⟩

variable {f : Binary.Format}

/-- Every layout writes a magnitude as the text of a number, with the value of the shortest
digits. -/
theorem exists_numberText (magnitude : Fin (f.infinity + 1)) :
    ∃ t : NumberText, layout.magnitudeText f magnitude = t.chars ∧
      t.decimal.value = (shortest f layout.tie magnitude).value := by
  simp only [magnitudeText]
  split
  next hzero =>
    have hdigit : ∀ c ∈ ['0'], c.isDigit := List.forall_mem_singleton.2 rfl
    refine ⟨⟨['0'], ['0'], [], 0, hdigit, hdigit, rfl, rfl⟩, rfl, ?_⟩
    have hvalue : Text.digitsValue ['0', '0'] = 0 := by decide
    rw [hzero, shortest_zero]
    simp [NumberText.decimal, Scientific.value, hvalue]
  next hne =>
    obtain ⟨hleading, hvalue⟩ :=
      isLeading_dropTrailingZeros (shortest_significand_ne_zero layout.tie hne)
    obtain ⟨t, htext, hdecimal⟩ := layout.digitsText_eq hleading _
    exact ⟨t, htext, hdecimal.trans hvalue⟩

end Layout

variable (layout : Layout) {f : Binary.Format} (negative : Bool) (magnitude : Fin (f.infinity + 1))

/-- What a layout writes reads back as the number, the sign of a zero included. -/
theorem readBinary?_finiteText :
    readBinary? f (layout.finiteText negative magnitude) = some (.number negative magnitude) := by
  obtain ⟨t, htext, hvalue⟩ := layout.exists_numberText magnitude
  rw [Layout.finiteText, htext, readBinary?_chars, Binary.ofScientific_congr negative hvalue,
    ofScientific_shortest]

/-- What a layout writes is a number token. -/
theorem isNumberToken_finiteText : Json.isNumberToken (layout.finiteText negative magnitude) := by
  obtain ⟨t, htext, -⟩ := layout.exists_numberText magnitude
  exact Json.isNumberToken_iff.2 ⟨negative, t, by rw [Layout.finiteText, htext]⟩

end Decimal

end AttributeStore
