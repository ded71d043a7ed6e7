import AttributeStore.Proofs.JsonOutput
import AttributeStore.Proofs.Precision
import AttributeStore.Proofs.TextRoundTrip

/-!
# Shortest texts of floating-point numbers

A finite floating-point number is written in two ways, for readers and as a number token, with
layouts that differ in their thresholds.  Both texts carry the sign of the number, also that of a
zero, and show a decimal that is rounded to the number and has as few significant digits as such a
decimal can have.  Both are read back as the number, whichever of its two forms a layout chooses.

## Main definitions

* `Decimal.Layout.IsPositional`: the values that a layout writes without an exponent.
* `Binary.IsShortestText`: what a text shows of a finite number.

## Main results

* `Decimal.Layout.e_mem_magnitudeText_iff`: when a layout writes an exponent.
* `Binary.isShortestText_finiteText`: what layouts write.
* `Value.texts_shortest`: both texts of all finite numbers of both formats.
-/

namespace AttributeStore

/-! ### Layouts -/

namespace Scientific

variable {d : Scientific}

/-- The powers of ten up to the first digit are those that a decimal reaches. -/
theorem pow_le_value_iff (h : d.significand ≠ 0) (exponent : Int) :
    (10 : ℚ) ^ exponent ≤ d.value ↔ exponent ≤ d.leadingExponent := by
  constructor
  · intro hle
    have hlt := hle.trans_lt d.value_lt_pow_leadingExponent
    exact Int.lt_add_one_iff.1 ((zpow_lt_zpow_iff_right₀ (by norm_num)).1 hlt)
  · intro hle
    exact ((zpow_le_zpow_iff_right₀ (by norm_num)).2 hle).trans (pow_leadingExponent_le_value h)

theorem value_eq_zero_iff : d.value = 0 ↔ d.significand = 0 := by
  have hten : (10 : ℚ) ^ d.exponent ≠ 0 := by positivity
  rw [value, mul_eq_zero, or_iff_left hten, Nat.cast_eq_zero]

end Scientific

namespace Decimal

theorem isDigit_or_of_mem_positional {digits : List Char} {exponent : Int} {c : Char}
    (hdigits : ∀ c ∈ digits, c.isDigit) (h : c ∈ positional digits exponent) :
    c.isDigit ∨ c = '.' := by
  have hzeros {count : Nat} (h : c ∈ digits ++ List.replicate count '0') : c.isDigit := by
    rcases List.mem_append.1 h with h | h
    · exact hdigits c h
    · rw [List.eq_of_mem_replicate h]
      decide
  rw [positional] at h
  split at h
  · rcases List.mem_cons.1 h with rfl | h
    · exact .inl (by decide)
    · rcases List.mem_cons.1 h with rfl | h
      · exact .inr rfl
      · exact .inl (hzeros (List.mem_append.2 (List.mem_append.1 h).symm))
  · rcases List.mem_append.1 h with h | h
    · exact .inl (hzeros (List.mem_of_mem_take h))
    · rcases List.mem_cons.1 h with rfl | h
      · exact .inr rfl
      · exact .inl (hzeros (List.mem_of_mem_drop h))

namespace Layout

variable (layout : Layout)

/-- The values that a layout writes without an exponent: zero, and those between its thresholds. -/
def IsPositional (q : ℚ) : Prop :=
  q = 0 ∨ 10 ^ layout.positionalFrom ≤ q ∧ q < 10 ^ layout.positionalBelow

theorem e_mem_digitsText_iff {digits : List Char} (hdigits : ∀ c ∈ digits, c.isDigit)
    (exponent : Int) : 'e' ∈ layout.digitsText digits exponent ↔
      ¬ (layout.positionalFrom ≤ exponent ∧ exponent < layout.positionalBelow) := by
  rw [digitsText]
  split
  next hpositional =>
    refine iff_of_false (fun h => ?_) (not_not_intro hpositional)
    rcases isDigit_or_of_mem_positional hdigits h with h | h <;> cases h
  next hexponential =>
    exact iff_of_true (List.mem_append_right _ List.mem_cons_self) hexponential

/-- A layout writes an exponent beyond its thresholds. -/
theorem e_mem_magnitudeText_iff {f : Binary.Format} (magnitude : Fin (f.infinity + 1)) :
    'e' ∈ layout.magnitudeText f magnitude ↔
      ¬ layout.IsPositional (shortest f layout.tie magnitude).value := by
  rw [magnitudeText]
  split
  next hzero =>
    rw [hzero, shortest_zero]
    exact iff_of_false (by decide) (not_not_intro (.inl (Scientific.value_eq_zero_iff.2 rfl)))
  next hne =>
    have hsignificand := shortest_significand_ne_zero layout.tie hne
    rw [layout.e_mem_digitsText_iff (isLeading_dropTrailingZeros hsignificand).1.isDigit,
      IsPositional, Scientific.value_eq_zero_iff, or_iff_right hsignificand,
      Scientific.pow_le_value_iff hsignificand, ← not_le (b := Scientific.value _),
      Scientific.pow_le_value_iff hsignificand, not_le]

end Layout

end Decimal

/-! ### Texts of finite numbers -/

namespace Binary

variable {f : Format}

/-- What a text shows of a finite number. -/
structure IsShortestText (layout : Decimal.Layout) (x : Binary f) (digits : Nat)
    (text : String) : Prop where
  /-- The sign of the number and a decimal that is rounded to it, with so many significant digits,
  and with an exponent beyond the thresholds of the layout. -/
  shown : ∃ (unsigned : List Char) (d : Scientific),
    text.toList = (if x.isNegative then ['-'] else []) ++ unsigned ∧
    Decimal.IsDecimal unsigned d ∧ IsRounded x.isNegative d.value x ∧ d.precision = digits ∧
    ('e' ∈ unsigned ↔ ¬ layout.IsPositional d.value)
  /-- No decimal that is rounded to the number has fewer significant digits. -/
  least : ∀ (negative : Bool) (d : Scientific), IsRounded negative d.value x → digits ≤ d.precision

/-- Layouts write the shortest digits. -/
theorem isShortestText_finiteText (hf : 0 < f.fractionBits) (layout : Decimal.Layout)
    (negative : Bool) (magnitude : Fin (f.infinity + 1)) :
    IsShortestText layout (number negative magnitude)
      (Decimal.shortest f layout.tie magnitude).precision
      (String.ofList (layout.finiteText negative magnitude)) where
  shown := by
    obtain ⟨t, htext, hvalue⟩ := layout.exists_numberText magnitude
    refine ⟨t.chars, t.decimal, ?_, t.isDecimal_chars, ?_, Scientific.precision_congr hvalue, ?_⟩
    · rw [String.toList_ofList, Decimal.Layout.finiteText, htext]
      rfl
    · have hrounded := isRounded_ofScientific (f := f) hf negative
        (Decimal.shortest f layout.tie magnitude)
      rw [Decimal.ofScientific_shortest, ← hvalue] at hrounded
      exact hrounded
    · rw [← htext, hvalue]
      exact layout.e_mem_magnitudeText_iff magnitude
  least negative' d h := by
    obtain ⟨m, heq, hm⟩ := h
    rw [number.injEq] at heq
    rw [heq.2]
    exact Decimal.precision_shortest_le hf layout.tie hm

/-- Both texts of a finite number have equally many digits, and both are read as the number. -/
theorem exists_shortestTexts (hf : 0 < f.fractionBits) (layout : Decimal.Layout) {x : Binary f}
    (h : x.IsFinite) : ∃ digits, IsShortestText textLayout x digits (String.ofList x.chars) ∧
      IsShortestText layout x digits (x.toJson layout).compact ∧
      ∀ text ∈ [String.ofList x.chars, (x.toJson layout).compact],
        Decimal.readBinary? f text.toList = some x := by
  cases x with
  | nan => exact h.elim
  | number negative magnitude =>
    have htoken : ((number negative magnitude).toJson layout).compact =
        String.ofList (layout.finiteText negative magnitude) := by
      rw [toJson_number layout h, Json.compact, Json.chars, String.toList_ofList]
    rw [Value.chars_number h, htoken]
    refine ⟨_, isShortestText_finiteText hf textLayout negative magnitude, ?_, ?_⟩
    · rw [Decimal.precision_shortest_eq hf textLayout.tie layout.tie]
      exact isShortestText_finiteText hf layout negative magnitude
    · simp only [List.mem_cons, List.not_mem_nil, or_false]
      rintro text (rfl | rfl) <;> rw [String.toList_ofList, Decimal.readBinary?_finiteText]

/-- The bits of a number that is given by its bits. -/
theorem toBits_ofBits {bits : Nat} (hbits : bits < 2 ^ (f.signBit + 1))
    (h : (ofBits bits : Binary f).IsFinite) : (ofBits bits : Binary f).toBits = bits := by
  have hsign : bits / 2 ^ f.signBit < 2 := by
    rwa [Nat.div_lt_iff_lt_mul (Nat.two_pow_pos _), ← pow_succ']
  rw [ofBits] at h ⊢
  split
  · rw [toBits, Nat.toNat_testBit, Nat.mod_eq_of_lt hsign]
    exact Nat.div_add_mod' bits (2 ^ f.signBit)
  next hlarge =>
    rw [dif_neg hlarge] at h
    exact h.elim

end Binary

namespace Value

open Binary (ofBits)

/-- Both texts of every finite number of either format show its sign and as few digits as possible,
and they are read back as the same bits. -/
theorem texts_shortest :
    (∀ bits < 2 ^ 32, (ofBits bits : Binary.Single).IsFinite → ∃ digits,
      Binary.IsShortestText Binary.textLayout (ofBits bits : Binary.Single) digits
        (float (ofBits bits)).text ∧
      Binary.IsShortestText Binary.singleTokenLayout (ofBits bits : Binary.Single) digits
        (float (ofBits bits)).json ∧
      ∀ text ∈ [(float (ofBits bits)).text, (float (ofBits bits)).json],
        ∃ x, (string text).coerce? .float = some x ∧ x.toBits = bits) ∧
    ∀ bits < 2 ^ 64, (ofBits bits : Binary.Double).IsFinite → ∃ digits,
      Binary.IsShortestText Binary.textLayout (ofBits bits : Binary.Double) digits
        (double (ofBits bits)).text ∧
      Binary.IsShortestText Binary.doubleTokenLayout (ofBits bits : Binary.Double) digits
        (double (ofBits bits)).json ∧
      ∀ text ∈ [(double (ofBits bits)).text, (double (ofBits bits)).json],
        ∃ x, (string text).coerce? .double = some x ∧ x.toBits = bits := by
  constructor
  · intro bits hbits h
    obtain ⟨digits, htext, htoken, hread⟩ :=
      Binary.exists_shortestTexts (by decide) Binary.singleTokenLayout h
    exact ⟨digits, htext, htoken, fun text hmem =>
      ⟨_, hread text hmem, Binary.toBits_ofBits hbits h⟩⟩
  · intro bits hbits h
    obtain ⟨digits, htext, htoken, hread⟩ :=
      Binary.exists_shortestTexts (by decide) Binary.doubleTokenLayout h
    exact ⟨digits, htext, htoken, fun text hmem =>
      ⟨_, hread text hmem, Binary.toBits_ofBits hbits h⟩⟩

/-- A number of 32 bits whose token has an exponent and whose text has none, and the negative zero
of 64 bits. -/
theorem texts_shortest_of_threshold :
    ((ofBits 0x551184e7 : Binary.Single).IsFinite ∧ ∃ digits,
      Binary.IsShortestText Binary.textLayout (ofBits 0x551184e7 : Binary.Single) digits
        "10000000000000.0" ∧
      Binary.IsShortestText Binary.singleTokenLayout (ofBits 0x551184e7 : Binary.Single) digits
        "1e+13" ∧
      ∃ x, (string "1e+13").coerce? .float = some x ∧ x.toBits = 0x551184e7) ∧
    (ofBits (2 ^ 63) : Binary.Double).IsFinite ∧ ∃ digits,
      Binary.IsShortestText Binary.textLayout (ofBits (2 ^ 63) : Binary.Double) digits "-0.0" ∧
      Binary.IsShortestText Binary.doubleTokenLayout (ofBits (2 ^ 63) : Binary.Double) digits
        "-0.0" ∧
      ∃ x, (string "-0.0").coerce? .double = some x ∧ x.toBits = 2 ^ 63 := by
  have hthreshold : (ofBits 0x551184e7 : Binary.Single).IsFinite :=
    fun h => absurd (congrArg Fin.val h) (by decide +kernel)
  have hzero : (ofBits (2 ^ 63) : Binary.Double).IsFinite :=
    fun h => absurd (congrArg Fin.val h) (by decide +kernel)
  have htext : (float (ofBits 0x551184e7)).text = "10000000000000.0" := by decide +kernel
  have htoken : (float (ofBits 0x551184e7)).json = "1e+13" := by decide +kernel
  have hzeroText : (double (ofBits (2 ^ 63))).text = "-0.0" := by decide +kernel
  have hzeroToken : (double (ofBits (2 ^ 63))).json = "-0.0" := by decide +kernel
  constructor
  · obtain ⟨digits, hshown, hshown', hread⟩ := texts_shortest.1 _ (by decide) hthreshold
    rw [htext, htoken] at hread
    exact ⟨hthreshold, digits, htext ▸ hshown, htoken ▸ hshown', hread _ (by simp)⟩
  · obtain ⟨digits, hshown, hshown', hread⟩ := texts_shortest.2 _ (by decide) hzero
    rw [hzeroText, hzeroToken] at hread
    exact ⟨hzero, digits, hzeroText ▸ hshown, hzeroToken ▸ hshown', hread _ (by simp)⟩

end Value

end AttributeStore
