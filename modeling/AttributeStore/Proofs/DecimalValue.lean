import AttributeStore.Decimal.Shortest
import AttributeStore.Proofs.Rounding
import Mathlib.Algebra.Order.Field.Power
import Mathlib.Data.Rat.Cast.Order
import Mathlib.Tactic.FieldSimp
import Mathlib.Tactic.NormNum
import Mathlib.Tactic.Positivity

/-!
# The value of a decimal

A decimal stands for a rational number, and what it is rounded to depends on this number alone.  The
answers that are given without forming the power of ten are the right ones.  The shortest digits of
a magnitude are digits of a decimal that is rounded to this magnitude.

## Main definitions

* `Scientific.value`: the rational number that a decimal stands for.

## Main results

* `Binary.ofScientific_eq_ofQuotient`, `Binary.ofScientific_congr`: rounding a decimal.
* `Decimal.ofScientific_shortest`: the shortest digits read back.
-/

namespace AttributeStore

namespace Text

theorem lt_pow_length_digitsOf (n : Nat) : n < 10 ^ (digitsOf n).length :=
  (Nat.length_toDigits_le_iff (by decide) Nat.length_toDigits_pos).1 (Nat.le_refl _)

theorem pow_length_digitsOf_le {n : Nat} (hn : n ≠ 0) : 10 ^ ((digitsOf n).length - 1) ≤ n := by
  by_contra h
  rcases Nat.eq_zero_or_pos ((digitsOf n).length - 1) with hone | hmore
  · simp [hone] at h
    exact hn h
  · have hlength := (Nat.length_toDigits_le_iff (by decide) hmore).2 (Nat.not_le.1 h)
    simp only [digitsOf] at hlength hmore
    omega

end Text

namespace Scientific

variable (d : Scientific)

/-- The rational number that a decimal stands for. -/
def value : ℚ := d.significand * 10 ^ d.exponent

theorem denominator_pos : 0 < d.denominator := Nat.pow_pos (by decide)

theorem value_eq_div : d.value = d.numerator / d.denominator := by
  obtain ⟨significand, exponent⟩ := d
  simp only [value, numerator, denominator, Nat.pow_eq]
  obtain ⟨n, rfl | rfl⟩ := exponent.eq_nat_or_neg
  · simp
  · simp [div_eq_mul_inv]

/-- Digits that are appended to a significand are taken back by the exponent. -/
theorem value_mul_pow (significand : Nat) (exponent : Int) (places : Nat) :
    value ⟨significand * 10 ^ places, exponent - places⟩ = value ⟨significand, exponent⟩ := by
  simp only [value]
  rw [zpow_sub₀ (by norm_num), zpow_natCast]
  push_cast
  field_simp

variable {d}

theorem pow_leadingExponent_le_value (h : d.significand ≠ 0) :
    (10 : ℚ) ^ d.leadingExponent ≤ d.value := by
  have hlength : 0 < (Text.digitsOf d.significand).length := Nat.length_toDigits_pos
  have hexponent : d.leadingExponent =
      ((Text.digitsOf d.significand).length - 1 : Nat) + d.exponent := by
    simp only [leadingExponent]
    omega
  have hdigits : (10 : ℚ) ^ ((Text.digitsOf d.significand).length - 1) ≤ d.significand := by
    exact_mod_cast Text.pow_length_digitsOf_le h
  rw [hexponent, zpow_add₀ (by norm_num), zpow_natCast, value]
  gcongr

theorem value_lt_pow_leadingExponent (d : Scientific) :
    d.value < (10 : ℚ) ^ (d.leadingExponent + 1) := by
  have hexponent : d.leadingExponent + 1 =
      (Text.digitsOf d.significand).length + d.exponent := by
    simp only [leadingExponent]
    omega
  have hdigits : (d.significand : ℚ) < 10 ^ (Text.digitsOf d.significand).length := by
    exact_mod_cast Text.lt_pow_length_digitsOf d.significand
  rw [hexponent, zpow_add₀ (by norm_num), zpow_natCast, value]
  gcongr

end Scientific

namespace Binary

variable {f : Format}

/-- The first power of two behind the finite numbers, which is a power of two in the exponent. -/
theorem Format.units_infinity_le (f : Format) :
    f.units f.infinity ≤ 2 ^ (2 ^ (f.exponentBits - 1) + f.scale) := by
  rcases Nat.eq_zero_or_pos f.exponentBits with hzero | hpos
  · have hinfinity : f.infinity = 0 := by simp [infinity, hzero]
    simp [hinfinity, units]
  · rw [units_infinity hpos]
    refine Nat.pow_le_pow_right (by decide) ?_
    have hdouble : 2 ^ f.exponentBits = 2 * 2 ^ (f.exponentBits - 1) := by
      rw [← pow_succ', Nat.sub_add_cancel hpos]
    have hscale : f.scale = 2 ^ (f.exponentBits - 1) + f.fractionBits - 2 := rfl
    have hpow : 0 < 2 ^ (f.exponentBits - 1) := Nat.two_pow_pos _
    rw [hscale, hdouble]
    omega

/-- A decimal with a large leading exponent is beyond the finite numbers. -/
theorem units_infinity_mul_denominator_le (f : Format) {d : Scientific} (hne : d.significand ≠ 0)
    (hlarge : ((2 ^ (f.exponentBits - 1) : Nat) : Int) ≤ d.leadingExponent) :
    f.units f.infinity * d.denominator ≤ d.numerator * 2 ^ f.scale := by
  have hden : (0 : ℚ) < d.denominator := by exact_mod_cast d.denominator_pos
  have hvalue : (2 : ℚ) ^ 2 ^ (f.exponentBits - 1) ≤ d.value :=
    calc (2 : ℚ) ^ 2 ^ (f.exponentBits - 1) ≤ 10 ^ 2 ^ (f.exponentBits - 1) :=
          pow_le_pow_left₀ (by norm_num) (by norm_num) _
      _ ≤ 10 ^ d.leadingExponent := by
          rw [← zpow_natCast]
          gcongr
          norm_num
      _ ≤ d.value := Scientific.pow_leadingExponent_le_value hne
  rw [Scientific.value_eq_div, le_div_iff₀ hden] at hvalue
  have hnum : 2 ^ 2 ^ (f.exponentBits - 1) * d.denominator ≤ d.numerator := by
    exact_mod_cast hvalue
  calc f.units f.infinity * d.denominator
    _ ≤ 2 ^ (2 ^ (f.exponentBits - 1) + f.scale) * d.denominator :=
        Nat.mul_le_mul_right _ f.units_infinity_le
    _ = 2 ^ 2 ^ (f.exponentBits - 1) * d.denominator * 2 ^ f.scale := by
        rw [pow_add, Nat.mul_right_comm]
    _ ≤ d.numerator * 2 ^ f.scale := Nat.mul_le_mul_right _ hnum

/-- A decimal with a small leading exponent is below half a unit. -/
theorem two_mul_numerator_lt_denominator (f : Format) {d : Scientific}
    (hsmall : d.leadingExponent < -(f.scale : Int) - 1) :
    2 * (d.numerator * 2 ^ f.scale) < d.denominator := by
  have hden : (0 : ℚ) < d.denominator := by exact_mod_cast d.denominator_pos
  have hvalue : d.value * 10 ^ (f.scale + 1) < 1 :=
    calc d.value * 10 ^ (f.scale + 1)
      _ < 10 ^ (d.leadingExponent + 1) * 10 ^ (f.scale + 1) := by
          gcongr
          exact d.value_lt_pow_leadingExponent
      _ = 10 ^ (d.leadingExponent + 1 + (f.scale + 1 : Nat)) := by
          rw [zpow_add₀ (by norm_num) (d.leadingExponent + 1), zpow_natCast]
      _ ≤ 1 := zpow_le_one_of_nonpos₀ (by norm_num) (by omega)
  rw [Scientific.value_eq_div, div_mul_eq_mul_div, div_lt_one hden] at hvalue
  have hnum : d.numerator * 10 ^ (f.scale + 1) < d.denominator := by exact_mod_cast hvalue
  calc 2 * (d.numerator * 2 ^ f.scale) = d.numerator * 2 ^ (f.scale + 1) := by ring
    _ ≤ d.numerator * 10 ^ (f.scale + 1) :=
        Nat.mul_le_mul_left _ (Nat.pow_le_pow_left (by decide) _)
    _ < d.denominator := hnum

/-- Rounding a decimal is rounding the quotient that it stands for, also where the power of ten is
not formed. -/
theorem ofScientific_eq_ofQuotient (negative : Bool) (d : Scientific) :
    (ofScientific negative d : Binary f) = ofQuotient negative d.numerator d.denominator := by
  simp only [ofScientific]
  split
  next hzero =>
    refine (ofQuotient_eq ?_).symm
    rw [Scientific.numerator, hzero, Nat.zero_mul, Nat.zero_mul,
      Format.nearest_eq_zero (by simpa using d.denominator_pos)]
    rfl
  next hne =>
    split
    next hlarge =>
      have hinfinite := units_infinity_mul_denominator_le f hne hlarge
      exact (ofQuotient_eq (Format.nearest_eq_infinity d.denominator_pos hinfinite)).symm
    next =>
      split
      next hsmall =>
        have hzero := two_mul_numerator_lt_denominator f hsmall
        exact (ofQuotient_eq (Format.nearest_eq_zero hzero)).symm
      next => rfl

/-- Decimals of one value are rounded alike. -/
theorem ofScientific_congr (negative : Bool) {d d' : Scientific} (h : d.value = d'.value) :
    (ofScientific negative d : Binary f) = ofScientific negative d' := by
  have hden : (d.denominator : ℚ) ≠ 0 := by exact_mod_cast d.denominator_pos.ne'
  have hden' : (d'.denominator : ℚ) ≠ 0 := by exact_mod_cast d'.denominator_pos.ne'
  rw [Scientific.value_eq_div, Scientific.value_eq_div, div_eq_div_iff hden hden'] at h
  have hcross : d.numerator * d'.denominator = d'.numerator * d.denominator := by exact_mod_cast h
  rw [ofScientific_eq_ofQuotient, ofScientific_eq_ofQuotient]
  refine ofQuotient_eq (Format.nearest_congr d.denominator_pos d'.denominator_pos ?_)
  rw [Nat.mul_right_comm, hcross, Nat.mul_right_comm]
  rfl

end Binary

namespace Decimal

open Binary (Format)

variable {f : Format} {tie : Tie} {magnitude steps : Nat}

theorem readsBack_iff :
    readsBack f magnitude steps = true ↔ f.nearest steps (5 ^ f.scale) = magnitude :=
  decide_eq_true_iff

theorem readsBack_exactSteps (h : magnitude ≤ f.infinity) :
    readsBack f magnitude (exactSteps f magnitude) = true :=
  readsBack_iff.2 (Format.nearest_units h (Nat.pow_pos (by decide)))

/-- A decimal of as many steps of `10 ^ -scale` as read back as a magnitude is rounded to it. -/
theorem ofScientific_of_readsBack (negative : Bool) {d : Scientific}
    {magnitude : Fin (f.infinity + 1)} (hvalue : d.value = steps * 10 ^ (-f.scale : Int))
    (h : readsBack f magnitude steps = true) :
    Binary.ofScientific negative d = .number negative magnitude := by
  rw [Binary.ofScientific_eq_ofQuotient]
  refine Binary.ofQuotient_eq (Eq.trans ?_ (readsBack_iff.1 h))
  refine Format.nearest_congr d.denominator_pos (Nat.pow_pos (by decide)) ?_
  have hden : (d.denominator : ℚ) ≠ 0 := by exact_mod_cast d.denominator_pos.ne'
  rw [Scientific.value_eq_div, zpow_neg, zpow_natCast, ← div_eq_mul_inv,
    div_eq_div_iff hden (by positivity)] at hvalue
  have hcross : d.numerator * 10 ^ f.scale = steps * d.denominator := by exact_mod_cast hvalue
  rw [Nat.mul_assoc, ← Nat.mul_pow]
  exact hcross

/-- A neighbour that is taken from a grid reads back. -/
theorem readsBack_of_onGrid? {grid significand : Nat}
    (h : onGrid? f tie magnitude grid = some significand) :
    readsBack f magnitude (significand * grid) = true := by
  simp only [onGrid?] at h
  split at h
  next hbelow habove =>
    split at h <;> cases h
    · exact habove
    · exact hbelow
  next hbelow _ =>
    cases h
    exact hbelow
  next _ habove =>
    cases h
    exact habove
  next => cases h

/-- The search ends with a decimal that reads back, on whichever grid it starts. -/
theorem exists_readsBack_searchFrom (tie : Tie) (h : magnitude ≤ f.infinity) (place : Nat) :
    ∃ steps, readsBack f magnitude steps = true ∧
      (searchFrom f tie magnitude place).value = steps * 10 ^ (-f.scale : Int) := by
  induction place with
  | zero => exact ⟨_, readsBack_exactSteps h, rfl⟩
  | succ place ih =>
    simp only [searchFrom]
    split
    next significand hgrid =>
      refine ⟨_, readsBack_of_onGrid? hgrid, ?_⟩
      rw [Scientific.value, sub_eq_add_neg, zpow_add₀ (by norm_num), zpow_natCast, Nat.pow_eq]
      push_cast
      ring
    next => exact ih

/-- The shortest digits of a magnitude are rounded to this magnitude. -/
theorem ofScientific_shortest (negative : Bool) (tie : Tie) (magnitude : Fin (f.infinity + 1)) :
    Binary.ofScientific negative (shortest f tie magnitude) = .number negative magnitude := by
  obtain ⟨steps, hsteps, hvalue⟩ :=
    exists_readsBack_searchFrom (f := f) tie (Nat.le_of_lt_succ magnitude.isLt) _
  exact ofScientific_of_readsBack negative hvalue hsteps

/-- The shortest digits of zero are a zero. -/
theorem shortest_zero (f : Format) (tie : Tie) : shortest f tie 0 = ⟨0, -f.scale⟩ := by
  have hexact : exactSteps f 0 = 0 := by
    rw [exactSteps, Format.units_of_lt (Nat.two_pow_pos _), Nat.zero_mul]
  have hdigits : (Text.digitsOf 0).length - 1 = 0 := by decide
  rw [shortest, hexact, hdigits, searchFrom, hexact]

theorem shortest_significand_ne_zero (tie : Tie) {magnitude : Fin (f.infinity + 1)}
    (h : magnitude.val ≠ 0) : (shortest f tie magnitude).significand ≠ 0 := by
  intro hzero
  have hread := ofScientific_shortest false tie magnitude
  rw [Binary.ofScientific, if_pos hzero, Binary.number.injEq] at hread
  exact h (congrArg Fin.val hread.2).symm

end Decimal

end AttributeStore
