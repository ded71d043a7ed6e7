import AttributeStore.Proofs.Nearest
import AttributeStore.Proofs.NumberValue

/-!
# Rounding and the order of numbers

Rounding to a format keeps the sign of a number and never reverses an order.  What lies half a step
or more beyond the largest finite number becomes infinite, and what is at most half a unit becomes
zero.  Integers that a significand can hold are exact.

## Main definitions

* `Binary.Extended.AtMost`: the order of the values of binary numbers.
* `Binary.Extended.RoundsTo`: the number of a format that a value is rounded to.
* `Binary.Format.overflow`, `Binary.Format.underflow`: where rounding gives infinity and zero.

## Main results

* `Binary.roundsTo_convert`, `Binary.roundsTo_ofInt`: conversions between formats and from integers
  round to the nearest number.
* `Binary.Extended.RoundsTo.mono`: rounding keeps the order.
* `Binary.denoted_ofInt`: the integers that are exact.
-/

namespace AttributeStore.Binary

variable {f g : Format} {q q' : ℚ}

/-! ### Signs and order -/

/-- Whether a binary number has a minus sign, as one of the two zeros has. -/
def isNegative : Binary f → Bool
  | nan => false
  | number negative _ => negative

namespace Extended

/-- The order of the rational numbers with an infinity at either end.  What is no number is not in
it. -/
inductive AtMost : Extended → Extended → Prop
  | least {r : Extended} (h : r ≠ nan) : AtMost (infinite true) r
  | greatest {r : Extended} (h : r ≠ nan) : AtMost r (infinite false)
  | finite {q q' : ℚ} (h : q ≤ q') : AtMost (finite q) (finite q')

instance : LE Extended := ⟨AtMost⟩

/-- The values that can have a sign.  Zero can have both. -/
def HasSign (negative : Bool) : Extended → Prop
  | nan => True
  | infinite s => s = negative
  | finite q => if negative then q ≤ 0 else 0 ≤ q

/-- The number of a format that is nearest to a value, zero with a given sign. -/
def RoundsTo (negative : Bool) : Extended → Binary f → Prop
  | nan, x => x = .nan
  | infinite s, x => x = .infinite s
  | finite q, x => IsRounded negative |q| x

end Extended

open Extended (AtMost)

theorem denoted_number_ne_nan (negative : Bool) (magnitude : Fin (f.infinity + 1)) :
    (number negative magnitude).denoted ≠ .nan := by
  rw [denoted]
  split <;> simp

/-- A number has the sign of what it stands for. -/
theorem hasSign_denoted (x : Binary f) : x.denoted.HasSign x.isNegative := by
  rcases denoted_cases x with rfl | ⟨negative, rfl⟩ | ⟨negative, magnitude, hfinite, rfl⟩
  · trivial
  · rw [denoted_infinite]
    rfl
  · rw [denoted_number hfinite, Extended.HasSign, isNegative]
    have hnonneg : (0 : ℚ) ≤ f.units magnitude / 2 ^ f.scale := by positivity
    cases negative with
    | false => simpa using hnonneg
    | true => simpa using hnonneg

/-- Numbers without a sign are ordered as their magnitudes, and those with one the other way. -/
theorem denoted_le_denoted {m m' : Fin (f.infinity + 1)} (h : m ≤ m') :
    (number false m).denoted ≤ (number false m').denoted ∧
      (number true m').denoted ≤ (number true m).denoted := by
  by_cases hlast : m' = Fin.last f.infinity
  · rw [hlast, ← infinite, ← infinite, denoted_infinite, denoted_infinite]
    exact ⟨.greatest (denoted_number_ne_nan _ _), .least (denoted_number_ne_nan _ _)⟩
  · have hfinite : m ≠ Fin.last f.infinity := (h.trans_lt (Fin.lt_last_iff_ne_last.2 hlast)).ne
    have hle : (f.units m / 2 ^ f.scale : ℚ) ≤ f.units m' / 2 ^ f.scale := by
      gcongr
      exact f.units_strictMono.monotone h
    simp only [denoted_number hlast, denoted_number hfinite, Bool.false_eq_true, if_false, if_true]
    exact ⟨.finite hle, .finite (neg_le_neg hle)⟩

/-- Numbers with a minus sign are below those without one. -/
theorem denoted_neg_le (m m' : Fin (f.infinity + 1)) :
    (number true m).denoted ≤ (number false m').denoted := by
  by_cases hm : m = Fin.last f.infinity
  · rw [hm, ← infinite, denoted_infinite]
    exact .least (denoted_number_ne_nan _ _)
  · by_cases hm' : m' = Fin.last f.infinity
    · rw [hm', ← infinite, denoted_infinite]
      exact .greatest (denoted_number_ne_nan _ _)
    · rw [denoted_number hm, denoted_number hm']
      refine .finite ?_
      have hnonneg (m : Nat) : (0 : ℚ) ≤ f.units m / 2 ^ f.scale := by positivity
      simp only [Bool.false_eq_true, if_false, if_true]
      exact (neg_nonpos.2 (hnonneg m)).trans (hnonneg m')

/-! ### Rounding values -/

namespace Format

/-- A number of units that a magnitude stands for is nearest to this magnitude. -/
theorem isNearest_units {m : Nat} (hm : m ≤ f.infinity) : f.IsNearest (f.units m) m := by
  have hlt := cast_units_lt (f := f) m.lt_succ_self
  exact isNearest_of_le hm le_rfl (by linarith) fun htie => by linarith

/-- A format with a fraction field, whose finite numbers reach beyond the integers that a
significand can hold. -/
structure IsRegular (f : Format) : Prop where
  fractionBits_pos : 0 < f.fractionBits
  significand_le : f.fractionBits + 2 ≤ 2 ^ (f.exponentBits - 1)

theorem isRegular_single : single.IsRegular := ⟨by decide, by decide⟩

theorem isRegular_double : double.IsRegular := ⟨by decide, by decide⟩

namespace IsRegular

theorem two_le_exponentBits (h : f.IsRegular) : 2 ≤ f.exponentBits := by
  obtain ⟨hpos, hreach⟩ := h
  by_contra hlt
  have hzero : f.exponentBits - 1 = 0 := by omega
  rw [hzero] at hreach
  omega

theorem exponentBits_pos (h : f.IsRegular) : 0 < f.exponentBits :=
  Nat.lt_of_lt_of_le (by decide) h.two_le_exponentBits

theorem infinity_pos (h : f.IsRegular) : 0 < f.infinity := by
  rw [infinity_eq h.exponentBits_pos]
  positivity

theorem even_infinity (h : f.IsRegular) : Even f.infinity := by
  rw [infinity_eq h.exponentBits_pos]
  exact ((even_two.pow_of_ne_zero) h.fractionBits_pos.ne').mul_left _

/-- The largest finite number has only ones in its significand. -/
theorem units_largest (h : f.IsRegular) : f.units (f.infinity - 1) =
    (2 ^ (f.fractionBits + 1) - 1) * 2 ^ (2 ^ f.exponentBits - 3) := by
  have hexponent := h.two_le_exponentBits
  have hpow : 2 ^ 2 ≤ 2 ^ f.exponentBits := Nat.pow_le_pow_right (by decide) hexponent
  have hfraction : 0 < 2 ^ f.fractionBits := Nat.two_pow_pos _
  have hlargest : f.infinity - 1 =
      (2 ^ f.exponentBits - 3) * 2 ^ f.fractionBits + (2 ^ (f.fractionBits + 1) - 1) := by
    obtain ⟨k, hk⟩ := Nat.exists_eq_add_of_le' hpow
    rw [infinity, Nat.pow_eq, Nat.pow_eq, hk, pow_succ 2 f.fractionBits]
    have hsplit : (k + 2 ^ 2 - 1) * 2 ^ f.fractionBits =
        (k + 2 ^ 2 - 3) * 2 ^ f.fractionBits + 2 ^ f.fractionBits * 2 := by
      have hsum : k + 2 ^ 2 - 1 = k + 2 ^ 2 - 3 + 2 := by omega
      rw [hsum, Nat.add_mul, Nat.mul_comm 2]
    omega
  rw [hlargest]
  exact units_significand (.inr (by rw [pow_succ]; omega)) (Nat.sub_le _ _)

end IsRegular

/-- Half a step beyond the largest finite number.  From here on, numbers are rounded to infinity. -/
def overflow (f : Format) : ℚ :=
  2 ^ 2 ^ (f.exponentBits - 1) - 2 ^ (2 ^ (f.exponentBits - 1) - (f.fractionBits + 2))

/-- Half a unit.  Up to here, numbers are rounded to zero. -/
def underflow (f : Format) : ℚ := 1 / 2 ^ (f.scale + 1)

theorem IsRegular.units_overflow (h : f.IsRegular) :
    (f.units (f.infinity - 1) : ℚ) + f.units f.infinity = 2 * (f.overflow * 2 ^ f.scale) := by
  obtain ⟨d, hd⟩ := Nat.exists_eq_add_of_le' h.significand_le
  have hscale : f.scale = d + 2 * f.fractionBits := by
    have hunfold : f.scale = 2 ^ (f.exponentBits - 1) + f.fractionBits - 2 := rfl
    omega
  have hdouble : 2 ^ f.exponentBits - 3 = 2 * d + 2 * f.fractionBits + 1 := by
    have hpow : 2 ^ f.exponentBits = 2 * 2 ^ (f.exponentBits - 1) := by
      rw [← pow_succ', Nat.sub_add_cancel h.exponentBits_pos]
    omega
  rw [h.units_largest, units_infinity_eq h.fractionBits_pos h.exponentBits_pos, overflow, hdouble,
    hd, hscale, Nat.add_sub_cancel]
  push_cast [Nat.one_le_two_pow]
  ring

end Format

section

variable {negative negative' : Bool} {r r' : Extended} {x y : Binary f}

theorem Extended.RoundsTo.unique (h : r.RoundsTo negative x) (h' : r.RoundsTo negative y) :
    x = y := by
  cases r with
  | nan | infinite s => exact h.trans h'.symm
  | finite q => exact IsRounded.unique h h'

/-- The absolute value of what a finite number stands for. -/
theorem abs_signed (negative : Bool) {a : ℚ} (ha : 0 ≤ a) : |if negative then -a else a| = a := by
  cases negative with
  | false => exact abs_of_nonneg ha
  | true => exact (abs_neg a).trans (abs_of_nonneg ha)

/-- A number is the nearest one to what it stands for. -/
theorem roundsTo_denoted (x : Binary f) : x.denoted.RoundsTo x.isNegative x := by
  rcases denoted_cases x with rfl | ⟨negative, rfl⟩ | ⟨negative, magnitude, hfinite, rfl⟩
  · rfl
  · rw [denoted_infinite]
    rfl
  · rw [denoted_number hfinite, Extended.RoundsTo, abs_signed negative (by positivity)]
    refine ⟨magnitude, rfl, ?_⟩
    rw [div_mul_cancel₀ _ (by positivity)]
    exact Format.isNearest_units (Nat.le_of_lt_succ magnitude.isLt)

/-- A conversion rounds to the nearest number of the new format and keeps the sign. -/
theorem roundsTo_convert (hg : 0 < g.fractionBits) (x : Binary f) :
    x.denoted.RoundsTo x.isNegative (x.convert : Binary g) := by
  rcases denoted_cases x with rfl | ⟨negative, rfl⟩ | ⟨negative, magnitude, hfinite, rfl⟩
  · rfl
  · rw [denoted_infinite]
    exact if_pos rfl
  · rw [denoted_number hfinite, Extended.RoundsTo, abs_signed negative (by positivity), convert,
      if_neg hfinite]
    exact_mod_cast isRounded_ofQuotient hg negative (f.units magnitude)
      (Nat.two_pow_pos f.scale)

/-- A conversion keeps the sign. -/
theorem isNegative_convert (x : Binary f) : (x.convert : Binary g).isNegative = x.isNegative := by
  cases x with
  | nan => rfl
  | number negative magnitude =>
    rw [convert]
    split <;> rfl

/-- An integer is rounded to the nearest number. -/
theorem roundsTo_ofInt (hf : 0 < f.fractionBits) (n : Int) :
    (Extended.finite n).RoundsTo (n < 0) (ofInt n : Binary f) := by
  have hrounded := isRounded_ofQuotient (f := f) hf (n < 0) n.natAbs Nat.one_pos
  rwa [Nat.cast_one, div_one, Nat.cast_natAbs, Int.cast_abs] at hrounded

/-- Only zero is nearest to zero. -/
theorem IsRounded.eq_zero (hf : f.IsRegular) (h : IsRounded negative 0 x) :
    x = number negative 0 := by
  obtain ⟨m, rfl, hm⟩ := h
  have hzero : m.val = 0 :=
    (hm.eq_zero_iff hf.fractionBits_pos hf.infinity_pos).2 (by norm_num)
  exact congrArg (number negative) (Fin.ext hzero)

theorem denoted_zero (hf : f.IsRegular) (negative : Bool) :
    (number negative 0 : Binary f).denoted = .finite 0 := by
  have hfinite : (0 : Fin (f.infinity + 1)) ≠ Fin.last f.infinity :=
    fun h => hf.infinity_pos.ne (congrArg Fin.val h)
  have hunits : f.units 0 = 0 := Format.units_of_lt (Nat.two_pow_pos _)
  rw [denoted_number hfinite]
  simp [hunits]

/-- Rounding keeps the order. -/
theorem IsRounded.denoted_le (hf : f.IsRegular) (hq : if negative then q ≤ 0 else 0 ≤ q)
    (hq' : if negative' then q' ≤ 0 else 0 ≤ q') (h : IsRounded negative |q| x)
    (h' : IsRounded negative' |q'| y) (hle : q ≤ q') : x.denoted ≤ y.denoted := by
  obtain ⟨m, hx, hm⟩ := id h
  obtain ⟨m', hy, hm'⟩ := id h'
  cases negative <;> cases negative' <;> simp only [Bool.false_eq_true, if_false, if_true] at hq hq'
  case false.false =>
    rw [abs_of_nonneg hq] at hm
    rw [abs_of_nonneg hq'] at hm'
    rw [hx, hy]
    exact (denoted_le_denoted (hm.mono hm' (by gcongr))).1
  case true.true =>
    rw [abs_of_nonpos hq] at hm
    rw [abs_of_nonpos hq'] at hm'
    rw [hx, hy]
    exact (denoted_le_denoted (hm'.mono hm (by gcongr))).2
  case true.false =>
    rw [hx, hy]
    exact denoted_neg_le _ _
  case false.true =>
    -- Both are zero, and the order does not tell the two zeros apart.
    obtain rfl : q = 0 := le_antisymm (hle.trans hq') hq
    obtain rfl : q' = 0 := le_antisymm hq' hle
    rw [abs_zero] at h h'
    rw [h.eq_zero hf, h'.eq_zero hf, denoted_zero hf, denoted_zero hf]
    exact .finite le_rfl

/-- Rounding keeps the order, also of the infinities. -/
theorem Extended.RoundsTo.mono (hf : f.IsRegular) (hr : r.HasSign negative)
    (hr' : r'.HasSign negative') (h : r.RoundsTo negative x) (h' : r'.RoundsTo negative' y)
    (hle : r ≤ r') : x.denoted ≤ y.denoted := by
  have hnumber {negative : Bool} {r : Extended} {x : Binary f} (h : r.RoundsTo negative x)
      (hr : r ≠ nan) : x.denoted ≠ nan := by
    cases r with
    | nan => exact absurd rfl hr
    | infinite s =>
      rw [h, denoted_infinite]
      simp
    | finite q =>
      obtain ⟨m, rfl, -⟩ := h
      exact denoted_number_ne_nan _ _
  cases hle with
  | least hr' =>
    rw [h, denoted_infinite]
    exact .least (hnumber h' hr')
  | greatest hr =>
    rw [h', denoted_infinite]
    exact .greatest (hnumber h hr)
  | finite hle => exact IsRounded.denoted_le hf hr hr' h h' hle

/-- What lies half a step or more beyond the largest finite number is rounded to infinity. -/
theorem Extended.RoundsTo.eq_infinite_iff (hf : f.IsRegular)
    (h : (finite q).RoundsTo negative x) : x = Binary.infinite negative ↔ f.overflow ≤ |q| := by
  obtain ⟨m, rfl, hm⟩ := h
  have hscale : (0 : ℚ) < 2 ^ f.scale := by positivity
  rw [Binary.infinite, number.injEq, and_iff_right rfl, Fin.ext_iff, Fin.val_last,
    hm.eq_infinity_iff hf.even_infinity hf.infinity_pos, hf.units_overflow,
    mul_le_mul_iff_right₀ (by norm_num), mul_le_mul_iff_left₀ hscale]

/-- What is at most half a unit is rounded to zero. -/
theorem Extended.RoundsTo.eq_zero_iff (hf : f.IsRegular)
    (h : (finite q).RoundsTo negative x) : x = number negative 0 ↔ |q| ≤ f.underflow := by
  obtain ⟨m, rfl, hm⟩ := h
  rw [number.injEq, and_iff_right rfl, Fin.ext_iff, Fin.val_zero,
    hm.eq_zero_iff hf.fractionBits_pos hf.infinity_pos, Format.underflow,
    le_div_iff₀ (by positivity), pow_succ]
  ring_nf

/-! ### Exact integers -/

/-- A number of units that a significand can hold, or the next one, is exact however often it is
doubled. -/
theorem Format.exists_units_eq_of_le {n : Nat} (hn : n ≤ 2 ^ (f.fractionBits + 1)) (k : Nat) :
    ∃ m, f.units m = n * 2 ^ k := by
  rcases hn.lt_or_eq with hlt | rfl
  · exact Format.exists_units_eq hlt k
  · obtain ⟨m, hm⟩ := Format.exists_units_eq (f := f) (n := 2 ^ f.fractionBits)
      (Nat.pow_lt_pow_right (by decide) (Nat.lt_succ_self _)) (k + 1)
    exact ⟨m, by rw [hm]; ring⟩

/-- An integer with few enough binary digits is a number of the format. -/
theorem denoted_ofInt (hf : f.IsRegular) {n : Int} (hn : |n| ≤ 2 ^ (f.fractionBits + 1)) :
    (ofInt n : Binary f).denoted = .finite n := by
  have hnat : n.natAbs ≤ 2 ^ (f.fractionBits + 1) := by
    rw [Int.abs_eq_natAbs] at hn
    exact_mod_cast hn
  obtain ⟨m, hm⟩ := Format.exists_units_eq_of_le hnat f.scale
  have hlt : m < f.infinity := by
    rw [← f.units_strictMono.lt_iff_lt, hm,
      Format.units_infinity_eq hf.fractionBits_pos hf.exponentBits_pos, pow_add]
    refine Nat.mul_lt_mul_of_pos_right (hnat.trans_lt ?_) (Nat.two_pow_pos _)
    exact Nat.pow_lt_pow_right (by decide) hf.significand_le
  have hexact : (number (n < 0) ⟨m, Nat.lt_succ_of_lt hlt⟩ : Binary f).denoted = .finite n := by
    have hfinite : (⟨m, Nat.lt_succ_of_lt hlt⟩ : Fin (f.infinity + 1)) ≠ Fin.last f.infinity :=
      fun h => hlt.ne (congrArg Fin.val h)
    rw [denoted_number hfinite, hm]
    push_cast
    rw [mul_div_cancel_right₀ _ (by positivity), Nat.cast_natAbs, Int.cast_abs]
    congr 1
    split
    next hneg => rw [abs_of_neg (by exact_mod_cast of_decide_eq_true hneg), neg_neg]
    next hnonneg => exact abs_of_nonneg (by exact_mod_cast by simpa using hnonneg)
  have hrounded := roundsTo_denoted (number (n < 0) ⟨m, Nat.lt_succ_of_lt hlt⟩ : Binary f)
  rw [hexact] at hrounded
  rw [(roundsTo_ofInt hf.fractionBits_pos n).unique hrounded, hexact]

end

end AttributeStore.Binary
