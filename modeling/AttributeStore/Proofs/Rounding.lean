import AttributeStore.Decimal.Scientific
import Mathlib.Tactic.Ring

/-!
# Rounding to a binary format

`Format.nearest` depends on the quotient alone and not on how it is written, and it gives every
magnitude back from the exact number of its units.  Large quotients become infinity and small ones
zero.

## Main results

* `Format.nearest_congr`: equal quotients are rounded alike.
* `Format.nearest_units`: what a magnitude stands for is rounded to this magnitude.
* `Format.exists_units_eq`: the numbers with few enough binary digits are exact.
* `Format.units_strictMono`: magnitudes are ordered as what they stand for.
* `Format.nearest_eq_infinity`, `Format.nearest_eq_zero`: overflow and underflow.
-/

namespace AttributeStore.Binary

/-! ### Rounding a quotient -/

theorem roundQuotient_mul_right (num den : Nat) {c : Nat} (hc : 0 < c) :
    roundQuotient (num * c) (den * c) = roundQuotient num den := by
  have hlt (a b : Nat) : 2 * (a * c) < b * c ↔ 2 * a < b := by
    rw [← Nat.mul_assoc]
    exact Nat.mul_lt_mul_right hc
  have hgt (a b : Nat) : b * c < 2 * (a * c) ↔ b < 2 * a := by
    rw [← Nat.mul_assoc]
    exact Nat.mul_lt_mul_right hc
  simp only [roundQuotient, Nat.mul_div_mul_right _ _ hc, Nat.mul_mod_mul_right, hlt, hgt]

theorem roundQuotient_mul_self (n : Nat) {den : Nat} (hden : 0 < den) :
    roundQuotient (n * den) den = n := by
  simp [roundQuotient, Nat.mul_div_cancel _ hden, hden]

theorem div_le_roundQuotient (num den : Nat) : num / den ≤ roundQuotient num den := by
  simp only [roundQuotient]
  split <;> [skip; split] <;> omega

theorem roundQuotient_eq_zero {num den : Nat} (h : 2 * num < den) : roundQuotient num den = 0 := by
  have hlt : num < den := by omega
  simp [roundQuotient, Nat.div_eq_of_lt hlt, Nat.mod_eq_of_lt hlt, h]

namespace Format

variable {f : Format}

theorem nearest_mul_right (num den : Nat) {c : Nat} (hc : 0 < c) :
    f.nearest (num * c) (den * c) = f.nearest num den := by
  simp only [nearest, Nat.mul_div_mul_right _ _ hc, Nat.mul_right_comm den c,
    roundQuotient_mul_right _ _ hc]

/-- Equal quotients are rounded alike. -/
theorem nearest_congr {num den num' den' : Nat} (hden : 0 < den) (hden' : 0 < den')
    (h : num * den' = num' * den) : f.nearest num den = f.nearest num' den' :=
  calc f.nearest num den = f.nearest (num * den') (den * den') :=
        (nearest_mul_right _ _ hden').symm
    _ = f.nearest (num' * den) (den' * den) := by rw [h, Nat.mul_comm den]
    _ = f.nearest num' den' := nearest_mul_right _ _ hden

/-- Rounding with the number of dropped bits at hand. -/
theorem nearest_eq {num den k : Nat} (hk : (num / den).log2 - f.fractionBits = k) :
    f.nearest num den =
      min (k * 2 ^ f.fractionBits + roundQuotient num (den * 2 ^ k)) f.infinity := by
  subst hk
  rfl

/-! ### Exact numbers -/

/-- A magnitude with an exponent field of zero counts units. -/
theorem units_of_lt {m : Nat} (h : m < 2 ^ f.fractionBits) : f.units m = m := by
  simp only [units, Nat.pow_eq, Nat.div_eq_of_lt h, Nat.mod_eq_of_lt h, if_pos]

/-- A magnitude with another exponent field stands for a significand with a leading one, doubled as
often as the exponent says. -/
theorem units_add (k : Nat) {fraction : Nat} (h : fraction < 2 ^ f.fractionBits) :
    f.units ((k + 1) * 2 ^ f.fractionBits + fraction) =
      (2 ^ f.fractionBits + fraction) * 2 ^ k := by
  have hpos : 0 < 2 ^ f.fractionBits := Nat.two_pow_pos _
  have hdiv : ((k + 1) * 2 ^ f.fractionBits + fraction) / 2 ^ f.fractionBits = k + 1 := by
    rw [Nat.add_comm, Nat.add_mul_div_right _ _ hpos, Nat.div_eq_of_lt h, Nat.zero_add]
  have hmod : ((k + 1) * 2 ^ f.fractionBits + fraction) % 2 ^ f.fractionBits = fraction := by
    rw [Nat.add_comm, Nat.add_mul_mod_self_right, Nat.mod_eq_of_lt h]
  simp only [units, Nat.pow_eq, hdiv, hmod, Nat.add_sub_cancel, if_neg k.succ_ne_zero]

/-- Every magnitude is of one of the two kinds. -/
theorem magnitude_cases (f : Format) (m : Nat) :
    m < 2 ^ f.fractionBits ∨ ∃ k fraction, fraction < 2 ^ f.fractionBits ∧
      m = (k + 1) * 2 ^ f.fractionBits + fraction := by
  have hpos : 0 < 2 ^ f.fractionBits := Nat.two_pow_pos _
  by_cases h : m < 2 ^ f.fractionBits
  · exact .inl h
  · have hquotient : 0 < m / 2 ^ f.fractionBits := Nat.div_pos (Nat.not_lt.1 h) hpos
    refine .inr ⟨m / 2 ^ f.fractionBits - 1, m % 2 ^ f.fractionBits, Nat.mod_lt _ hpos, ?_⟩
    rw [Nat.sub_add_cancel hquotient, Nat.div_add_mod']

private theorem log2_eq {n k : Nat} (hle : 2 ^ k ≤ n) (hlt : n < 2 ^ (k + 1)) : n.log2 = k :=
  (Nat.log2_eq_iff (Nat.pos_iff_ne_zero.1 (Nat.lt_of_lt_of_le (Nat.two_pow_pos k) hle))).2
    ⟨hle, hlt⟩

/-- A significand of a leading one and a fraction, doubled. -/
private theorem log2_doubled (k : Nat) {fraction : Nat} (h : fraction < 2 ^ f.fractionBits) :
    ((2 ^ f.fractionBits + fraction) * 2 ^ k).log2 = f.fractionBits + k := by
  refine log2_eq ?_ ?_
  · rw [pow_add]
    exact Nat.mul_le_mul_right _ (Nat.le_add_right _ _)
  · rw [Nat.add_right_comm, pow_add, pow_succ, Nat.mul_two]
    exact Nat.mul_lt_mul_of_pos_right (Nat.add_lt_add_left h _) (Nat.two_pow_pos k)

/-- What a magnitude stands for is rounded to this magnitude. -/
theorem nearest_units {m den : Nat} (hm : m ≤ f.infinity) (hden : 0 < den) :
    f.nearest (f.units m * den) den = m := by
  rcases f.magnitude_cases m with hsmall | ⟨k, fraction, hfraction, rfl⟩
  · have hlog : (m * den / den).log2 - f.fractionBits = 0 := by
      rw [Nat.mul_div_cancel _ hden, Nat.sub_eq_zero_iff_le]
      by_cases hzero : m = 0
      · simp [hzero]
      · exact Nat.le_of_lt ((Nat.log2_lt hzero).2 hsmall)
    rw [units_of_lt hsmall, nearest_eq hlog, pow_zero, Nat.mul_one, roundQuotient_mul_self _ hden,
      Nat.zero_mul, Nat.zero_add, Nat.min_eq_left hm]
  · have hlog :
        ((2 ^ f.fractionBits + fraction) * 2 ^ k * den / den).log2 - f.fractionBits = k := by
      rw [Nat.mul_div_cancel _ hden, log2_doubled k hfraction, Nat.add_sub_cancel_left]
    have hsum : k * 2 ^ f.fractionBits + (2 ^ f.fractionBits + fraction) =
        (k + 1) * 2 ^ f.fractionBits + fraction := by ring
    have hpos : 0 < den * 2 ^ k := Nat.mul_pos hden (Nat.two_pow_pos k)
    rw [units_add k hfraction, nearest_eq hlog, Nat.mul_assoc, Nat.mul_comm (2 ^ k),
      roundQuotient_mul_self _ hpos, hsum, Nat.min_eq_left hm]

/-- Below twice the least normal number, magnitudes count units. -/
theorem units_of_lt_two_mul {m : Nat} (h : m < 2 ^ (f.fractionBits + 1)) : f.units m = m := by
  rcases f.magnitude_cases m with hsmall | ⟨k, fraction, hfraction, rfl⟩
  · exact units_of_lt hsmall
  · obtain rfl : k = 0 := by
      by_contra hk
      have hle : 2 * 2 ^ f.fractionBits ≤ (k + 1) * 2 ^ f.fractionBits :=
        Nat.mul_le_mul_right _ (by omega)
      rw [pow_succ] at h
      omega
    rw [units_add 0 hfraction]
    ring

/-- Each magnitude stands for more units than the one before. -/
theorem units_strictMono (f : Format) : StrictMono f.units := by
  refine strictMono_nat_of_lt_succ fun m => ?_
  rcases f.magnitude_cases m with hsmall | ⟨k, fraction, hfraction, rfl⟩
  · rw [units_of_lt hsmall, units_of_lt_two_mul (by rw [pow_succ]; omega)]
    exact Nat.lt_succ_self m
  · rw [units_add k hfraction]
    by_cases hcarry : fraction + 1 < 2 ^ f.fractionBits
    · rw [Nat.add_assoc, units_add k hcarry]
      exact Nat.mul_lt_mul_of_pos_right (by omega) (Nat.two_pow_pos k)
    · -- The fraction is full, so the next magnitude has the next exponent and no fraction.
      have hnext : (k + 1) * 2 ^ f.fractionBits + fraction + 1 =
          (k + 1 + 1) * 2 ^ f.fractionBits + 0 := by
        rw [Nat.add_mul (k + 1)]
        omega
      rw [hnext, units_add (k + 1) (Nat.two_pow_pos _), pow_succ, ← Nat.mul_assoc,
        Nat.mul_right_comm]
      exact Nat.mul_lt_mul_of_pos_right (by omega) (Nat.two_pow_pos k)

/-- Twice an exact number is exact. -/
private theorem exists_units_eq_mul_two (m : Nat) : ∃ m', f.units m' = f.units m * 2 := by
  rcases f.magnitude_cases m with hsmall | ⟨k, fraction, hfraction, rfl⟩
  · refine ⟨m * 2, ?_⟩
    rw [units_of_lt hsmall, units_of_lt_two_mul (by rw [pow_succ]; omega)]
  · exact ⟨(k + 1 + 1) * 2 ^ f.fractionBits + fraction, by
      rw [units_add (k + 1) hfraction, units_add k hfraction, pow_succ, Nat.mul_assoc]⟩

/-- A number with few enough binary digits is exact, however often it is doubled. -/
theorem exists_units_eq {n : Nat} (hn : n < 2 ^ (f.fractionBits + 1)) (k : Nat) :
    ∃ m, f.units m = n * 2 ^ k := by
  induction k with
  | zero => exact ⟨n, by rw [units_of_lt_two_mul hn, pow_zero, Nat.mul_one]⟩
  | succ k ih =>
    obtain ⟨m, hm⟩ := ih
    obtain ⟨m', hm'⟩ := exists_units_eq_mul_two (f := f) m
    exact ⟨m', by rw [hm', hm, pow_succ, Nat.mul_assoc]⟩

/-! ### Overflow and underflow -/

theorem infinity_eq (h : 0 < f.exponentBits) :
    f.infinity = (2 ^ f.exponentBits - 2 + 1) * 2 ^ f.fractionBits := by
  have htwo : 2 ≤ 2 ^ f.exponentBits := Nat.le_self_pow (Nat.ne_of_gt h) 2
  simp only [infinity, Nat.pow_eq]
  congr 1
  omega

/-- The first power of two behind the finite numbers. -/
theorem units_infinity (h : 0 < f.exponentBits) :
    f.units f.infinity = 2 ^ (f.fractionBits + (2 ^ f.exponentBits - 2)) := by
  rw [infinity_eq h, ← Nat.add_zero (_ * _), units_add _ (Nat.two_pow_pos _), Nat.add_zero, pow_add]

/-- The first power of two behind the finite numbers is a power of two in the exponent. -/
theorem units_infinity_eq (hfraction : 0 < f.fractionBits) (hexponent : 0 < f.exponentBits) :
    f.units f.infinity = 2 ^ (2 ^ (f.exponentBits - 1) + f.scale) := by
  have hdouble : 2 ^ f.exponentBits = 2 * 2 ^ (f.exponentBits - 1) := by
    rw [← pow_succ', Nat.sub_add_cancel hexponent]
  have hscale : f.scale = 2 ^ (f.exponentBits - 1) + f.fractionBits - 2 := rfl
  have hpow : 0 < 2 ^ (f.exponentBits - 1) := Nat.two_pow_pos _
  rw [units_infinity hexponent]
  congr 1
  omega

/-- A quotient that is at least the first power of two behind the finite numbers is infinite. -/
theorem nearest_eq_infinity {num den : Nat} (hden : 0 < den)
    (h : f.units f.infinity * den ≤ num) : f.nearest num den = f.infinity := by
  rw [nearest_eq rfl]
  refine Nat.min_eq_right ?_
  rcases Nat.eq_zero_or_pos f.exponentBits with hzero | hpos
  · simp [infinity, hzero]
  · rw [units_infinity hpos, ← Nat.le_div_iff_mul_le hden] at h
    have hquotient : num / den ≠ 0 := Nat.ne_of_gt (Nat.lt_of_lt_of_le (Nat.two_pow_pos _) h)
    have hlog : f.fractionBits + (2 ^ f.exponentBits - 2) ≤ (num / den).log2 :=
      (Nat.le_log2 hquotient).2 h
    obtain ⟨k, hk⟩ := Nat.exists_eq_add_of_le (Nat.le_trans (Nat.le_add_right _ _) hlog)
    have hsignificand : 2 ^ f.fractionBits ≤ roundQuotient num (den * 2 ^ k) := by
      refine Nat.le_trans ?_ (div_le_roundQuotient _ _)
      rw [← Nat.div_div_eq_div_mul, Nat.le_div_iff_mul_le (Nat.two_pow_pos k), ← pow_add, ← hk]
      exact Nat.log2_self_le hquotient
    rw [hk, Nat.add_sub_cancel_left, infinity_eq hpos, Nat.add_one_mul]
    exact Nat.add_le_add (Nat.mul_le_mul_right _ (by omega)) hsignificand

theorem nearest_eq_zero {num den : Nat} (h : 2 * num < den) : f.nearest num den = 0 := by
  have hlog : (num / den).log2 - f.fractionBits = 0 := by
    rw [Nat.div_eq_of_lt (by omega), Nat.log2_zero, Nat.zero_sub]
  rw [nearest_eq hlog, pow_zero, Nat.mul_one, roundQuotient_eq_zero h]
  simp

end Format

theorem ofQuotient_eq {f : Format} {negative : Bool} {num den : Nat}
    {magnitude : Fin (f.infinity + 1)} (h : f.nearest (num * 2 ^ f.scale) den = magnitude) :
    ofQuotient negative num den = number negative magnitude :=
  congrArg (number negative) (Fin.ext h)

end AttributeStore.Binary
