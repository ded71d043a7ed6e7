import AttributeStore.Proofs.LayoutText
import AttributeStore.Proofs.NumberOrder

/-!
# Significant digits

How many significant digits a decimal has is a matter of its value: zeros at either end of the
digits do not count.  The shortest digits of a magnitude deserve their name, since every decimal
that is rounded to this magnitude has at least as many.

What is rounded to a magnitude is an interval with the exact value in it.  So if any decimal with a
few digits is rounded to the magnitude, then one of the two neighbours of the exact value among all
decimals with this number of digits is, and the search meets them.

## Main definitions

* `Scientific.precision`: the number of significant digits.

## Main results

* `Scientific.precision_le_iff`: a decimal has few significant digits if it can be written with few.
* `Scientific.precision_congr`: decimals of one value have the same number of significant digits.
* `Decimal.precision_shortest_le`: nothing shorter is rounded to the magnitude.
-/

namespace AttributeStore

/-! ### The number of significant digits -/

namespace Text

theorem digitsOf_mul_ten {n : Nat} (hn : n ≠ 0) : digitsOf (n * 10) = digitsOf n ++ ['0'] := by
  have hbase : 10 ≤ n * 10 := by omega
  have hquotient : n * 10 / 10 = n := by omega
  have hdigit : n * 10 % 10 = 0 := by omega
  rw [digitsOf, Nat.toDigits_of_base_le (by decide) hbase, hquotient, hdigit, digitsOf]
  rfl

end Text

namespace Decimal

theorem dropTrailingZeros_append_zero (digits : List Char) :
    dropTrailingZeros (digits ++ ['0']) = dropTrailingZeros digits := by
  simp [dropTrailingZeros]

theorem digitsValue_dropTrailingZeros_lt (n : Nat) :
    Text.digitsValue (dropTrailingZeros (Text.digitsOf n)) <
      10 ^ (dropTrailingZeros (Text.digitsOf n)).length := by
  obtain ⟨zeros, hzeros⟩ := exists_eq_dropTrailingZeros_append (Text.digitsOf n)
  generalize dropTrailingZeros (Text.digitsOf n) = digits at hzeros ⊢
  have hvalue : n = Text.digitsValue digits * 10 ^ zeros := by
    rw [← Text.digitsValue_append_zeros, ← hzeros, Text.digitsValue_digitsOf]
  have hlt := Text.lt_pow_length_digitsOf n
  rw [hzeros, List.length_append, List.length_replicate, pow_add, hvalue] at hlt
  exact Nat.lt_of_mul_lt_mul_right hlt

end Decimal

namespace Scientific

/-- The number of significant digits: those of the significand without the zeros at its end. -/
def precision (d : Scientific) : Nat :=
  (Decimal.dropTrailingZeros (Text.digitsOf d.significand)).length

theorem precision_mul_pow (significand places : Nat) (exponent exponent' : Int) :
    precision ⟨significand * 10 ^ places, exponent⟩ = precision ⟨significand, exponent'⟩ := by
  rcases Nat.eq_zero_or_pos significand with rfl | hpos
  · rw [Nat.zero_mul]
    rfl
  · induction places with
    | zero =>
      rw [pow_zero, Nat.mul_one]
      rfl
    | succ places ih =>
      have hne : significand * 10 ^ places ≠ 0 := by positivity
      rw [precision, pow_succ, ← Nat.mul_assoc, Text.digitsOf_mul_ten hne,
        Decimal.dropTrailingZeros_append_zero]
      exact ih

/-- Of two decimals with the same value, the one with the smaller exponent has more zeros. -/
theorem significand_eq_of_value_eq {d d' : Scientific} (h : d.value = d'.value)
    (hle : d'.exponent ≤ d.exponent) :
    d'.significand = d.significand * 10 ^ (d.exponent - d'.exponent).toNat := by
  obtain ⟨places, hplaces⟩ := Int.le.dest hle
  have hten : (10 : ℚ) ^ d'.exponent ≠ 0 := by positivity
  rw [value, value, ← hplaces, zpow_add₀ (by norm_num), zpow_natCast, mul_left_comm, mul_comm,
    mul_left_inj' hten] at h
  have hcount : (d.exponent - d'.exponent).toNat = places := by omega
  rw [hcount]
  exact_mod_cast h.symm

/-- Decimals of one value have the same number of significant digits. -/
theorem precision_congr {d d' : Scientific} (h : d.value = d'.value) :
    d.precision = d'.precision := by
  have hsmaller {d d' : Scientific} (h : d.value = d'.value) (hle : d'.exponent ≤ d.exponent) :
      d.precision = d'.precision := by
    rw [precision, precision, significand_eq_of_value_eq h hle]
    exact (precision_mul_pow _ _ d.exponent d.exponent).symm
  rcases Int.le_total d'.exponent d.exponent with hle | hle
  · exact hsmaller h hle
  · exact (hsmaller h.symm hle).symm

theorem precision_le_length (d : Scientific) :
    d.precision ≤ (Text.digitsOf d.significand).length := by
  obtain ⟨zeros, hzeros⟩ := Decimal.exists_eq_dropTrailingZeros_append (Text.digitsOf d.significand)
  rw [precision]
  exact (congrArg List.length hzeros).trans List.length_append ▸ Nat.le_add_right _ _

variable {d : Scientific} {n : Nat}

theorem precision_le_of_lt (h : d.significand < 10 ^ n) : d.precision ≤ n := by
  rcases Nat.eq_zero_or_pos n with rfl | hpos
  · have hzero : d.significand = 0 := by simpa using h
    rw [precision, hzero]
    decide
  · exact d.precision_le_length.trans ((Nat.length_toDigits_le_iff (by decide) hpos).2 h)

/-- A power of ten has one digit that counts. -/
theorem precision_le_of_le (hn : 0 < n) (h : d.significand ≤ 10 ^ n) : d.precision ≤ n := by
  rcases h.lt_or_eq with hlt | heq
  · exact precision_le_of_lt hlt
  · rw [precision, heq, ← Nat.one_mul (10 ^ n)]
    exact (precision_mul_pow 1 n 0 0).trans_le hn

/-- A decimal has at most so many significant digits if it can be written with so many. -/
theorem precision_le_iff :
    d.precision ≤ n ↔ ∃ d' : Scientific, d'.value = d.value ∧ d'.significand < 10 ^ n := by
  constructor
  · intro h
    rcases eq_or_ne d.significand 0 with hzero | hne
    · exact ⟨d, rfl, by rw [hzero]; positivity⟩
    · refine ⟨_, (Decimal.isLeading_dropTrailingZeros hne).2, ?_⟩
      exact (Decimal.digitsValue_dropTrailingZeros_lt _).trans_le
        (Nat.pow_le_pow_right (by decide) h)
  · rintro ⟨d', hvalue, hlt⟩
    rw [← precision_congr hvalue]
    exact precision_le_of_lt hlt

end Scientific

/-! ### What is rounded to a magnitude -/

namespace Decimal

open Binary (Format)

variable {f : Format} {tie : Tie} {m steps : Nat} {r r' : ℚ}

/-- So many steps of `10 ^ -scale` are rounded to the magnitude. -/
def RoundsBack (f : Format) (m : Nat) (r : ℚ) : Prop := f.IsNearest (r / 5 ^ f.scale) m

theorem roundsBack_iff (hf : 0 < f.fractionBits) :
    RoundsBack f m steps ↔ readsBack f m steps = true := by
  have hnearest := Format.isNearest_nearest hf steps (Nat.pow_pos (by decide) : 0 < 5 ^ f.scale)
  rw [Nat.cast_pow, Nat.cast_ofNat] at hnearest
  rw [readsBack_iff]
  constructor
  · exact fun h => hnearest.unique h
  · rintro rfl
    exact hnearest

theorem roundsBack_exactSteps (hf : 0 < f.fractionBits) (hm : m ≤ f.infinity) :
    RoundsBack f m (exactSteps f m) :=
  (roundsBack_iff hf).2 (readsBack_exactSteps hm)

/-- What lies between two numbers that are rounded to a magnitude is rounded to it too. -/
theorem RoundsBack.between (hf : 0 < f.fractionBits) (h : RoundsBack f m r)
    (h' : RoundsBack f m r') (hle : r ≤ steps) (hle' : steps ≤ r') : RoundsBack f m steps := by
  have hfive : (0 : ℚ) < 5 ^ f.scale := by positivity
  have hnearest : RoundsBack f (f.nearest steps (5 ^ f.scale)) steps :=
    (roundsBack_iff hf).2 (readsBack_iff.2 rfl)
  have hlower := h.mono hnearest ((div_le_div_iff_of_pos_right hfive).2 hle)
  have hupper := hnearest.mono h' ((div_le_div_iff_of_pos_right hfive).2 hle')
  rwa [Nat.le_antisymm hupper hlower] at hnearest

/-! ### The search -/

/-- The digits of a magnitude that is not zero start with the first digit of its exact value. -/
theorem exactSteps_ne_zero (hm : m ≠ 0) : exactSteps f m ≠ 0 := by
  have hunits : f.units 0 < f.units m := f.units_strictMono (Nat.pos_of_ne_zero hm)
  exact Nat.mul_ne_zero (by omega) (Nat.pow_pos (by decide)).ne'

variable {grid significand : Nat}

theorem significand_le_of_onGrid? (h : onGrid? f tie m grid = some significand) :
    significand ≤ exactSteps f m / grid + 1 := by
  simp only [onGrid?] at h
  split at h
  next =>
    split at h <;> cases h
    · exact le_rfl
    · exact Nat.le_succ _
  next =>
    cases h
    exact Nat.le_succ _
  next =>
    cases h
    exact le_rfl
  next => cases h

/-- If anything is rounded to the magnitude that is not between the two neighbours of the exact
value on a grid, then one of these is. -/
theorem isSome_onGrid? (tie : Tie) (hf : 0 < f.fractionBits) (hm : m ≤ f.infinity)
    (hgrid : 0 < grid) (h : RoundsBack f m r) (hside : r ≤ (exactSteps f m / grid * grid : Nat) ∨
      ((exactSteps f m / grid + 1) * grid : Nat) ≤ r) : (onGrid? f tie m grid).isSome := by
  have hexact := roundsBack_exactSteps hf hm
  have hneighbour : readsBack f m (exactSteps f m / grid * grid) = true ∨
      readsBack f m ((exactSteps f m / grid + 1) * grid) = true := by
    refine hside.imp (fun hbelow => ?_) fun habove => ?_
    · exact (roundsBack_iff hf).1
        (h.between hf hexact hbelow (Nat.cast_le.2 (Nat.div_mul_le_self _ _)))
    · have hnext := Nat.lt_mul_of_div_lt (Nat.lt_succ_self (exactSteps f m / grid)) hgrid
      exact (roundsBack_iff hf).1 (hexact.between hf h (Nat.cast_le.2 hnext.le) habove)
  simp only [onGrid?]
  rcases hneighbour with hread | hread <;> rw [hread] <;> split <;> simp_all

/-- A decimal with at most `n + 1` digits is not between two neighbours on a grid if the lower one
has as many digits on this grid. -/
theorem not_between_of_lt {d : Scientific} {n place below : Nat} (scale : Nat)
    (hd : d.significand < 10 ^ (n + 1)) (hbelow : 10 ^ n ≤ below) :
    d.value * 10 ^ scale ≤ (below * 10 ^ place : Nat) ∨
      ((below + 1) * 10 ^ place : Nat) ≤ d.value * 10 ^ scale := by
  have hsteps : d.value * 10 ^ scale = d.significand * 10 ^ (d.exponent + scale) := by
    rw [Scientific.value, zpow_add₀ (by norm_num), zpow_natCast, mul_assoc]
  have hten (k : Nat) : (0 : ℚ) < 10 ^ k := by positivity
  rw [hsteps]
  push_cast
  rcases Int.lt_or_le (d.exponent + scale) place with hfine | hcoarse
  · -- The last digit is behind the grid, so that the digits do not reach up to the lower neighbour.
    left
    have hlast : (10 : ℚ) ^ (d.exponent + scale) ≤ 10 ^ ((place : Int) - 1) := by
      gcongr
      · norm_num
      · omega
    calc (d.significand * 10 ^ (d.exponent + scale) : ℚ)
      _ ≤ 10 ^ (n + 1) * 10 ^ ((place : Int) - 1) := by
          gcongr
          exact_mod_cast hd.le
      _ = 10 ^ n * 10 ^ place := by
          rw [zpow_sub₀ (by norm_num), zpow_natCast, pow_succ]
          field_simp
      _ ≤ below * 10 ^ place := by
          gcongr
          exact_mod_cast hbelow
  · -- The decimal is on the grid.
    obtain ⟨k, hk⟩ := Int.le.dest hcoarse
    rw [← hk, zpow_add₀ (by norm_num), zpow_natCast, zpow_natCast, mul_left_comm, mul_comm,
      mul_le_mul_iff_left₀ (hten place), mul_le_mul_iff_left₀ (hten place)]
    exact_mod_cast Nat.lt_or_ge (d.significand * 10 ^ k) (below + 1) |>.imp_left Nat.le_of_lt_succ

/-- From a grid on which a decimal with few digits may be, the search finds one with as few. -/
theorem precision_searchFrom_le (hf : 0 < f.fractionBits) (hne : m ≠ 0) (hm : m ≤ f.infinity)
    {d : Scientific} {n : Nat} (hd : d.significand < 10 ^ (n + 1))
    (h : RoundsBack f m (d.value * 10 ^ f.scale)) {place : Nat}
    (hlt : place < (Text.digitsOf (exactSteps f m)).length)
    (hle : (Text.digitsOf (exactSteps f m)).length ≤ place + (n + 1)) :
    (searchFrom f tie m place).precision ≤ n + 1 := by
  have hlower := Text.pow_length_digitsOf_le (exactSteps_ne_zero (f := f) hne)
  have hupper := Text.lt_pow_length_digitsOf (exactSteps f m)
  induction place with
  | zero =>
    rw [Nat.zero_add] at hle
    exact (Scientific.precision_le_length _).trans hle
  | succ place ih =>
    rw [searchFrom, Nat.pow_eq]
    split
    next significand hsome =>
      obtain ⟨count, hcount⟩ := Nat.exists_eq_add_of_lt hlt
      have hsignificand : significand ≤ 10 ^ (count + 1) := by
        refine (significand_le_of_onGrid? hsome).trans (Nat.div_lt_of_lt_mul ?_)
        rw [← pow_add, ← Nat.add_assoc, ← hcount]
        exact hupper
      exact (Scientific.precision_le_of_le (Nat.succ_pos count) hsignificand).trans (by omega)
    next hnone =>
      refine ih (by omega) ?_
      by_contra hcoarse
      -- The decimal is on this grid or below the exact value, so something should have been found.
      have hlength : (Text.digitsOf (exactSteps f m)).length - 1 = n + (place + 1) := by omega
      rw [hlength, pow_add, ← Nat.le_div_iff_mul_le (Nat.pow_pos (by decide))] at hlower
      have hsome := isSome_onGrid? tie hf hm (Nat.pow_pos (by decide)) h
        (not_between_of_lt f.scale hd hlower)
      rw [hnone] at hsome
      cases hsome

/-- Only zero has no significant digits. -/
theorem eq_zero_of_precision_eq_zero {d : Scientific} (h : f.IsNearest (d.value * 2 ^ f.scale) m)
    (hzero : d.precision = 0) : m = 0 := by
  obtain ⟨d', hvalue, hd⟩ := Scientific.precision_le_iff.1 hzero.le
  have hsignificand : d'.significand = 0 := by simpa using hd
  have hunits : f.IsNearest 0 0 := by
    simpa [Format.units_of_lt (Nat.two_pow_pos f.fractionBits)] using
      Format.isNearest_units (f := f) (Nat.zero_le _)
  rw [← hvalue, Scientific.value, hsignificand, Nat.cast_zero, zero_mul, zero_mul] at h
  exact h.unique hunits

/-- Nothing shorter than the shortest digits is rounded to the magnitude. -/
theorem precision_shortest_le (hf : 0 < f.fractionBits) (tie : Tie) {d : Scientific}
    (h : f.IsNearest (d.value * 2 ^ f.scale) m) : (shortest f tie m).precision ≤ d.precision := by
  rcases eq_or_ne m 0 with rfl | hne
  · rw [shortest_zero]
    exact Scientific.precision_le_of_lt (Nat.pow_pos (by decide))
  · obtain ⟨n, hn⟩ := Nat.exists_eq_succ_of_ne_zero (mt (eq_zero_of_precision_eq_zero h) hne)
    obtain ⟨d', hvalue, hd⟩ := Scientific.precision_le_iff.1 hn.le
    have hsteps : d.value * 2 ^ f.scale = d'.value * 10 ^ f.scale / 5 ^ f.scale := by
      have hten : (10 : ℚ) = 2 * 5 := by norm_num
      rw [hvalue, hten, mul_pow]
      field_simp
    rw [hsteps] at h
    rw [hn]
    have hlength := List.length_pos_iff.2 (Text.digitsOf_ne_nil (exactSteps f m))
    exact precision_searchFrom_le hf hne h.le_infinity hd h (by omega) (by omega)

/-- The choice between two equally near candidates does not change the number of digits. -/
theorem precision_shortest_eq (hf : 0 < f.fractionBits) (tie tie' : Tie)
    (magnitude : Fin (f.infinity + 1)) :
    (shortest f tie magnitude).precision = (shortest f tie' magnitude).precision := by
  have hle (tie tie' : Tie) :
      (shortest f tie magnitude).precision ≤ (shortest f tie' magnitude).precision := by
    obtain ⟨m, heq, hm⟩ := Binary.isRounded_ofScientific hf false (shortest f tie' magnitude)
    rw [ofScientific_shortest, Binary.number.injEq] at heq
    rw [← heq.2] at hm
    exact precision_shortest_le hf tie hm
  exact Nat.le_antisymm (hle tie tie') (hle tie' tie)

end Decimal

end AttributeStore
