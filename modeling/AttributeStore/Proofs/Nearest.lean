import AttributeStore.Proofs.DecimalValue
import Mathlib.Algebra.Order.Group.Abs
import Mathlib.Algebra.Group.Nat.Even
import Mathlib.Tactic.Linarith

/-!
# Nearest numbers

`Format.nearest` rounds as it should: no other magnitude is nearer to the quotient, and of two that
are equally near the even one is taken.  This says what rounding is without saying how it is done,
and there is only one such magnitude.

The infinity of a format takes part in this as if it were the power of two that follows the finite
numbers.  What lies half a step or more beyond the largest finite number is therefore nearest to the
infinity.

## Main definitions

* `Format.IsNearest`: the magnitude nearest to a number of units.
* `Binary.IsRounded`: the number of a format nearest to a number that is given by its sign and its
  absolute value.

## Main results

* `Format.IsNearest.unique`, `Format.IsNearest.mono`: there is one nearest magnitude, and a larger
  number has a larger one.
* `Format.IsNearest.eq_infinity_iff`, `Format.IsNearest.eq_zero_iff`: where infinity and zero are
  nearest.
* `Format.isNearest_nearest`: `Format.nearest` gives it.
* `Binary.isRounded_ofQuotient`, `Binary.isRounded_ofScientific`: quotients and decimals are rounded
  to the nearest number.
-/

namespace AttributeStore.Binary

/-! ### Distances -/

section Distance

variable {a b q : ℚ}

/-- The lower one of two numbers is the nearer one up to their middle. -/
theorem dist_le_dist_iff (h : a < b) : |a - q| ≤ |b - q| ↔ 2 * q ≤ a + b := by
  have hsquares : (b - q) ^ 2 - (a - q) ^ 2 = (b - a) * (a + b - 2 * q) := by ring
  rw [← sq_le_sq, ← sub_nonneg, hsquares, mul_nonneg_iff_of_pos_left (sub_pos.2 h), sub_nonneg]

/-- The upper one of two numbers is the nearer one from their middle on. -/
theorem dist_ge_dist_iff (h : a < b) : |b - q| ≤ |a - q| ↔ a + b ≤ 2 * q := by
  have hsquares : (a - q) ^ 2 - (b - q) ^ 2 = (b - a) * (2 * q - (a + b)) := by ring
  rw [← sq_le_sq, ← sub_nonneg, hsquares, mul_nonneg_iff_of_pos_left (sub_pos.2 h), sub_nonneg]

/-- Two numbers are equally near to their middle and to nothing else. -/
theorem dist_eq_dist_iff (h : a < b) : |a - q| = |b - q| ↔ 2 * q = a + b := by
  rw [le_antisymm_iff, dist_le_dist_iff h, dist_ge_dist_iff h, ← le_antisymm_iff]

end Distance

namespace Format

/-! ### The nearest magnitude -/

/-- The magnitude nearest to a number of units, and the even one if two are equally near.  The
infinity stands for the power of two that follows the finite numbers. -/
structure IsNearest (f : Format) (q : ℚ) (m : Nat) : Prop where
  le_infinity : m ≤ f.infinity
  dist_le : ∀ m' ≤ f.infinity, |f.units m - q| ≤ |f.units m' - q|
  even_of_tie : ∀ m' ≤ f.infinity, m' ≠ m → |f.units m - q| = |f.units m' - q| → Even m

variable {f : Format} {q : ℚ} {m m' : Nat}

theorem cast_units_lt (h : m < m') : (f.units m : ℚ) < f.units m' :=
  Nat.cast_lt.2 (f.units_strictMono h)

theorem cast_units_le (h : m ≤ m') : (f.units m : ℚ) ≤ f.units m' :=
  Nat.cast_le.2 (f.units_strictMono.monotone h)

/-- There is one nearest magnitude. -/
theorem IsNearest.unique (h : f.IsNearest q m) (h' : f.IsNearest q m') : m = m' := by
  -- Of two nearest magnitudes both are even, and what lies between them would be nearer.
  have hnot {m m' : Nat} (h : f.IsNearest q m) (h' : f.IsNearest q m') : ¬ m < m' := by
    intro hlt
    have htie : |f.units m - q| = |f.units m' - q| :=
      le_antisymm (h.dist_le m' h'.le_infinity) (h'.dist_le m h.le_infinity)
    obtain ⟨i, rfl⟩ := h.even_of_tie m' h'.le_infinity hlt.ne' htie
    obtain ⟨j, rfl⟩ := h'.even_of_tie (i + i) h.le_infinity hlt.ne htie.symm
    have hnext : i + i + 1 < j + j := by omega
    have hfar := h.dist_le (i + i + 1) (hnext.le.trans h'.le_infinity)
    rw [dist_le_dist_iff (cast_units_lt (Nat.lt_succ_self _)),
      (dist_eq_dist_iff (cast_units_lt hlt)).1 htie] at hfar
    exact absurd (cast_units_lt hnext) (by linarith)
  exact Nat.le_antisymm (Nat.not_lt.1 (hnot h' h)) (Nat.not_lt.1 (hnot h h'))

/-- Rounding keeps the order. -/
theorem IsNearest.mono (h : f.IsNearest q m) (h' : f.IsNearest q' m') (hle : q ≤ q') :
    m ≤ m' := by
  by_contra hnot
  have hlt : m' < m := Nat.lt_of_not_le hnot
  have hupper : f.units m' + f.units m ≤ 2 * q :=
    (dist_ge_dist_iff (cast_units_lt hlt)).1 (h.dist_le m' h'.le_infinity)
  have hlower : 2 * q' ≤ f.units m' + f.units m :=
    (dist_le_dist_iff (cast_units_lt hlt)).1 (h'.dist_le m h.le_infinity)
  obtain rfl : q = q' := le_antisymm hle (by linarith)
  exact hlt.ne (h'.unique h)

/-- From a magnitude to the middle of the step behind it, this magnitude is the nearest one. -/
theorem isNearest_of_le (hm : m ≤ f.infinity) (hle : f.units m ≤ q)
    (hmiddle : 2 * q ≤ f.units m + f.units (m + 1))
    (htie : 2 * q = f.units m + f.units (m + 1) → Even m) : f.IsNearest q m := by
  have hbelow {m' : Nat} (hlt : m' < m) : (f.units m' : ℚ) + f.units m < 2 * q := by
    linarith [cast_units_lt (f := f) hlt]
  have habove {m' : Nat} (hgt : m < m') : (f.units (m + 1) : ℚ) ≤ f.units m' := cast_units_le hgt
  refine ⟨hm, fun m' _ => ?_, fun m' _ hne heq => ?_⟩
  · rcases Nat.lt_trichotomy m' m with hlt | rfl | hgt
    · exact (dist_ge_dist_iff (cast_units_lt hlt)).2 (hbelow hlt).le
    · exact le_rfl
    · exact (dist_le_dist_iff (cast_units_lt hgt)).2 (by linarith [habove hgt])
  · rcases Nat.lt_or_gt_of_ne hne with hlt | hgt
    · have hmid := (dist_eq_dist_iff (cast_units_lt hlt)).1 heq.symm
      exact absurd (hbelow hlt) (by linarith)
    · have hmid := (dist_eq_dist_iff (cast_units_lt hgt)).1 heq
      exact htie (by linarith [habove hgt])

/-- From the middle of a step to the magnitude behind it, this magnitude is the nearest one. -/
theorem isNearest_of_ge (hm : m + 1 ≤ f.infinity) (hge : q ≤ f.units (m + 1))
    (hmiddle : f.units m + f.units (m + 1) ≤ 2 * q)
    (htie : 2 * q = f.units m + f.units (m + 1) → Even (m + 1)) : f.IsNearest q (m + 1) := by
  have habove {m' : Nat} (hgt : m + 1 < m') : 2 * q < f.units (m + 1) + f.units m' := by
    linarith [cast_units_lt (f := f) hgt]
  have hbelow {m' : Nat} (hlt : m' < m + 1) : (f.units m' : ℚ) ≤ f.units m :=
    cast_units_le (Nat.le_of_lt_succ hlt)
  refine ⟨hm, fun m' _ => ?_, fun m' _ hne heq => ?_⟩
  · rcases Nat.lt_trichotomy m' (m + 1) with hlt | rfl | hgt
    · exact (dist_ge_dist_iff (cast_units_lt hlt)).2 (by linarith [hbelow hlt])
    · exact le_rfl
    · exact (dist_le_dist_iff (cast_units_lt hgt)).2 (habove hgt).le
  · rcases Nat.lt_or_gt_of_ne hne with hlt | hgt
    · have hmid := (dist_eq_dist_iff (cast_units_lt hlt)).1 heq.symm
      exact htie (by linarith [hbelow hlt])
    · have hmid := (dist_eq_dist_iff (cast_units_lt hgt)).1 heq
      exact absurd (habove hgt) (by linarith)

/-- Beyond the finite numbers the infinity is the nearest magnitude. -/
theorem isNearest_infinity (h : f.units f.infinity ≤ q) : f.IsNearest q f.infinity := by
  have hlower {m' : Nat} (hlt : m' < f.infinity) :
      (f.units m' : ℚ) + f.units f.infinity < 2 * q := by
    linarith [cast_units_lt (f := f) hlt]
  refine ⟨le_rfl, fun m' hm' => ?_, fun m' hm' hne heq => ?_⟩
  · rcases hm'.lt_or_eq with hlt | rfl
    · exact (dist_ge_dist_iff (cast_units_lt hlt)).2 (hlower hlt).le
    · exact le_rfl
  · have hlt := lt_of_le_of_ne hm' hne
    have hmid := (dist_eq_dist_iff (cast_units_lt hlt)).1 heq.symm
    exact absurd (hlower hlt) (by linarith)

/-- What is nearest to the infinity of a format lies half a step or more beyond the largest finite
number. -/
theorem IsNearest.eq_infinity_iff (heven : Even f.infinity) (hpos : 0 < f.infinity)
    (h : f.IsNearest q m) :
    m = f.infinity ↔ (f.units (f.infinity - 1) : ℚ) + f.units f.infinity ≤ 2 * q := by
  obtain ⟨largest, hlargest⟩ : ∃ largest, f.infinity = largest + 1 :=
    Nat.exists_eq_add_of_lt hpos |>.imp fun _ h => by omega
  have hsub : f.infinity - 1 = largest := by omega
  rw [hsub]
  constructor
  · rintro rfl
    exact (dist_ge_dist_iff (cast_units_lt (by omega))).1 (h.dist_le largest (by omega))
  · intro hle
    have hmiddle : f.IsNearest ((f.units largest + f.units (largest + 1)) / 2) (largest + 1) :=
      isNearest_of_ge hlargest.ge (by linarith [cast_units_lt (f := f) (Nat.lt_succ_self largest)])
        (by linarith) fun _ => hlargest ▸ heven
    rw [hlargest] at hle
    exact Nat.le_antisymm h.le_infinity (hlargest ▸ hmiddle.mono h (by linarith))

/-- What is nearest to zero is at most half a unit. -/
theorem IsNearest.eq_zero_iff (hf : 0 < f.fractionBits) (hpos : 0 < f.infinity)
    (h : f.IsNearest q m) : m = 0 ↔ 2 * q ≤ 1 := by
  have hzero : f.units 0 = 0 := units_of_lt (Nat.two_pow_pos _)
  have hone : f.units 1 = 1 := units_of_lt (Nat.one_lt_two_pow hf.ne')
  constructor
  · rintro rfl
    have hle := (dist_le_dist_iff (cast_units_lt Nat.zero_lt_one)).1 (h.dist_le 1 hpos)
    simpa [hzero, hone] using hle
  · intro hle
    have hmiddle : f.IsNearest (1 / 2) 0 :=
      isNearest_of_le (Nat.zero_le _) (by simp [hzero]) (by simp [hzero, hone]) fun _ => ⟨0, rfl⟩
    exact Nat.le_zero.1 (h.mono hmiddle (by linarith))

/-- In the step behind a magnitude the nearest one is at the nearer end, or at the even one. -/
theorem isNearest_in_step (hm : m + 1 ≤ f.infinity) {step t : ℚ}
    (hstep : f.units (m + 1) = f.units m + step) (hnonneg : 0 ≤ t) (hle : t ≤ step) :
    f.IsNearest (f.units m + t)
      (if 2 * t < step then m else if step < 2 * t then m + 1 else m + m % 2) := by
  split
  next hlt => exact isNearest_of_le (by omega) (by linarith) (by linarith) fun htie => by linarith
  next hnlt =>
    split
    next hgt => exact isNearest_of_ge hm (by linarith) (by linarith) fun htie => by linarith
    next hngt =>
      rcases Nat.even_or_odd m with heven | hodd
      · rw [Nat.even_iff.1 heven, Nat.add_zero]
        exact isNearest_of_le (by omega) (by linarith) (by linarith) fun _ => heven
      · rw [Nat.odd_iff.1 hodd]
        exact isNearest_of_ge hm (by linarith) (by linarith) fun _ => hodd.add_one

/-! ### The nearest magnitude as it is computed -/

/-- A significand that is doubled `k` times stands in a magnitude with its exponent.  A significand
with a digit too many is the least one of the next exponent. -/
theorem units_significand {k significand : Nat} (hk : k = 0 ∨ 2 ^ f.fractionBits ≤ significand)
    (hle : significand ≤ 2 ^ (f.fractionBits + 1)) :
    f.units (k * 2 ^ f.fractionBits + significand) = significand * 2 ^ k := by
  rw [pow_succ] at hle
  rcases Nat.lt_or_ge significand (2 ^ f.fractionBits) with hsmall | hlarge
  · obtain rfl : k = 0 := hk.resolve_right (Nat.not_le.2 hsmall)
    rw [Nat.zero_mul, Nat.zero_add, units_of_lt hsmall, pow_zero, Nat.mul_one]
  · obtain ⟨fraction, rfl⟩ := Nat.exists_eq_add_of_le hlarge
    rw [← Nat.add_assoc, ← Nat.succ_mul]
    rcases Nat.lt_or_ge fraction (2 ^ f.fractionBits) with hfraction | hcarry
    · exact units_add k hfraction
    · obtain rfl : fraction = 2 ^ f.fractionBits := by omega
      have hnext := units_add (f := f) (k + 1) (Nat.two_pow_pos f.fractionBits)
      rw [Nat.add_zero, Nat.add_zero, Nat.succ_mul] at hnext
      rw [hnext]
      ring

/-- What is left of a number after its last binary digits are dropped is a significand. -/
theorem significand_bounds (f : Format) (n : Nat) :
    n / 2 ^ (n.log2 - f.fractionBits) < 2 ^ (f.fractionBits + 1) ∧
      (n.log2 - f.fractionBits = 0 ∨ 2 ^ f.fractionBits ≤ n / 2 ^ (n.log2 - f.fractionBits)) := by
  rcases Nat.eq_zero_or_pos n with rfl | hpos
  · simp
  · have hlower := Nat.log2_self_le hpos.ne'
    have hupper : n < 2 ^ (n.log2 + 1) := Nat.lt_log2_self
    rcases Nat.le_total n.log2 f.fractionBits with hle | hge
    · rw [Nat.sub_eq_zero_of_le hle, pow_zero, Nat.div_one]
      exact ⟨hupper.trans_le (Nat.pow_le_pow_right (by decide) (Nat.succ_le_succ hle)), .inl rfl⟩
    · obtain ⟨k, hk⟩ := Nat.exists_eq_add_of_le hge
      rw [hk] at hlower hupper
      rw [hk, Nat.add_sub_cancel_left, Nat.div_lt_iff_lt_mul (Nat.two_pow_pos k),
        Nat.le_div_iff_mul_le (Nat.two_pow_pos k), ← pow_add, ← pow_add]
      exact ⟨by rwa [Nat.add_right_comm], .inr hlower⟩

/-- The ends of the step that a quotient lies in: its last binary digits are dropped, so that what
is left is a significand, and the next significand is the other end. -/
theorem units_step {num den k : Nat} (hk : (num / den).log2 - f.fractionBits = k) :
    f.units (k * 2 ^ f.fractionBits + num / (den * 2 ^ k)) = num / (den * 2 ^ k) * 2 ^ k ∧
      f.units (k * 2 ^ f.fractionBits + num / (den * 2 ^ k) + 1) =
        (num / (den * 2 ^ k) + 1) * 2 ^ k := by
  obtain ⟨hbound, hleading⟩ := f.significand_bounds (num / den)
  rw [hk, Nat.div_div_eq_div_mul] at hbound hleading
  refine ⟨units_significand hleading hbound.le, ?_⟩
  rw [Nat.add_assoc]
  exact units_significand (hleading.imp_right Nat.le_succ_of_le) hbound

/-- Below the infinity, both ends of the step that a quotient lies in are magnitudes. -/
theorem step_le_infinity {num den k : Nat} (hk : (num / den).log2 - f.fractionBits = k)
    (hsmall : num < f.units f.infinity * den) :
    k * 2 ^ f.fractionBits + num / (den * 2 ^ k) + 1 ≤ f.infinity := by
  refine f.units_strictMono.lt_iff_lt.1 (lt_of_mul_lt_mul_right ?_ (Nat.zero_le den))
  refine lt_of_le_of_lt ?_ hsmall
  rw [(units_step hk).1, Nat.mul_right_comm, Nat.mul_assoc]
  exact Nat.div_mul_le_self num _

/-- A quotient is rounded to the nearest magnitude. -/
theorem isNearest_nearest (hf : 0 < f.fractionBits) (num : Nat) {den : Nat} (hden : 0 < den) :
    f.IsNearest (num / den) (f.nearest num den) := by
  have hdenQ : (0 : ℚ) < den := Nat.cast_pos.2 hden
  rcases Nat.lt_or_ge num (f.units f.infinity * den) with hsmall | hlarge
  · obtain ⟨k, hk⟩ : ∃ k, (num / den).log2 - f.fractionBits = k := ⟨_, rfl⟩
    have hfinite := step_le_infinity hk hsmall
    obtain ⟨hlower, hupper⟩ := units_step hk
    have hsplit := Nat.div_add_mod num (den * 2 ^ k)
    have hrest := Nat.mod_lt num (Nat.mul_pos hden (Nat.two_pow_pos k))
    rw [nearest_eq hk, roundQuotient]
    generalize num / (den * 2 ^ k) = below at *
    generalize num % (den * 2 ^ k) = rest at *
    -- The quotient lies in a step of `2 ^ k` units, by what was dropped behind its lower end.
    have hq : (num : ℚ) / den = f.units (k * 2 ^ f.fractionBits + below) + rest / den := by
      rw [hlower, ← hsplit]
      push_cast
      field_simp
    have hstep : (f.units (k * 2 ^ f.fractionBits + below + 1) : ℚ) =
        f.units (k * 2 ^ f.fractionBits + below) + 2 ^ k := by
      rw [hupper, hlower]
      push_cast
      ring
    have hle : (rest / den : ℚ) ≤ 2 ^ k := by
      rw [div_le_iff₀' hdenQ]
      exact_mod_cast hrest.le
    have hless : 2 * rest < den * 2 ^ k ↔ 2 * (rest / den : ℚ) < 2 ^ k := by
      rw [← mul_div_assoc, div_lt_iff₀' hdenQ]
      norm_cast
    have hmore : den * 2 ^ k < 2 * rest ↔ 2 ^ k < 2 * (rest / den : ℚ) := by
      rw [← mul_div_assoc, lt_div_iff₀' hdenQ]
      norm_cast
    have hparity : (k * 2 ^ f.fractionBits + below) % 2 = below % 2 := by
      have heven : 2 ∣ k * 2 ^ f.fractionBits := (dvd_pow_self 2 hf.ne').mul_left k
      omega
    rw [hq]
    convert isNearest_in_step hfinite hstep (by positivity) hle using 1
    simp only [hless, hmore, hparity]
    split_ifs <;> omega
  · rw [nearest_eq_infinity hden hlarge]
    exact isNearest_infinity ((le_div_iff₀ hdenQ).2 (by exact_mod_cast hlarge))

end Format

variable {f : Format} {negative : Bool} {q : ℚ} {x y : Binary f}

/-- The number of a format nearest to the number with a given sign and absolute value. -/
def IsRounded (negative : Bool) (q : ℚ) (x : Binary f) : Prop :=
  ∃ magnitude : Fin (f.infinity + 1), x = number negative magnitude ∧
    f.IsNearest (q * 2 ^ f.scale) magnitude

theorem IsRounded.unique (h : IsRounded negative q x) (h' : IsRounded negative q y) : x = y := by
  obtain ⟨m, rfl, hm⟩ := h
  obtain ⟨m', rfl, hm'⟩ := h'
  rw [Fin.ext (hm.unique hm')]

/-- A quotient is rounded to the nearest number. -/
theorem isRounded_ofQuotient (hf : 0 < f.fractionBits) (negative : Bool) (num : Nat) {den : Nat}
    (hden : 0 < den) : IsRounded negative (num / den) (ofQuotient negative num den : Binary f) := by
  refine ⟨_, rfl, ?_⟩
  have hnearest := Format.isNearest_nearest hf (num * 2 ^ f.scale) hden
  rwa [Nat.cast_mul, Nat.cast_pow, Nat.cast_two, mul_div_right_comm] at hnearest

/-- A decimal is rounded to the nearest number. -/
theorem isRounded_ofScientific (hf : 0 < f.fractionBits) (negative : Bool) (d : Scientific) :
    IsRounded negative d.value (ofScientific negative d : Binary f) := by
  rw [ofScientific_eq_ofQuotient, Scientific.value_eq_div]
  exact isRounded_ofQuotient hf negative _ d.denominator_pos

end AttributeStore.Binary
