import AttributeStore.Proofs.Conversion
import Mathlib.Data.Rat.Floor
import Mathlib.Tactic.Positivity

/-!
# The values of binary numbers

A finite binary number stands for a rational number, and a conversion to a format that has all
numbers of the old one keeps it.  A number is cut off towards zero, and what lies outside the range
of an integer type is clamped to the nearer end of it.

## Main definitions

* `Binary.Extended`, `Binary.denoted`: the value of a binary number.
* `Binary.towardZero`, `Binary.clamp`: cutting off and clamping.
* `Binary.Extended.cut`: the integer of a given width that a value is cut to.

## Main results

* `Binary.denoted_convert`: widening keeps the value.
* `Binary.truncate_eq_towardZero`: `Binary.truncate` cuts off towards zero.
* `Binary.clamp_truncate`: what the truncation of a number is clamped to.
-/

namespace AttributeStore.Binary

/-! ### Values -/

/-- A rational number, one of the two infinities, or no number. -/
inductive Extended where
  /-- No number. -/
  | nan
  /-- The infinity of a sign. -/
  | infinite (negative : Bool)
  /-- A rational number. -/
  | finite (q : ℚ)
deriving DecidableEq

variable {f g : Format}

/-- The value of a binary number. -/
def denoted : Binary f → Extended
  | nan => .nan
  | number negative magnitude =>
    if magnitude = Fin.last f.infinity then .infinite negative
    else .finite (if negative then -(f.units magnitude / 2 ^ f.scale)
      else f.units magnitude / 2 ^ f.scale)

@[simp]
theorem denoted_nan : (nan : Binary f).denoted = .nan := rfl

@[simp]
theorem denoted_infinite (negative : Bool) :
    (infinite negative : Binary f).denoted = .infinite negative := if_pos rfl

theorem denoted_number {negative : Bool} {magnitude : Fin (f.infinity + 1)}
    (h : magnitude ≠ Fin.last f.infinity) :
    (number negative magnitude).denoted = .finite (if negative
      then -(f.units magnitude / 2 ^ f.scale) else f.units magnitude / 2 ^ f.scale) := if_neg h

/-- Every binary number is no number, infinite or finite. -/
theorem denoted_cases (x : Binary f) :
    x = nan ∨ (∃ negative, x = infinite negative) ∨
      ∃ negative magnitude, magnitude ≠ Fin.last f.infinity ∧ x = number negative magnitude := by
  cases x with
  | nan => exact .inl rfl
  | number negative magnitude =>
    by_cases hlast : magnitude = Fin.last f.infinity
    · exact .inr (.inl ⟨negative, by rw [hlast, infinite]⟩)
    · exact .inr (.inr ⟨negative, magnitude, hlast, rfl⟩)

/-- A conversion to a format that has all numbers of the old one keeps the value. -/
theorem denoted_convert (h : f.Embeds g) (x : Binary f) :
    (x.convert : Binary g).denoted = x.denoted := by
  rcases denoted_cases x with rfl | ⟨negative, rfl⟩ | ⟨negative, magnitude, hfinite, rfl⟩
  · rfl
  · rw [denoted_infinite, infinite, convert, if_pos rfl, denoted_infinite]
  · obtain ⟨widened, hwidened, hconvert, hunits⟩ := exists_convert_eq h negative hfinite
    have hquotient : (g.units widened / 2 ^ g.scale : ℚ) = f.units magnitude / 2 ^ f.scale := by
      rw [div_eq_div_iff (by positivity) (by positivity)]
      exact_mod_cast hunits
    rw [hconvert, denoted_number hwidened, denoted_number hfinite, hquotient]

/-! ### Cutting off -/

/-- The whole part of a rational number: what is behind the point is cut off. -/
def towardZero (q : ℚ) : Int := if q < 0 then ⌈q⌉ else ⌊q⌋

theorem towardZero_of_nonneg {q : ℚ} (h : 0 ≤ q) : towardZero q = ⌊q⌋ := if_neg (not_lt.2 h)

theorem towardZero_neg_of_nonneg {q : ℚ} (h : 0 ≤ q) : towardZero (-q) = -⌊q⌋ := by
  rw [towardZero, Int.ceil_neg]
  split
  next => rfl
  next hge =>
    obtain rfl : q = 0 := le_antisymm (by simpa using hge) h
    simp

@[simp]
theorem towardZero_intCast (n : Int) : towardZero n = n := by
  rw [towardZero, Int.ceil_intCast, Int.floor_intCast, ite_self]

/-- The whole part of a finite number is its value cut off. -/
theorem truncate_eq_towardZero {x : Binary f} {q : ℚ} (h : x.denoted = .finite q) :
    x.truncate = towardZero q := by
  have hfloor (m : Nat) : ⌊(m / 2 ^ f.scale : ℚ)⌋ = (m / 2 ^ f.scale : Nat) := by
    exact_mod_cast Rat.floor_natCast_div_natCast m (2 ^ f.scale)
  rcases denoted_cases x with rfl | ⟨negative, rfl⟩ | ⟨negative, magnitude, hfinite, rfl⟩
  · cases h
  · rw [denoted_infinite] at h
    cases h
  · rw [denoted_number hfinite, Extended.finite.injEq] at h
    subst h
    have hnonneg : (0 : ℚ) ≤ f.units magnitude / 2 ^ f.scale := by positivity
    cases negative with
    | false => exact ((towardZero_of_nonneg hnonneg).trans (hfloor _)).symm
    | true => exact ((towardZero_neg_of_nonneg hnonneg).trans (congrArg Neg.neg (hfloor _))).symm

/-- The truncation of an infinity is the first power of two behind the finite numbers. -/
theorem truncate_infinite (hfraction : 0 < f.fractionBits) (hexponent : 0 < f.exponentBits)
    (negative : Bool) : (infinite negative : Binary f).truncate =
      if negative then -2 ^ 2 ^ (f.exponentBits - 1) else 2 ^ 2 ^ (f.exponentBits - 1) := by
  have hquotient :
      ((f.units f.infinity / 2 ^ f.scale : Nat) : Int) = 2 ^ 2 ^ (f.exponentBits - 1) := by
    rw [Format.units_infinity_eq hfraction hexponent, pow_add,
      Nat.mul_div_cancel _ (Nat.two_pow_pos _)]
    norm_cast
  cases negative with
  | false =>
    rw [if_neg Bool.false_ne_true]
    exact hquotient
  | true =>
    rw [if_pos rfl]
    exact congrArg Neg.neg hquotient

/-! ### Clamping -/

/-- The integer of `w` bits that is nearest to an integer. -/
def clamp (w : Nat) (n : Int) : Int := max (-2 ^ (w - 1)) (min n (2 ^ (w - 1) - 1))

/-- The integer of `w` bits that a value is cut to: zero for what is no number, an end of the range
for an infinity, and otherwise what is left of the value when it is cut off and clamped. -/
def Extended.cut (w : Nat) : Extended → Int
  | nan => 0
  | infinite true => -2 ^ (w - 1)
  | infinite false => 2 ^ (w - 1) - 1
  | finite q => clamp w (towardZero q)

section

variable {w : Nat} {n : Int}

theorem clamp_eq_ite (w : Nat) (n : Int) : clamp w n =
    if -2 ^ (w - 1) ≤ n then if n ≤ 2 ^ (w - 1) - 1 then n else 2 ^ (w - 1) - 1
    else -2 ^ (w - 1) := by
  have hpos : (0 : Int) < 2 ^ (w - 1) := by positivity
  rw [clamp]
  split_ifs <;> omega

theorem clamp_of_mem (h : -2 ^ (w - 1) ≤ n ∧ n < 2 ^ (w - 1)) : clamp w n = n := by
  rw [clamp, min_eq_left (by omega), max_eq_right h.1]

theorem clamp_mem (w : Nat) (n : Int) :
    -2 ^ (w - 1) ≤ clamp w n ∧ clamp w n < 2 ^ (w - 1) := by
  have hpos : (0 : Int) < 2 ^ (w - 1) := by positivity
  exact ⟨le_max_left _ _, max_lt (by omega) ((min_le_right _ _).trans_lt (by omega))⟩

/-- What a value is cut to is an integer of the width. -/
theorem Extended.cut_mem (w : Nat) (r : Extended) :
    -2 ^ (w - 1) ≤ r.cut w ∧ r.cut w < 2 ^ (w - 1) := by
  have hpos : (0 : Int) < 2 ^ (w - 1) := by positivity
  cases r with
  | nan => exact ⟨by rw [cut]; omega, hpos⟩
  | infinite negative => cases negative <;> rw [cut] <;> omega
  | finite q => exact clamp_mem w _

/-- Wrapping leaves an integer of the width as it is. -/
theorem bmod_of_mem (hw : 0 < w) (h : -2 ^ (w - 1) ≤ n ∧ n < 2 ^ (w - 1)) :
    n.bmod (2 ^ w) = n := by
  have hdouble : 2 ^ w = 2 * 2 ^ (w - 1) := by rw [← pow_succ', Nat.sub_add_cancel hw]
  refine Int.bmod_eq_of_le_mul_two ?_ ?_ <;> push_cast [hdouble] <;> omega

end

/-- A number is cut to an integer by clamping its truncation, as long as the finite numbers reach as
far as the integers do. -/
theorem clamp_truncate (hfraction : 0 < f.fractionBits) (hexponent : 0 < f.exponentBits) {w : Nat}
    (hw : w - 1 ≤ 2 ^ (f.exponentBits - 1)) (x : Binary f) :
    clamp w x.truncate = x.denoted.cut w := by
  have hpos : (0 : Int) < 2 ^ (w - 1) := by positivity
  have hreach : (2 : Int) ^ (w - 1) ≤ 2 ^ 2 ^ (f.exponentBits - 1) :=
    pow_le_pow_right₀ (by norm_num) hw
  rcases denoted_cases x with rfl | ⟨negative, rfl⟩ | ⟨negative, magnitude, hfinite, rfl⟩
  · have hzero : clamp w 0 = 0 := clamp_of_mem (by omega)
    exact hzero
  · rw [truncate_infinite hfraction hexponent, denoted_infinite, clamp]
    cases negative with
    | false =>
      rw [if_neg Bool.false_ne_true, Extended.cut, min_eq_right (by omega), max_eq_right (by omega)]
    | true =>
      rw [if_pos rfl, Extended.cut]
      exact max_eq_left (le_trans (min_le_left _ _) (by omega))
  · rw [truncate_eq_towardZero (denoted_number hfinite), denoted_number hfinite, Extended.cut]

end AttributeStore.Binary
