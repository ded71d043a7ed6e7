import AttributeStore.Proofs.Rounding

/-!
# Conversions between formats

A conversion to a format that has all numbers of the old one loses nothing: converting back gives
the number again.  The format of 64 bits has all numbers of the format of 32 bits.

## Main definitions

* `Binary.Format.Embeds`: one format has all numbers of another.

## Main results

* `Binary.convert_self`: a conversion to the same format changes nothing.
* `Binary.convert_convert`: a conversion to a wider format and back changes nothing.
-/

namespace AttributeStore.Binary

variable {f g : Format}

/-- `f.Embeds g` says that the format `g` has as many digits and as small a unit as `f`, and that
its finite numbers reach as far. -/
structure Format.Embeds (f g : Format) : Prop where
  fractionBits_le : f.fractionBits ≤ g.fractionBits
  scale_le : f.scale ≤ g.scale
  units_infinity_le : f.units f.infinity * 2 ^ (g.scale - f.scale) ≤ g.units g.infinity

theorem Format.single_embeds_double : Format.single.Embeds Format.double where
  fractionBits_le := by decide
  scale_le := by decide
  units_infinity_le := by
    rw [units_infinity (by decide), units_infinity (by decide), ← pow_add]
    exact Nat.pow_le_pow_right (by decide) (by decide)

/-- A magnitude of a format stands for a whole number of units of each format that embeds it, and
this number is exact there. -/
theorem Format.Embeds.exists_units_eq (h : f.Embeds g) (m : Nat) :
    ∃ m', g.units m' = f.units m * 2 ^ (g.scale - f.scale) := by
  have hbits : 2 ^ (f.fractionBits + 1) ≤ 2 ^ (g.fractionBits + 1) :=
    Nat.pow_le_pow_right (by decide) (Nat.succ_le_succ h.fractionBits_le)
  obtain ⟨n, k, hn, hunits⟩ : ∃ n k, n < 2 ^ (f.fractionBits + 1) ∧ f.units m = n * 2 ^ k := by
    rcases f.magnitude_cases m with hsmall | ⟨k, fraction, hfraction, rfl⟩
    · exact ⟨m, 0, by rw [pow_succ]; omega, by rw [units_of_lt hsmall, pow_zero, Nat.mul_one]⟩
    · exact ⟨_, k, by rw [pow_succ]; omega, units_add k hfraction⟩
  rw [hunits, Nat.mul_assoc, ← pow_add]
  exact Format.exists_units_eq (Nat.lt_of_lt_of_le hn hbits) _

theorem ofQuotient_units (negative : Bool) (magnitude : Fin (f.infinity + 1)) :
    ofQuotient negative (f.units magnitude) (2 ^ f.scale) = number negative magnitude :=
  ofQuotient_eq (Format.nearest_units (Nat.le_of_lt_succ magnitude.isLt) (Nat.two_pow_pos _))

/-- A conversion to the same format changes nothing. -/
theorem convert_self (x : Binary f) : (x.convert : Binary f) = x := by
  cases x with
  | nan => rfl
  | number negative magnitude =>
    simp only [convert]
    split
    next hlast => rw [hlast, infinite]
    next => exact ofQuotient_units negative magnitude

/-- A conversion of a finite number to a format that has all numbers of the old one gives a finite
number, and it stands for the same. -/
theorem exists_convert_eq (h : f.Embeds g) (negative : Bool) {magnitude : Fin (f.infinity + 1)}
    (hfinite : magnitude ≠ Fin.last f.infinity) :
    ∃ widened : Fin (g.infinity + 1), widened ≠ Fin.last g.infinity ∧
      (convert (number negative magnitude) : Binary g) = number negative widened ∧
      g.units widened * 2 ^ f.scale = f.units magnitude * 2 ^ g.scale := by
  obtain ⟨m, hm⟩ := h.exists_units_eq magnitude
  have hlt : m < g.infinity := by
    rw [← g.units_strictMono.lt_iff_lt, hm]
    refine Nat.lt_of_lt_of_le ?_ h.units_infinity_le
    refine Nat.mul_lt_mul_of_pos_right (f.units_strictMono ?_) (Nat.two_pow_pos _)
    exact Fin.val_lt_last hfinite
  have hscale : 2 ^ g.scale = 2 ^ (g.scale - f.scale) * 2 ^ f.scale := by
    rw [← pow_add, Nat.sub_add_cancel h.scale_le]
  refine ⟨⟨m, Nat.lt_succ_of_lt hlt⟩, fun heq => Nat.ne_of_lt hlt (congrArg Fin.val heq), ?_, ?_⟩
  · rw [convert, if_neg hfinite]
    refine ofQuotient_eq ?_
    rw [hscale, ← Nat.mul_assoc, ← hm]
    exact Format.nearest_units (Nat.le_of_lt hlt) (Nat.two_pow_pos _)
  · rw [hscale, ← Nat.mul_assoc, ← hm]

/-- A conversion to a format that has all numbers of the old one is undone by converting back. -/
theorem convert_convert (h : f.Embeds g) (x : Binary f) :
    ((x.convert : Binary g).convert : Binary f) = x := by
  cases x with
  | nan => rfl
  | number negative magnitude =>
    by_cases hlast : magnitude = Fin.last f.infinity
    · simp [convert, hlast, infinite]
    · obtain ⟨widened, hfinite, hwiden, hunits⟩ := exists_convert_eq h negative hlast
      rw [hwiden, convert, if_neg hfinite]
      refine ofQuotient_eq ?_
      rw [hunits]
      exact Format.nearest_units (Nat.le_of_lt_succ magnitude.isLt) (Nat.two_pow_pos _)

end AttributeStore.Binary
