import AttributeStore.Proofs.IntegerReads
import AttributeStore.Proofs.NumberOrder
import AttributeStore.Proofs.TextRoundTrip

/-!
# Reading values as floating-point numbers

Both floating-point kinds read a number of any kind alike, up to their formats: the exact value is
rounded to the nearest number of the format, once.  A floating-point number of the narrow kind goes
through the wide format on the way, which has all narrow numbers, so that nothing is rounded there.
Hence reading keeps the order of numbers, and an integer that a significand can hold comes back
when it is stored as it was read.

## Main definitions

* `Primitive.HoldsFormat`: the floating-point kinds and their formats.
* `Primitive.RoundsNumbers`: how a floating-point kind reads numbers.

## Main results

* `Value.exists_readFloating?_of_denoted?`: a number is rounded once.
* `Primitive.floatingReads`: how the two floating-point kinds read numbers.
-/

namespace AttributeStore

open Binary (Extended Format)

/-! ### Rounding a number of any kind -/

namespace Value

variable {f : Format} {v v' : Value} {n : Int} {q : ℚ} {r r' : Extended}

/-- Whether a number has a minus sign, as one of the two zeros has. -/
def isNegative : Value → Bool
  | float x => x.isNegative
  | double x => x.isNegative
  | v => v.integer?.any (· < 0)

theorem hasSign_intCast (n : Int) : (Extended.finite n).HasSign (n < 0) := by
  simp only [Extended.HasSign, decide_eq_true_eq]
  split
  next hneg => exact_mod_cast hneg.le
  next hnonneg => exact_mod_cast not_lt.1 hnonneg

/-- A number has the sign of its value. -/
theorem hasSign_of_denoted? (hv : v.denoted? = some r) : r.HasSign v.isNegative := by
  cases v with
  | byte n | short n | int n | long n =>
    obtain rfl := Option.some.inj hv
    exact hasSign_intCast n.toInt
  | float x | double x =>
    obtain rfl := Option.some.inj hv
    exact Binary.hasSign_denoted x
  | null | bool | char | string | list | array | map | set | object => cases hv

/-- A number is rounded from its value, also if it goes through a wider format. -/
theorem exists_readFloating?_of_denoted? (hf : 0 < f.fractionBits) (hv : v.denoted? = some r) :
    ∃ x, v.readFloating? f = some x ∧ r.RoundsTo v.isNegative x := by
  cases v with
  | byte n | short n | int n | long n =>
    obtain rfl := Option.some.inj hv
    exact ⟨_, rfl, Binary.roundsTo_ofInt hf n.toInt⟩
  | float x =>
    obtain rfl := Option.some.inj hv
    have hrounds := Binary.roundsTo_convert hf (x.convert : Binary.Double)
    rw [Binary.denoted_convert Format.single_embeds_double, Binary.isNegative_convert] at hrounds
    exact ⟨_, rfl, hrounds⟩
  | double x =>
    obtain rfl := Option.some.inj hv
    exact ⟨_, rfl, Binary.roundsTo_convert hf x⟩
  | null | bool | char | string | list | array | map | set | object => cases hv

/-- An integer with few enough binary digits is read as itself. -/
theorem exists_readFloating?_of_integer? (hf : f.IsRegular) (hv : v.integer? = some n)
    (hn : |n| ≤ 2 ^ (f.fractionBits + 1)) :
    ∃ x, v.readFloating? f = some x ∧ x.denoted = .finite n := by
  refine ⟨.ofInt n, ?_, Binary.denoted_ofInt hf hn⟩
  rw [readFloating?, hv]

/-- A number whose value is an integer of 64 bits is read as this integer. -/
theorem coerceInteger?_long (hv : v.denoted? = some (.finite n)) (hn : -2 ^ 63 ≤ n ∧ n < 2 ^ 63) :
    v.coerceInteger? .long = some n := by
  rw [coerceInteger?_of_mem_cut rfl hn hv, Binary.bmod_of_mem (by decide) hn]

end Value

/-! ### What is stored in the meantime -/

namespace Store

variable {store : Store} {m : MapId} {key : String} {v : Value}

/-- A value in an open slot is read as a primitive, and once this stands in its place, it is read as
another. -/
theorem exists_readThrough (hm : store.HasMap m) (hname : IsValidName key)
    (hopen : store.IsOpen m key) {p p' : Primitive} {a : p.Carrier} {b : p'.Carrier}
    (hv : v.isNull = false) (hread : v.coerce? p = some a)
    (hread' : (p.toValue a).coerce? p' = some b) :
    ∃ id written, store.set m key v = (.ok id, written) ∧
      (written.contents m).getAs p key = .ok a ∧
      ∃ id' rewritten, written.set m key (p.toValue a) = (.ok id', rewritten) ∧
        (rewritten.contents m).getAs p' key = .ok b := by
  have hnull : (p.toValue a).isNull = false := by cases p <;> rfl
  obtain ⟨id, written, hset, hm', hopen', hget⟩ := exists_set hm hname hopen v
  obtain ⟨id', rewritten, hset', -, -, hget'⟩ := exists_set hm' hname hopen' (p.toValue a)
  refine ⟨id, written, hset, ?_, id', rewritten, hset', ?_⟩
  · rw [Contents.getAs_of_get hget hv, hread, Option.elim_some]
  · rw [Contents.getAs_of_get hget' hnull, hread', Option.elim_some]

end Store

namespace Primitive

variable {p : Primitive} {f : Format} {number : p.Carrier → Binary f}

/-- A floating-point kind, its format, and the number behind each of its primitives. -/
structure HoldsFormat (p : Primitive) (f : Format) (number : p.Carrier → Binary f) : Prop where
  regular : f.IsRegular
  fractionBits_le : f.fractionBits + 1 ≤ 62
  map_coerce? : ∀ v : Value, (v.coerce? p).map number = v.readFloating? f
  denoted? : ∀ a, (p.toValue a).denoted? = some (number a).denoted

theorem holdsFormat_float : float.HoldsFormat .single id :=
  ⟨Format.isRegular_single, by decide, fun _ => congrFun Option.map_id _, fun _ => rfl⟩

theorem holdsFormat_double : double.HoldsFormat .double id :=
  ⟨Format.isRegular_double, by decide, fun _ => congrFun Option.map_id _, fun _ => rfl⟩

/-- How a floating-point kind reads numbers. -/
structure RoundsNumbers (p : Primitive) (f : Format) (number : p.Carrier → Binary f) : Prop where
  /-- A number of any kind has a sign, and it is rounded to the nearest number of the format with
  this sign. -/
  nearest : ∀ v r, Value.denoted? v = some r → r.HasSign v.isNegative ∧
    ∃ a, v.coerce? p = some a ∧ r.RoundsTo v.isNegative (number a)
  /-- A finite number becomes infinite half a step beyond the largest finite number. -/
  overflow : ∀ v q a, Value.denoted? v = some (.finite q) → v.coerce? p = some a →
    (number a = .infinite v.isNegative ↔ f.overflow ≤ |q|)
  /-- A number becomes zero, and keeps its sign, up to half a unit. -/
  underflow : ∀ v q a, Value.denoted? v = some (.finite q) → v.coerce? p = some a →
    (number a = .number v.isNegative 0 ↔ |q| ≤ f.underflow)
  /-- A number of the kind itself is read as it is. -/
  own : ∀ a, (p.toValue a).coerce? p = some a
  /-- Of two numbers of any kinds the larger one is read as the larger one. -/
  monotone : ∀ v v' r r', Value.denoted? v = some r → Value.denoted? v' = some r' → r ≤ r' →
    ∃ a a', v.coerce? p = some a ∧ v'.coerce? p = some a' ∧
      (number a).denoted ≤ (number a').denoted
  /-- An integer with few enough binary digits is read as itself.  Stored as it was read, it is read
  as this integer again. -/
  integer : ∀ v n, Value.integer? v = some n → |n| ≤ 2 ^ (f.fractionBits + 1) →
    ∃ a b, v.coerce? p = some a ∧ (number a).denoted = .finite n ∧
      (p.toValue a).coerce? .long = some b ∧ b.toInt = n ∧
      ∀ (store : Store) m key, store.HasMap m → IsValidName key → store.IsOpen m key →
        ∃ id written, store.set m key v = (.ok id, written) ∧
          (written.contents m).getAs p key = .ok a ∧
          ∃ id' rewritten, written.set m key (p.toValue a) = (.ok id', rewritten) ∧
            (rewritten.contents m).getAs .long key = .ok b

namespace HoldsFormat

theorem exists_coerce? (h : p.HoldsFormat f number) {v : Value} {x : Binary f}
    (hread : v.readFloating? f = some x) : ∃ a, v.coerce? p = some a ∧ number a = x := by
  rw [← h.map_coerce?] at hread
  exact Option.map_eq_some_iff.1 hread

theorem roundsTo (h : p.HoldsFormat f number) {v : Value} {r : Extended} {a : p.Carrier}
    (hv : v.denoted? = some r) (hread : v.coerce? p = some a) :
    r.RoundsTo v.isNegative (number a) := by
  obtain ⟨x, hx, hrounds⟩ := Value.exists_readFloating?_of_denoted? h.regular.fractionBits_pos hv
  rw [← h.map_coerce?, hread, Option.map_some, Option.some.injEq] at hx
  exact hx ▸ hrounds

theorem exists_roundsTo (h : p.HoldsFormat f number) {v : Value} {r : Extended}
    (hv : v.denoted? = some r) :
    ∃ a, v.coerce? p = some a ∧ r.RoundsTo v.isNegative (number a) := by
  obtain ⟨x, hx, -⟩ := Value.exists_readFloating?_of_denoted? h.regular.fractionBits_pos hv
  obtain ⟨a, ha, -⟩ := h.exists_coerce? hx
  exact ⟨a, ha, h.roundsTo hv ha⟩

/-- An integer that a significand can hold is read as a primitive that is read as this integer. -/
theorem exists_coerce?_long (h : p.HoldsFormat f number) {v : Value} {n : Int}
    (hv : v.integer? = some n) (hn : |n| ≤ 2 ^ (f.fractionBits + 1)) :
    ∃ a b, v.coerce? p = some a ∧ (number a).denoted = .finite n ∧
      (p.toValue a).coerce? .long = some b ∧ b.toInt = n := by
  obtain ⟨x, hx, hdenoted⟩ := Value.exists_readFloating?_of_integer? h.regular hv hn
  obtain ⟨a, ha, rfl⟩ := h.exists_coerce? hx
  have hbound : (2 : Int) ^ (f.fractionBits + 1) ≤ 2 ^ 62 :=
    pow_le_pow_right₀ (by decide) h.fractionBits_le
  have hrange := abs_le.1 (hn.trans hbound)
  have hlong : (p.toValue a).coerceInteger? .long = some n :=
    Value.coerceInteger?_long ((h.denoted? a).trans (by rw [hdenoted])) (by omega)
  obtain ⟨b, hb, hinteger⟩ := Option.bind_eq_some_iff.1 hlong
  exact ⟨a, b, ha, hdenoted, hb, Option.some.inj hinteger⟩

/-- A kind that holds the numbers of a format rounds to this format. -/
theorem roundsNumbers (h : p.HoldsFormat f number) : p.RoundsNumbers f number where
  nearest v r hv := ⟨Value.hasSign_of_denoted? hv, h.exists_roundsTo hv⟩
  overflow v q a hv hread := (h.roundsTo hv hread).eq_infinite_iff h.regular
  underflow v q a hv hread := (h.roundsTo hv hread).eq_zero_iff h.regular
  own a := Value.coerce?_toValue p a
  monotone v v' r r' hv hv' hle := by
    obtain ⟨a, ha, hrounds⟩ := h.exists_roundsTo hv
    obtain ⟨a', ha', hrounds'⟩ := h.exists_roundsTo hv'
    exact ⟨a, a', ha, ha', hrounds.mono h.regular (Value.hasSign_of_denoted? hv)
      (Value.hasSign_of_denoted? hv') hrounds' hle⟩
  integer v n hv hn := by
    have hnull : v.isNull = false := by cases v <;> first | rfl | cases hv
    obtain ⟨a, b, ha, hdenoted, hb, hinteger⟩ := h.exists_coerce?_long hv hn
    exact ⟨a, b, ha, hdenoted, hb, hinteger, fun _ _ _ hm hname hopen =>
      Store.exists_readThrough hm hname hopen hnull ha hb⟩

end HoldsFormat

/-- How the two floating-point kinds read numbers. -/
structure FloatingReads : Prop where
  /-- The narrow kind rounds to 32 bits, also what is read through 64 bits. -/
  float : RoundsNumbers .float .single id
  /-- The wide kind rounds to 64 bits. -/
  double : RoundsNumbers .double .double id
  /-- The wide kind reads a number of the narrow kind as what it is. -/
  widened : ∀ x : Binary.Single, ∃ y, (Value.float x).coerce? .double = some y ∧
    y.denoted = x.denoted ∧ y.isNegative = x.isNegative
  /-- The significands of the wide kind hold all integers of up to 32 bits. -/
  small : ∀ v n, Value.integer? v = some n → (∀ a, v ≠ .long a) →
    |n| ≤ 2 ^ (Format.double.fractionBits + 1)

/-- Both floating-point kinds round numbers once, to the nearest one. -/
theorem floatingReads : FloatingReads where
  float := holdsFormat_float.roundsNumbers
  double := holdsFormat_double.roundsNumbers
  widened x := by
    have hread : (Value.float x).coerce? .double = some x.convert :=
      congrArg some (Binary.convert_self _)
    exact ⟨_, hread, Binary.denoted_convert Format.single_embeds_double x,
      Binary.isNegative_convert x⟩
  small v n hv hlong := by
    suffices h : -2 ^ 31 ≤ n ∧ n < 2 ^ 31 from
      (abs_le.2 ⟨h.1, h.2.le⟩).trans (pow_le_pow_right₀ (by decide) (by decide))
    cases v with
    | byte m =>
      obtain rfl := Option.some.inj hv
      exact ⟨le_trans (by decide) m.le_toInt, m.toInt_lt.trans (by decide)⟩
    | short m =>
      obtain rfl := Option.some.inj hv
      exact ⟨le_trans (by decide) m.le_toInt, m.toInt_lt.trans (by decide)⟩
    | int m =>
      obtain rfl := Option.some.inj hv
      exact ⟨m.le_toInt, m.toInt_lt⟩
    | long m => exact absurd rfl (hlong m)
    | float | double | null | bool | char | string | list | array | map | set | object => cases hv

/-- Behind the middle of two narrow numbers by less than the wide format tells apart, an integer is
rounded up, and it would be rounded down on the way through that format. -/
example : (Value.long (2 ^ 60 + 2 ^ 36 + 1)).coerce? .float = some (.ofInt (2 ^ 60 + 2 ^ 37)) ∧
    (Value.long (2 ^ 60 + 2 ^ 36 + 1)).coerce? .double = some (.ofInt (2 ^ 60 + 2 ^ 36)) ∧
    (Value.double (.ofInt (2 ^ 60 + 2 ^ 36))).coerce? .float = some (.ofInt (2 ^ 60)) := by
  decide +kernel

end Primitive

end AttributeStore
