import AttributeStore.Proofs.NumberValue
import AttributeStore.Value.Coercion

/-!
# Reading values as integers

The integer kinds are read alike, up to their widths.  An integer is wrapped to the width asked for.
A floating-point number is cut off towards zero and clamped, to 32 bits if the width is smaller, and
then wrapped.  So numbers of one value are read alike if the value is an integer of 32 bits,
whatever kind they are of.

## Main definitions

* `Primitive.integerWidth?`, `Value.coerceInteger?`: the widths of the integer kinds, and what a
  value is read as for one of them.
* `Value.denoted?`: the value of a number.
* `Primitive.ReadsNumbers`: how an integer kind reads numbers.

## Main results

* `Value.coerceInteger?_eq`: one rule for all integer kinds.
* `Primitive.readsNumbers`: how the integer kinds read numbers.
-/

namespace AttributeStore

open Binary (clamp Extended)

/-- The number of bits of an integer kind. -/
def Primitive.integerWidth? : Primitive → Option Nat
  | byte => some 8
  | short => some 16
  | int => some 32
  | long => some 64
  | _ => none

namespace Value

/-- The integer that a value is read as. -/
def coerceInteger? (p : Primitive) (v : Value) : Option Int :=
  (v.coerce? p).bind fun a => (p.toValue a).integer?

/-! ### One rule for all integer kinds -/

section

variable {p : Primitive} {w : Nat} {v v' : Value} {n : Int}

theorem map_readInteger? {α β : Type} (g : α → β) (wrap : Int → α) (cut : Binary.Double → α)
    (least greatest : Int) (v : Value) : (v.readInteger? wrap cut least greatest).map g =
      v.readInteger? (fun n => g (wrap n)) (fun x => g (cut x)) least greatest := by
  unfold readInteger?
  split
  · rfl
  · rfl
  · rw [Option.map_bind]
    congr 1
    funext n
    simp only [Function.comp_apply, apply_ite (Option.map g), Option.map_some, Option.map_none]

theorem toInt_cutToInt (x : Binary.Double) : (cutToInt x).toInt = clamp 32 x.truncate := by
  rw [cutToInt, Int32.ofIntClamp, Binary.clamp_eq_ite, apply_dite Int32.toInt]
  simp only [apply_dite Int32.toInt, Int32.toInt_ofIntLE, dite_eq_ite]
  rfl

theorem toInt_cutToLong (x : Binary.Double) : (cutToLong x).toInt = clamp 64 x.truncate := by
  rw [cutToLong, Int64.ofIntClamp, Binary.clamp_eq_ite, apply_dite Int64.toInt]
  simp only [apply_dite Int64.toInt, Int64.toInt_ofIntLE, dite_eq_ite]
  rfl

/-- An integer kind wraps integers to its width.  It clamps floating-point numbers first, and
narrow kinds clamp to 32 bits.  A text has to denote an integer of the width. -/
theorem coerceInteger?_eq (h : p.integerWidth? = some w) (v : Value) :
    v.coerceInteger? p = v.readInteger? (·.bmod (2 ^ w))
      (fun x => (clamp (max 32 w) x.truncate).bmod (2 ^ w)) (-2 ^ (w - 1)) (2 ^ (w - 1) - 1) := by
  have hbind {α : Type} (o : Option α) (g : α → Int) : (o.bind fun a => some (g a)) = o.map g :=
    Option.map_eq_bind.symm
  have hwrap {w : Nat} (hw : 0 < w) (n : Int) : (clamp w n).bmod (2 ^ w) = clamp w n :=
    Binary.bmod_of_mem hw (Binary.clamp_mem w n)
  cases p with
  | byte =>
    cases h
    simp only [coerceInteger?, coerce?, Primitive.toValue, integer?, hbind, map_readInteger?,
      Int8.toInt_ofInt, Int32.toInt_toInt8, toInt_cutToInt]
    rfl
  | short =>
    cases h
    simp only [coerceInteger?, coerce?, Primitive.toValue, integer?, hbind, map_readInteger?,
      Int16.toInt_ofInt, Int32.toInt_toInt16, toInt_cutToInt]
    rfl
  | int =>
    cases h
    simp only [coerceInteger?, coerce?, Primitive.toValue, integer?, hbind, map_readInteger?,
      Int32.toInt_ofInt, toInt_cutToInt, Nat.max_self, hwrap (w := 32) (by decide)]
    rfl
  | long =>
    cases h
    have hwidth : max 32 64 = 64 := rfl
    simp only [coerceInteger?, coerce?, Primitive.toValue, integer?, hbind, map_readInteger?,
      Int64.toInt_ofInt, toInt_cutToLong, hwidth, hwrap (w := 64) (by decide)]
    rfl
  | bool | float | double | char => cases h

/-- What a value is read as for an integer kind is told by its integer. -/
theorem exists_injective_toInt (h : p.integerWidth? = some w) :
    ∃ toInt : p.Carrier → Int, Function.Injective toInt ∧
      ∀ v : Value, v.coerceInteger? p = (v.coerce? p).map toInt := by
  cases p with
  | byte => exact ⟨Int8.toInt, fun _ _ => Int8.toInt.inj, fun _ => Option.map_eq_bind.symm⟩
  | short => exact ⟨Int16.toInt, fun _ _ => Int16.toInt.inj, fun _ => Option.map_eq_bind.symm⟩
  | int => exact ⟨Int32.toInt, fun _ _ => Int32.toInt.inj, fun _ => Option.map_eq_bind.symm⟩
  | long => exact ⟨Int64.toInt, fun _ _ => Int64.toInt.inj, fun _ => Option.map_eq_bind.symm⟩
  | bool | float | double | char => cases h

theorem coerce?_eq_of_coerceInteger?_eq (h : p.integerWidth? = some w)
    (heq : v.coerceInteger? p = v'.coerceInteger? p) : v.coerce? p = v'.coerce? p := by
  obtain ⟨toInt, hinj, hmap⟩ := exists_injective_toInt h
  rw [hmap, hmap] at heq
  exact Option.map_injective hinj heq

theorem isSome_coerceInteger? (h : p.integerWidth? = some w) (v : Value) :
    (v.coerceInteger? p).isSome = (v.coerce? p).isSome := by
  obtain ⟨toInt, -, hmap⟩ := exists_injective_toInt h
  rw [hmap, Option.isSome_map]

theorem integerWidth_bounds (h : p.integerWidth? = some w) : 8 ≤ w ∧ w ≤ 64 := by
  cases p <;> cases h <;> decide

theorem coerceInteger?_of_integer? (h : p.integerWidth? = some w) (hv : v.integer? = some n) :
    v.coerceInteger? p = some (n.bmod (2 ^ w)) := by
  rw [coerceInteger?_eq h, readInteger?, hv]

theorem coerceInteger?_of_floating? (h : p.integerWidth? = some w) (hinteger : v.integer? = none)
    {x : Binary.Double} (hv : v.floating? = some x) :
    v.coerceInteger? p = some ((x.denoted.cut (max 32 w)).bmod (2 ^ w)) := by
  have hw : max 32 w - 1 ≤ 2 ^ 10 := by
    have hle := (integerWidth_bounds h).2
    omega
  have hcut := Binary.clamp_truncate (f := .double) (by decide) (by decide) hw x
  rw [coerceInteger?_eq h, readInteger?, hinteger, hv, ← hcut]

/-! ### The values of numbers -/

/-- The value of a number. -/
def denoted? : Value → Option Extended
  | float x => some x.denoted
  | double x => some x.denoted
  | v => v.integer?.map fun n => .finite n

theorem exists_denoted? (h : v.isNumber) : ∃ r, v.denoted? = some r := by
  cases v <;> first | exact ⟨_, rfl⟩ | cases h

/-- A number is of an integer kind or a floating-point number. -/
theorem cases_of_denoted? {r : Extended} (h : v.denoted? = some r) :
    (∃ n, v.integer? = some n ∧ r = .finite n) ∨
      ∃ x, v.integer? = none ∧ v.floating? = some x ∧ r = x.denoted := by
  cases v with
  | byte n | short n | int n | long n => exact .inl ⟨n.toInt, rfl, (Option.some.inj h).symm⟩
  | float x =>
    have hwiden := Binary.denoted_convert Binary.Format.single_embeds_double x
    exact .inr ⟨x.convert, rfl, rfl, (Option.some.inj h).symm.trans hwiden.symm⟩
  | double x => exact .inr ⟨x, rfl, rfl, (Option.some.inj h).symm⟩
  | null | bool | char | string | list | array | map | set | object => cases h

/-- A floating-point number is cut to the width or to 32 bits, whichever is larger, and then
wrapped. -/
theorem coerceInteger?_of_denoted? (h : p.integerWidth? = some w) (hinteger : v.integer? = none)
    {r : Extended} (hv : v.denoted? = some r) :
    v.coerceInteger? p = some ((r.cut (max 32 w)).bmod (2 ^ w)) := by
  rcases cases_of_denoted? hv with ⟨n, hn, -⟩ | ⟨x, -, hx, rfl⟩
  · cases hinteger.symm.trans hn
  · exact coerceInteger?_of_floating? h hinteger hx

/-- A number whose value is an integer of the width to which floating-point numbers are cut is
wrapped, whatever kind it is of. -/
theorem coerceInteger?_of_mem_cut (h : p.integerWidth? = some w)
    (hn : -2 ^ (max 32 w - 1) ≤ n ∧ n < 2 ^ (max 32 w - 1))
    (hv : v.denoted? = some (.finite n)) : v.coerceInteger? p = some (n.bmod (2 ^ w)) := by
  rcases cases_of_denoted? hv with ⟨n', hn', heq⟩ | ⟨x, hinteger, -, -⟩
  · obtain rfl : n = n' := by exact_mod_cast Extended.finite.inj heq
    exact coerceInteger?_of_integer? h hn'
  · rw [coerceInteger?_of_denoted? h hinteger hv, Extended.cut, Binary.towardZero_intCast,
      Binary.clamp_of_mem hn]

/-- A number whose value is an integer of 32 bits is wrapped, whatever kind it is of. -/
theorem coerceInteger?_of_denoted?_finite (h : p.integerWidth? = some w)
    (hn : -2 ^ 31 ≤ n ∧ n < 2 ^ 31) (hv : v.denoted? = some (.finite n)) :
    v.coerceInteger? p = some (n.bmod (2 ^ w)) := by
  have hreach : (2 : Int) ^ 31 ≤ 2 ^ (max 32 w - 1) := pow_le_pow_right₀ (by decide) (by omega)
  exact coerceInteger?_of_mem_cut h (by omega) hv

end

end Value

namespace Primitive

variable {p : Primitive} {w : Nat}

/-- How an integer kind of `w` bits reads numbers. -/
structure ReadsNumbers (p : Primitive) (w : Nat) : Prop where
  /-- An integer is wrapped. -/
  integer : ∀ v n, Value.integer? v = some n → v.coerceInteger? p = some (n.bmod (2 ^ w))
  /-- A floating-point number is cut to a width of at least 32 bits. -/
  wide : 32 ≤ w → ∀ v r, Value.integer? v = none → v.denoted? = some r →
    v.coerceInteger? p = some (r.cut w)
  /-- For a smaller width a floating-point number is cut to 32 bits and then wrapped. -/
  narrow : w < 32 → ∀ v r, Value.integer? v = none → v.denoted? = some r →
    v.coerceInteger? p = some ((r.cut 32).bmod (2 ^ w))
  /-- A number is read for a smaller width by wrapping what it is read as for 32 bits. -/
  throughInt : w < 32 → ∀ v, Value.isNumber v → ∃ n, v.coerceInteger? .int = some n ∧
    v.coerceInteger? p = some (n.bmod (2 ^ w))
  /-- Widening a floating-point number keeps its value, and it is read as a number of the other
  format with this value is. -/
  widened : ∀ x : Binary.Single, (x.convert : Binary.Double).denoted = x.denoted ∧
    ∀ y : Binary.Double, y.denoted = x.denoted →
      (Value.float x).coerce? p = (Value.double y).coerce? p
  /-- Numbers of any kinds are read alike if their value is one integer of 32 bits. -/
  carriers : ∀ n : Int, -2 ^ 31 ≤ n → n < 2 ^ 31 → ∀ v v', Value.denoted? v = some (.finite n) →
    Value.denoted? v' = some (.finite n) → v.coerce? p = v'.coerce? p

/-- An integer kind reads numbers by its width. -/
theorem readsNumbers (h : p.integerWidth? = some w) : p.ReadsNumbers w where
  integer v n hv := Value.coerceInteger?_of_integer? h hv
  wide hw v r hinteger hv := by
    rw [Value.coerceInteger?_of_denoted? h hinteger hv, Nat.max_eq_right hw,
      Binary.bmod_of_mem (by omega) (r.cut_mem w)]
  narrow hw v r hinteger hv := by
    rw [Value.coerceInteger?_of_denoted? h hinteger hv, Nat.max_eq_left hw.le]
  throughInt hw v hnumber := by
    have hdvd : 2 ^ w ∣ 2 ^ 32 := pow_dvd_pow 2 hw.le
    obtain ⟨r, hr⟩ := Value.exists_denoted? hnumber
    rcases Value.cases_of_denoted? hr with ⟨n, hn, -⟩ | ⟨x, hinteger, -, -⟩
    · refine ⟨_, Value.coerceInteger?_of_integer? rfl hn, ?_⟩
      rw [Value.coerceInteger?_of_integer? h hn, Int.bmod_bmod_of_dvd hdvd]
    · refine ⟨_, Value.coerceInteger?_of_denoted? rfl hinteger hr, ?_⟩
      rw [Value.coerceInteger?_of_denoted? h hinteger hr, Nat.max_eq_left hw.le, Nat.max_self,
        Int.bmod_bmod_of_dvd hdvd]
  widened x := by
    refine ⟨Binary.denoted_convert Binary.Format.single_embeds_double x, fun y hy => ?_⟩
    refine Value.coerce?_eq_of_coerceInteger?_eq h ?_
    rw [Value.coerceInteger?_of_denoted? h rfl rfl, Value.coerceInteger?_of_denoted? h rfl rfl, hy]
  carriers n hleast hless v v' hv hv' := by
    refine Value.coerce?_eq_of_coerceInteger?_eq h ?_
    rw [Value.coerceInteger?_of_denoted?_finite h ⟨hleast, hless⟩ hv,
      Value.coerceInteger?_of_denoted?_finite h ⟨hleast, hless⟩ hv']

/-- Cut off and wrapped to 8 bits, `-129.5` is `127`. -/
theorem readsNumbers_byte : byte.integerWidth? = some 8 ∧
    (Value.float (.ofQuotient true 259 2)).coerceInteger? byte = some 127 := by
  have hdenoted : (Value.float (.ofQuotient true 259 2)).denoted? =
      some (.finite (-259 / 2)) := by decide +kernel
  have hcut : ((Extended.finite (-259 / 2)).cut 32).bmod (2 ^ 8) = 127 := by decide +kernel
  exact ⟨rfl, hcut ▸ (readsNumbers rfl).narrow (by decide) _ _ rfl hdenoted⟩

/-- Behind the integers of 32 bits, an integer is wrapped where a floating-point number of the same
value is clamped. -/
example : (Value.long 2147483648).coerceInteger? int = some (-2147483648) ∧
    (Value.double (.ofInt 2147483648)).coerceInteger? int = some 2147483647 := by decide +kernel

end Primitive

end AttributeStore
