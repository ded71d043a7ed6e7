import AttributeStore.Decimal.Scientific

/-!
# Shortest digits that read back

`shortest` finds, for a positive finite magnitude, a decimal with as few digits as possible that
rounds back to this magnitude, and of those the one nearest to the exact value.

A unit of a format is `5 ^ scale / 10 ^ scale`, so every finite number is an exact decimal whose
last digit stands for `10 ^ -scale`.  For one digit, two digits and so on, the search looks at
the neighbours of the exact value on the grid of decimals with that many digits.  The first grid
on which one of them reads back wins, and the last grid holds the exact value itself.

## Main definitions

* `Tie`: the choice between two equally near candidates.
* `readsBack`: whether a decimal rounds to the magnitude.
* `onGrid?`: the neighbour of the exact value to take on one grid, if any reads back.
* `shortest`: the search over all grids, the coarsest first.
-/

namespace AttributeStore.Decimal

open Binary (Format)

/-- Which of two equally near candidates is taken. -/
inductive Tie where
  /-- The larger one. -/
  | up
  /-- The one whose last digit is even. -/
  | even
deriving DecidableEq

/-- Whether a tie between `below` and `below + 1` goes to the larger one. -/
def Tie.goesUp : Tie → Nat → Bool
  | up, _ => true
  | even, below => below % 2 = 1

/-- The exact value of a magnitude as a whole number of steps of `10 ^ -scale`. -/
def exactSteps (f : Format) (magnitude : Nat) : Nat := f.units magnitude * Nat.pow 5 f.scale

/-- Whether that many steps of `10 ^ -scale` round to the magnitude. -/
def readsBack (f : Format) (magnitude steps : Nat) : Bool :=
  f.nearest steps (Nat.pow 5 f.scale) = magnitude

/-- The multiple of `grid` to take for the magnitude, in units of `grid`: of the two neighbours of
the exact value those that read back, and of both the nearer. -/
def onGrid? (f : Format) (tie : Tie) (magnitude grid : Nat) : Option Nat :=
  let exact := exactSteps f magnitude
  let below := exact / grid
  let twice := 2 * (exact % grid)
  let above := twice > grid || (twice = grid && tie.goesUp below)
  match readsBack f magnitude (below * grid), readsBack f magnitude ((below + 1) * grid) with
  | true, true => some (if above then below + 1 else below)
  | true, false => some below
  | false, true => some (below + 1)
  | false, false => none

/-- The search over the grids `10 ^ place` and finer, down to the steps of the exact value. -/
def searchFrom (f : Format) (tie : Tie) (magnitude : Nat) : Nat → Scientific
  | 0 => ⟨exactSteps f magnitude, -f.scale⟩
  | place + 1 =>
    match onGrid? f tie magnitude (Nat.pow 10 (place + 1)) with
    | some significand => ⟨significand, (place + 1 : Nat) - (f.scale : Int)⟩
    | none => searchFrom f tie magnitude place

/-- The shortest decimal that reads back as the magnitude, and of those the nearest. -/
def shortest (f : Format) (tie : Tie) (magnitude : Nat) : Scientific :=
  searchFrom f tie magnitude ((Text.digitsOf (exactSteps f magnitude)).length - 1)

end AttributeStore.Decimal
