import ComponentMarkup.Decimal.Binary

/-!
# Shortest decimals

The digits written for a double are the fewest that read back as the same double; of two such
decimals the nearer one, and of two equally near the greater. The search runs over decimal grids
from coarse to fine and tests the two neighbours of the number on each, in exact arithmetic.
-/

namespace ComponentMarkup.Decimal

/-- The number `digits * 10 ^ exponent`. -/
structure Scientific where
  digits : Nat
  exponent : Int
deriving DecidableEq, Repr

/-- The number of decimal digits of a positive whole number. -/
def digitCount (n : Nat) : Nat :=
  (Nat.toDigits 10 n).length

/-- The exponent of the first decimal digit of `mantissa * 2 ^ exponent`, for a positive
mantissa. -/
def leadingExponent (mantissa : Nat) (exponent : Int) : Int :=
  let num := mantissa * Nat.pow 2 exponent.toNat
  let den := Nat.pow 2 (-exponent).toNat
  if den ≤ num then digitCount (num / den) - 1
  else -(digitCount ((den + num - 1) / num - 1) : Int)

/-- A number reads back as the double `mantissa * 2 ^ exponent`, where the number and a quarter of the
last place of the mantissa are given in one unit. Half the distance to the next double is allowed on
either side, a quarter below a power of two, and the very ends count when the mantissa is even. -/
def readsBack (mantissa : Nat) (exponent : Int) (quarter number : Nat) : Bool :=
  let gap := if mantissa = Nat.pow 2 52 ∧ minExponent < exponent then 1 else 2
  let low := (4 * mantissa - gap) * quarter
  let high := (4 * mantissa + 2) * quarter
  if mantissa % 2 = 0 then decide (low ≤ number ∧ number ≤ high)
  else decide (low < number ∧ number < high)

/-- The neighbour of `mantissa * 2 ^ exponent` on the grid of multiples of `10 ^ grid` that reads
back as this double, if one does; of two the nearer one. -/
def onGrid? (mantissa : Nat) (exponent grid : Int) : Option Scientific :=
  let twoExponent := exponent - 2
  -- A decimal `d * 10 ^ grid` is `d * step` and the double is `4 * mantissa * scale`.
  let step := Nat.pow 10 grid.toNat * Nat.pow 2 (-twoExponent).toNat
  let scale := Nat.pow 2 twoExponent.toNat * Nat.pow 10 (-grid).toNat
  let value := 4 * mantissa * scale
  let below := value / step
  let above := below + 1
  let belowReadsBack := readsBack mantissa exponent scale (below * step)
  let nearerAbove := decide (above * step - value ≤ value - below * step)
  if readsBack mantissa exponent scale (above * step) && (nearerAbove || !belowReadsBack) then
    some ⟨above, grid⟩
  else if belowReadsBack then some ⟨below, grid⟩
  else none

/-- The shortest decimal of `mantissa * 2 ^ exponent`, for a positive mantissa. The coarsest grid is
the one whose first point lies above the number; seventeen digits tell any two doubles apart, so the
search succeeds. -/
def shortest (mantissa : Nat) (exponent : Int) : Scientific :=
  let coarsest := leadingExponent mantissa exponent + 1
  ((List.range 18).findSome? fun n : Nat => onGrid? mantissa exponent (coarsest - n)).getD ⟨0, 0⟩

end ComponentMarkup.Decimal
