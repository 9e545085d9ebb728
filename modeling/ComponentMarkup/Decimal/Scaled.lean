import ComponentMarkup.Decimal.Reading

/-!
# Numbers scaled by a power of ten

Data files hold many numbers, and these are read in two quick steps instead of being rounded once
from all their digits. First the leading digits are collected into a whole number of 64 bits, the
*significand*; digits that no longer fit count only towards the power of ten. Then the significand,
as a double, is multiplied or divided by that power, as a double. With few digits and a small power
both are exact, and the result is the nearest double.
-/

namespace ComponentMarkup.Decimal

/-! ## Collecting digits -/

/-- The number `significand * 10 ^ exponent`. -/
structure Figures where
  significand : Nat
  exponent : Int
deriving DecidableEq, Repr

namespace Figures

/-- The largest significand. -/
def limit : Nat := 18446744073709551615

/-- A significand with one more digit, if that still fits. -/
def append? (significand : Nat) (digit : Char) : Option Nat :=
  let next := 10 * significand + (digit.toNat - '0'.toNat)
  if next ≤ limit then some next else none

/-- Collect the digits of a whole number. From the first that does not fit, all are left out and
each of them raises the exponent. -/
def collectWhole (significand : Nat) : List Char → Figures
  | [] => ⟨significand, 0⟩
  | digit :: rest =>
    match append? significand digit with
    | some next => collectWhole next rest
    | none => ⟨significand, rest.length + 1⟩

/-- Collect the digits of a fraction, each of which lowers the exponent. From the first that does
not fit, all are left out. -/
def collectFraction (figures : Figures) : List Char → Figures
  | [] => figures
  | digit :: rest =>
    match append? figures.significand digit with
    | some next => collectFraction ⟨next, figures.exponent - 1⟩ rest
    | none => figures

/-! ## Scaling -/

/-- The largest power of ten that is a double. -/
def maxPower : Nat := 308

def powerOfTen (n : Nat) : Float :=
  nearest false 1 n

/-- A double times a power of ten, if the product is finite. -/
def raise? (x : Float) (places : Nat) : Option Float :=
  if places ≤ maxPower then
    let product := x * powerOfTen places
    if product.isInf then none else some product
  else if x == 0.0 then some x
  else none

/-- A double divided by a power of ten, in several steps if the power is no double. -/
def lower (x : Float) (places : Nat) : Float :=
  if places ≤ maxPower then x / powerOfTen places
  else if x == 0.0 then x
  else lower (x / powerOfTen maxPower) (places - maxPower)
termination_by places
decreasing_by simp only [maxPower] at *; omega

/-- The double for collected digits, if it is finite. -/
def toFloat? (figures : Figures) (negative : Bool) : Option Float :=
  let significand := nearest false figures.significand 0
  let magnitude? :=
    if 0 ≤ figures.exponent then raise? significand figures.exponent.toNat
    else some (lower significand (-figures.exponent).toNat)
  magnitude?.map fun magnitude => if negative then -magnitude else magnitude

end Figures

end ComponentMarkup.Decimal
