/-!
# Doubles as exact numbers

A finite double is a whole number times a power of two. Three things live here: the parts of a
double read off its bits, the double nearest to a quotient of whole numbers, and the remainder of a
division of doubles, which is exact.
-/

namespace ComponentMarkup.Decimal

/-- What a double stands for. -/
inductive Parts where
  | nan
  | infinite (negative : Bool)
  /-- The number `mantissa * 2 ^ exponent`, with its sign. -/
  | finite (negative : Bool) (mantissa : Nat) (exponent : Int)
deriving DecidableEq, Repr

/-- The exponent of the doubles closest to zero. -/
def minExponent : Int := -1074

/-- The parts of the double with the given bits. -/
def Parts.ofBits (bits : Nat) : Parts :=
  let negative := bits / Nat.pow 2 63 % 2 == 1
  let biased : Nat := bits / Nat.pow 2 52 % Nat.pow 2 11
  let fraction := bits % Nat.pow 2 52
  if biased = Nat.pow 2 11 - 1 then
    if fraction = 0 then .infinite negative else .nan
  else if biased = 0 then .finite negative fraction minExponent
  else .finite negative (Nat.pow 2 52 + fraction) (Int.ofNat biased - 1 + minExponent)

def parts (x : Float) : Parts :=
  Parts.ofBits x.toBits.toNat

/-- The double with the given magnitude bits and sign. -/
def ofMagnitude (negative : Bool) (bits : Nat) : Float :=
  Float.ofBits (UInt64.ofNat (if negative then Nat.pow 2 63 + bits else bits))

/-- The magnitude bits of infinity; those of a finite double are smaller. -/
def infinityBits : Nat :=
  (Nat.pow 2 11 - 1) * Nat.pow 2 52

/-! ## Rounding a quotient -/

/-- A quotient rounded to a whole number, halves to the even neighbour. -/
def roundHalfEven (num den : Nat) : Nat :=
  let floor := num / den
  let twice := 2 * (num % den)
  if twice < den then floor
  else if den < twice then floor + 1
  else floor + floor % 2

/-- The exponent at which `num / den` has a mantissa of 53 bits, or the least one. -/
def quotientExponent (num den : Nat) : Int :=
  let guess := (num.log2 : Int) - den.log2 - 52
  -- The quotient has the bit length guessed or one bit less.
  let fits := Nat.pow 2 52 * den * Nat.pow 2 guess.toNat ≤ num * Nat.pow 2 (-guess).toNat
  max (if fits then guess else guess - 1) minExponent

/-- The magnitude bits of the double nearest to `num / den`, halves to the even mantissa. A mantissa
that rounds up to the next power of two carries into the exponent by itself. -/
def quotientBits (num den : Nat) : Nat :=
  if num = 0 then 0
  else
    let exponent := quotientExponent num den
    let mantissa :=
      roundHalfEven (num * Nat.pow 2 (-exponent).toNat) (den * Nat.pow 2 exponent.toNat)
    min infinityBits ((exponent - minExponent).toNat * Nat.pow 2 52 + mantissa)

/-! ## Remainder -/

/-- The remainder of the division of `x` by `y`, with the sign of `x`. It needs no rounding: the
result is a multiple of the smaller of the two units and smaller than `y`. -/
def remainder (x y : Float) : Float :=
  match parts x, parts y with
  | .finite negative m e, .finite _ n d =>
    if n = 0 then 0.0 / 0.0
    else
      let unit := min e d
      let rest := m * Nat.pow 2 (e - unit).toNat % (n * Nat.pow 2 (d - unit).toNat)
      ofMagnitude negative (quotientBits (rest * Nat.pow 2 unit.toNat) (Nat.pow 2 (-unit).toNat))
  | .finite .., .infinite _ => x
  | _, _ => 0.0 / 0.0

end ComponentMarkup.Decimal
