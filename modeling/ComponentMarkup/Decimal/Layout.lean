import ComponentMarkup.Decimal.Shortest

/-!
# The text of a number

Three forms are in use. The plain form is positional and shows a whole number without a point. The
marked form is the same, but keeps `.0` on whole numbers below `10 ^ 16` so that they are seen not
to be integers. The compact form has an exponent where the positional notation would be long.
-/

namespace ComponentMarkup.Decimal

/-- A decimal in positional notation. -/
def Scientific.positional (d : Scientific) : List Char :=
  let digits := Nat.toDigits 10 d.digits
  if 0 ≤ d.exponent then digits ++ List.replicate d.exponent.toNat '0'
  else
    let places := (-d.exponent).toNat
    if places < digits.length then
      digits.take (digits.length - places) ++ '.' :: digits.drop (digits.length - places)
    else '0' :: '.' :: List.replicate (places - digits.length) '0' ++ digits

/-- The text of a double without a mark on whole numbers. -/
def plain (x : Float) : String :=
  match parts x with
  | .nan => "NaN"
  | .infinite negative => if negative then "-inf" else "inf"
  | .finite negative mantissa exponent =>
    let magnitude := if mantissa = 0 then ['0'] else (shortest mantissa exponent).positional
    String.ofList (if negative then '-' :: magnitude else magnitude)

def isWhole (x : Float) : Bool :=
  match parts x with
  | .finite _ mantissa exponent => mantissa % Nat.pow 2 (-exponent).toNat == 0
  | _ => false

/-- The text of a double, with `.0` on whole numbers below `10 ^ 16`. -/
def marked (x : Float) : String :=
  match parts x with
  | .nan => "nan"
  | _ => if isWhole x && x.abs < 1e16 then plain x ++ ".0" else plain x

/-! ## The compact form -/

/-- A decimal with its point after the first digit, and an exponent. -/
def Scientific.exponential (d : Scientific) : List Char :=
  let digits := Nat.toDigits 10 d.digits
  let exponent := d.exponent + (digits.length - 1)
  let fraction := if digits.length = 1 then [] else '.' :: digits.drop 1
  digits.take 1 ++ fraction ++ 'e' :: (toString exponent).toList

/-- A decimal in positional notation from `10 ^ -5` up to `10 ^ 16`, never without a point, and with
an exponent outside. -/
def Scientific.compact (d : Scientific) : List Char :=
  let places := (Nat.toDigits 10 d.digits).length + d.exponent
  if places ≤ -5 ∨ 16 < places then d.exponential
  else if 0 ≤ d.exponent then d.positional ++ ['.', '0']
  else d.positional

/-- The compact text of a finite double, if it is one. -/
def compact? (x : Float) : Option String :=
  match parts x with
  | .finite negative mantissa exponent =>
    let magnitude :=
      if mantissa = 0 then ['0', '.', '0'] else (shortest mantissa exponent).compact
    some (String.ofList (if negative then '-' :: magnitude else magnitude))
  | _ => none

end ComponentMarkup.Decimal
