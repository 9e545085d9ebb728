import ComponentMarkup.Decimal.Binary

/-!
# Reading a number

A number is read as a sign, whole digits, an optional fraction and an optional exponent, and becomes
the nearest double. The words for infinity and for no number at all are read in any letter case.
-/

namespace ComponentMarkup.Decimal

/-- The whole number that a list of decimal digits denotes, leading digit first. -/
def digitsValue (digits : List Char) : Nat :=
  digits.foldl (fun n c => 10 * n + (c.toNat - '0'.toNat)) 0

/-- The double nearest to `digits * 10 ^ exponent`. Numbers far outside the range of doubles are
decided by their magnitude alone. -/
def nearest (negative : Bool) (digits : Nat) (exponent : Int) : Float :=
  let magnitude := (Nat.toDigits 10 digits).length + exponent
  ofMagnitude negative <|
    if digits = 0 ∨ magnitude < -400 then 0
    else if 400 < magnitude then infinityBits
    else quotientBits (digits * Nat.pow 10 exponent.toNat) (Nat.pow 10 (-exponent).toNat)

/-- A leading sign, and what follows it. Without a sign the number is positive. -/
def readSign : List Char → Bool × List Char
  | '-' :: rest => (true, rest)
  | '+' :: rest => (false, rest)
  | text => (false, text)

/-- An exponent mark with its number, or nothing at the end of the text. -/
def readExponent? : List Char → Option Int
  | [] => some 0
  | mark :: rest =>
    let (negative, digits) := readSign rest
    if (mark = 'e' ∨ mark = 'E') ∧ digits ≠ [] ∧ digits.all Char.isDigit then
      some (if negative then -(digitsValue digits : Int) else digitsValue digits)
    else none

/-- Digits around an optional point, then an exponent: the digits as one number and the power of ten
they stand at. At least one digit is needed. -/
def readDecimal? (text : List Char) : Option (Nat × Int) :=
  let whole := text.takeWhile Char.isDigit
  let (fraction, rest) :=
    match text.dropWhile Char.isDigit with
    | '.' :: rest => (rest.takeWhile Char.isDigit, rest.dropWhile Char.isDigit)
    | rest => ([], rest)
  if whole = [] ∧ fraction = [] then none
  else (readExponent? rest).map fun e => (digitsValue (whole ++ fraction), e - fraction.length)

/-- The double that a whole text denotes. -/
def read? (text : List Char) : Option Float :=
  let (negative, body) := readSign text
  let word := String.ofList (body.map Char.toLower)
  if word = "inf" ∨ word = "infinity" then some (ofMagnitude negative infinityBits)
  else if word = "nan" then some (0.0 / 0.0)
  else (readDecimal? body).map fun (digits, exponent) => nearest negative digits exponent

end ComponentMarkup.Decimal
