import ComponentMarkup.Eval.Error
import ComponentMarkup.Integer
import ComponentMarkup.Value.Compare

/-!
# Arithmetic

Sums, products and powers of integers are computed on whole numbers of any size; a result that does
not fit into 64 bits is an error. Division of integers with `//` and `%` rounds down, so the
remainder has the sign of the divisor. As soon as a float takes part, and for `/`, doubles are used.
`+` also joins strings, lists and tuples, and `*` repeats them.
-/

namespace ComponentMarkup

/-- The value of a whole number that must fit into 64 bits. -/
def checkedInt (z : Int) : Except OperationError Value :=
  match integer? z with
  | some i => .ok (.int i)
  | none => .error .integerOverflow

/-! ## Floats -/

/-- The remainder of a division that rounds down. -/
def floorRemainder (a b : Float) : Float :=
  let r := Decimal.remainder a b
  if r != 0.0 && (r < 0.0) != (b < 0.0) then r + b else r

def floatBinary : BinaryOp → Float → Float → Except OperationError Value
  | .add, a, b => .ok (.float (a + b))
  | .sub, a, b => .ok (.float (a - b))
  | .mul, a, b => .ok (.float (a * b))
  | .div, a, b => if b == 0.0 then .error .divisionByZero else .ok (.float (a / b))
  | .floorDiv, a, b =>
    if b == 0.0 then .error .floorDivisionByZero else .ok (.float (a / b).floor)
  | .mod, a, b => if b == 0.0 then .error .remainderByZero else .ok (.float (floorRemainder a b))
  | .pow, a, b =>
    if a == 0.0 && b < 0.0 then .error .zeroToNegativePower else .ok (.float (a.pow b))

/-! ## Integers -/

/-- A power with an exponent of at most 32 bits. Powers of 0, 1 and -1 are known without counting;
any other number leaves the range of integers before the 64th power. -/
def intPower (a : Int) (n : Nat) : Except OperationError Value :=
  if 4294967296 ≤ n then .error .integerOverflow
  else if a.natAbs ≤ 1 then checkedInt (if n = 0 then 1 else if n % 2 = 0 then a.natAbs else a)
  else if 64 ≤ n then .error .integerOverflow
  else checkedInt (Int.pow a n)

/-- The quotient of integers, rounded down. The division of 64-bit words rounds towards zero, which
is one too much if the signs differ and something remains. -/
def floorQuotient (x y : Int64) : Int64 :=
  if x % y != 0 && decide (x < 0) != decide (y < 0) then x / y - 1 else x / y

/-- What remains of a division that rounds down. -/
def floorRest (x y : Int64) : Int64 :=
  if x % y != 0 && decide (x % y < 0) != decide (y < 0) then x % y + y else x % y

/-- An operation on integers. The remainder of the least integer by -1 counts as an overflow, like
their quotient. -/
def intBinary (op : BinaryOp) (x y : Int64) : Except OperationError Value :=
  let a := x.toInt
  let b := y.toInt
  match op with
  | .add => checkedInt (a + b)
  | .sub => checkedInt (a - b)
  | .mul => checkedInt (a * b)
  | .div => floatBinary .div x.toFloat y.toFloat
  | .floorDiv =>
    if b = 0 then .error .integerDivisionByZero
    else if a = -integerBound ∧ b = -1 then .error .integerOverflow
    else .ok (.int (floorQuotient x y))
  | .mod =>
    if b = 0 then .error .integerDivisionByZero
    else if a = -integerBound ∧ b = -1 then .error .integerOverflow
    else .ok (.int (floorRest x y))
  | .pow => if b < 0 then floatBinary .pow x.toFloat y.toFloat else intPower a b.toNat

def Number.binary (op : BinaryOp) : Number → Number → Except OperationError Value
  | .int a, .int b => intBinary op a b
  | a, b => floatBinary op a.toFloat b.toFloat

/-! ## Sequences -/

/-- The longest string or sequence that a repetition may make, in bytes or items. -/
def maxRepetition : Nat :=
  16777216

/-- How often to repeat something of a given length. A negative count is none at all. -/
def repetitions (length : Nat) (count : Int64) : Except OperationError Nat :=
  let n := count.toInt.toNat
  if length * n ≤ maxRepetition then .ok n else .error .repetitionTooLong

def repeatString (s : String) (n : Nat) : String :=
  if s.isEmpty then "" else Nat.repeat (· ++ s) n ""

def repeatItems (items : List Value) (n : Nat) : List Value :=
  if items.isEmpty then [] else (List.replicate n items).flatten

/-- A string, list or tuple several times over; nothing for other values. -/
def Value.repeat? (v : Value) (count : Int64) : Option (Except OperationError Value) :=
  match v with
  | .str s => some ((repetitions s.utf8ByteSize count).map fun n => .str (repeatString s n))
  | .list items => some ((repetitions items.length count).map fun n => .list (repeatItems items n))
  | .tuple items =>
    some ((repetitions items.length count).map fun n => .tuple (repeatItems items n))
  | _ => .none

/-- Repetition, where the count may stand on either side; nothing for other operands. -/
def repetition? (left right : Value) : Option (Except OperationError Value) :=
  match right.toInt?.bind left.repeat? with
  | some result => some result
  | none => left.toInt?.bind right.repeat?

/-! ## Operators -/

/-- An operation on numbers, or the complaint that the operands are no numbers. -/
def numericBinary (op : BinaryOp) (left right : Value) : Except OperationError Value :=
  match left.number?, right.number? with
  | some a, some b => a.binary op b
  | _, _ => .error (.operands op left.type right.type)

def BinaryOp.apply (op : BinaryOp) (left right : Value) : Except OperationError Value :=
  match op with
  | .add =>
    match left, right with
    | .str a, .str b => .ok (.str (a ++ b))
    | .list as, .list bs => .ok (.list (as ++ bs))
    | .tuple as, .tuple bs => .ok (.tuple (as ++ bs))
    | _, _ => numericBinary .add left right
  | .mul => (repetition? left right).getD (numericBinary .mul left right)
  | op => numericBinary op left right

def UnaryOp.apply (op : UnaryOp) (v : Value) : Except OperationError Value :=
  match op, v.number? with
  | .not, _ => .ok (.bool (!v.truthy))
  | .neg, some (.int i) => checkedInt (-i.toInt)
  | .neg, some (.float x) => .ok (.float (-x))
  | .pos, some (.int i) => .ok (.int i)
  | .pos, some (.float x) => .ok (.float x)
  | op, none => .error (.operand op v.type)

end ComponentMarkup
