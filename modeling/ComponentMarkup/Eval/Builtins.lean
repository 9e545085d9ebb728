import ComponentMarkup.Decimal.Reading
import ComponentMarkup.Eval.Arguments
import ComponentMarkup.Eval.Arithmetic
import ComponentMarkup.Eval.Sequence
import ComponentMarkup.Eval.Sorting
import ComponentMarkup.Text.Search

/-!
# Builtin functions

What the functions do that every expression can use. Each one first checks its keywords, then the
number of its arguments, then the arguments themselves.
-/

namespace ComponentMarkup

namespace Builtin

/-! ## Ranges -/

/-- The longest list that `range` makes. -/
def maxRange : Nat :=
  16777216

/-- The integers from `start` up or down to `stop`. -/
def integersBetween (start stop step : Int64) : Except OperationError Value :=
  if step = 0 then .error .zeroRangeStep
  else if maxRange < progressionLength start.toInt stop.toInt step.toInt then .error .rangeTooLarge
  else
    let members := progression start.toInt stop.toInt step.toInt
    .ok (.list (members.map fun i => .int (Int64.ofInt i)))

def callRange (args : Arguments) : Except OperationError Value := do
  match ← (← args.positionalOnly "range" 1 3).mapM (·.expectInt "range() argument") with
  | [stop] => integersBetween 0 stop 1
  | [start, stop] => integersBetween start stop 1
  | start :: stop :: step :: _ => integersBetween start stop step
  | [] => .error (.argumentCount "range" 1 3 0)

/-! ## Conversions -/

/-- An integer from its digits, with a sign or without. Underscores are passed over. -/
def readInteger? (text : List Char) : Option Int64 :=
  let (negative, digits) := Decimal.readSign ((Text.trim text).filter (· != '_'))
  if digits.isEmpty || !digits.all Char.isDigit then none
  else
    let magnitude : Int := Decimal.digitsValue digits
    integer? (if negative then -magnitude else magnitude)

/-- A value as an integer. Floats are cut off towards zero. -/
def toInteger (v : Value) : Except OperationError Value :=
  match v with
  | .int i => .ok (.int i)
  | .bool b => .ok (.int (if b then 1 else 0))
  | .float x =>
    if x.isNaN then .error .nanToInteger
    else if x.abs ≥ 9.2e18 then .error .floatTooLarge
    else .ok (.int x.toInt64)
  | .str s =>
    match readInteger? s.toList with
    | some i => .ok (.int i)
    | none => .error (.badInteger v.repr)
  | v => .error (.notNumeric "int" v.type)

def toFloating (v : Value) : Except OperationError Value :=
  match v.toFloat? with
  | some x => .ok (.float x)
  | none =>
    match v with
    | .str s =>
      match Decimal.read? (Text.trim s.toList) with
      | some x => .ok (.float x)
      | none => .error (.badFloat v.repr)
    | v => .error (.notNumeric "float" v.type)

/-- The entry of a dictionary that a pair stands for. -/
def entryOf (pair : Value) : Except OperationError (Key × Value) := do
  match ← pair.iterate with
  | [key, value] => return (← key.toKey, value)
  | items => .error (.pairLength items.length)

/-- The entries that a dictionary has or that pairs stand for. -/
def entriesOf : Value → Except OperationError (List (Key × Value))
  | .dict entries => .ok entries
  | v => do (← v.iterate).mapM entryOf

def callDict (args : Arguments) : Except OperationError Value := do
  args.checkCount "dict" 0 1
  let given ← match args.positional with
    | [] => pure []
    | v :: _ => entriesOf v
  return .dict (Entries.ofPairs (given ++ args.keywords.map fun (name, v) => (.str name, v)))

/-! ## Numbers -/

/-- The number of items of a collection, or of characters of a string. -/
def lengthOf : Value → Except OperationError Value
  | .str s => .ok (.int (Int64.ofNat s.length))
  | .list items => .ok (.int (Int64.ofNat items.length))
  | .tuple items => .ok (.int (Int64.ofNat items.length))
  | .dict entries => .ok (.int (Int64.ofNat entries.length))
  | v => .error (.noLength v.type)

/-- A number without its sign. -/
def magnitude : Value → Except OperationError Value
  | .int i => checkedInt i.toInt.natAbs
  | .bool b => .ok (.int (if b then 1 else 0))
  | .float x => .ok (.float x.abs)
  | v => .error (.noMagnitude v.type)

/-- `min` and `max`: of one collection, or of all arguments. -/
def callExtreme (wanted : Ordering) (function : String) (args : Arguments) :
    Except OperationError Value := do
  args.noKeywords function
  let items ← match args.positional with
    | [] => .error (.noArguments function)
    | [v] => v.iterate
    | items => pure items
  match items with
  | [] => .error (.emptySequence function)
  | first :: more => extreme wanted first more

/-- What a sum starts from. -/
def sumStart : Option Value → Option Value → Except OperationError Value
  | some _, some _ => .error (.argumentTwice "sum" "start")
  | some v, none => .ok v
  | none, some v => .ok v
  | none, none => .ok (.int 0)

def callSum (args : Arguments) : Except OperationError Value := do
  let (start, args) := args.takeKeyword "start"
  match ← args.positionalOnly "sum" 1 2 with
  | [] => .error (.argumentCount "sum" 1 2 0)
  | v :: more =>
    let start ← sumStart more.head? start
    if start.type = .str then .error .sumOfStrings
    (← v.iterate).foldlM BinaryOp.add.apply start

/-! ## Collections -/

def callSorted (args : Arguments) : Except OperationError Value := do
  let (reverse, args) := args.takeKeyword "reverse"
  let items ← (← args.single "sorted").iterate
  return .list (← sortValues (reverse.any Value.truthy) items)

/-- Give an item the next number. The number after it must be an integer, too. -/
def numberItem (numbered : Int64 × Array Value) (item : Value) :
    Except OperationError (Int64 × Array Value) :=
  match integer? (numbered.1.toInt + 1) with
  | some next => .ok (next, numbered.2.push (.tuple [.int numbered.1, item]))
  | none => .error .integerOverflow

/-- Items with their numbers, counted from `start`. -/
def numbered (start : Int64) (items : List Value) : Except OperationError (List Value) := do
  return (← items.foldlM numberItem (start, #[])).2.toList

def callEnumerate (args : Arguments) : Except OperationError Value := do
  let (start, args) := args.takeKeyword "start"
  let start ← match start with
    | some v => v.expectInt "enumerate() start"
    | none => pure 0
  return .list (← numbered start (← (← args.single "enumerate").iterate))

/-- Rows of the items that stand at the same place, as many as the shortest column has. -/
def rows (columns : List (List Value)) : List Value :=
  let arrays := columns.map List.toArray
  match (arrays.map Array.size).min? with
  | none => []
  | some size => (List.range size).map fun i => .tuple (arrays.filterMap (·[i]?))

def callZip (args : Arguments) : Except OperationError Value := do
  args.noKeywords "zip"
  return .list (rows (← args.positional.mapM Value.iterate))

/-! ## Characters -/

def characterOf (code : Int64) : Except OperationError Value :=
  if 0 ≤ code.toInt ∧ code.toInt.toNat.isValidChar then
    .ok (.str (Char.ofNat code.toInt.toNat).toString)
  else .error .noCharacter

def codeOf : Value → Except OperationError Value
  | .str s =>
    match s.toList with
    | [c] => .ok (.int (Int64.ofNat c.toNat))
    | text => .error (.characterCount text.length)
  | v => .error (.notCharacter v.type)

/-! ## Calls -/

def call (function : Builtin) (args : Arguments) : Except OperationError Value :=
  match function with
  | .range => callRange args
  | .len => do lengthOf (← args.single "len")
  | .str => do return .ofText ((← args.optional "str").elim [] Value.display)
  | .repr => do return .ofText (← args.single "repr").repr
  | .int => do (← args.optional "int").elim (.ok (.int 0)) toInteger
  | .float => do (← args.optional "float").elim (.ok (.float 0.0)) toFloating
  | .bool => do return .bool ((← args.optional "bool").any Value.truthy)
  | .list => do return .list (← (← args.optional "list").elim (.ok []) Value.iterate)
  | .tuple => do return .tuple (← (← args.optional "tuple").elim (.ok []) Value.iterate)
  | .dict => callDict args
  | .abs => do magnitude (← args.single "abs")
  | .min => callExtreme .lt "min" args
  | .max => callExtreme .gt "max" args
  | .sum => callSum args
  | .sorted => callSorted args
  | .reversed => do return .list (← (← args.single "reversed").iterate).reverse
  | .enumerate => callEnumerate args
  | .zip => callZip args
  | .chr => do characterOf (← (← args.single "chr").expectInt "chr() argument")
  | .ord => do codeOf (← args.single "ord")
  | .any => do return .bool ((← (← args.single "any").iterate).any Value.truthy)
  | .all => do return .bool ((← (← args.single "all").iterate).all Value.truthy)

end Builtin

end ComponentMarkup
