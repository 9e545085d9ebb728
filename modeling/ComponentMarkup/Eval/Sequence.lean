import ComponentMarkup.Eval.Error

/-!
# Items, indices and slices

Lists, tuples, strings and dictionaries can be gone through item by item. Sequences are indexed from
the front with numbers from zero and from the back with negative ones. A slice picks the members of
an arithmetic progression of positions.
-/

namespace ComponentMarkup

/-! ## Keys and items -/

mutual

/-- The key that a value makes. A whole float counts as the integer. -/
def Value.toKey : Value → Except OperationError Key
  | .none => .ok .none
  | .bool b => .ok (.bool b)
  | .int i => .ok (.int i)
  | .float x =>
    if x.floor == x && x.abs < 9.0e15 then .ok (.int x.toInt64) else .error (.unhashable .float)
  | .str s => .ok (.str s)
  | .tuple items => (Value.toKeys items).map .tuple
  | .list _ => .error (.unhashable .list)
  | .dict _ => .error (.unhashable .dict)
  | .builtin _ => .error (.unhashable .function)
  | .constructor .. => .error (.unhashable .function)
  | .method .. => .error (.unhashable .function)
  | .native .. => .error (.unhashable .function)
  | .module .. => .error (.unhashable .module)
  | .component .. => .error (.unhashable .component)

def Value.toKeys : List Value → Except OperationError (List Key)
  | [] => .ok []
  | v :: rest => do
    let k ← v.toKey
    return k :: (← Value.toKeys rest)

end

/-- The items of a value: those of a sequence, the characters of a string, the keys of a
dictionary. -/
def Value.iterate : Value → Except OperationError (List Value)
  | .list items => .ok items
  | .tuple items => .ok items
  | .str s => .ok (s.toList.map fun c => .str c.toString)
  | .dict entries => .ok (entries.map fun (k, _) => k.toValue)
  | v => .error (.notIterable v.type)

/-- The integer that a value must be; `what` tells what it is for. -/
def Value.expectInt (v : Value) (what : String) : Except OperationError Int64 :=
  match v.toInt? with
  | some i => .ok i
  | Option.none => .error (.notInteger what v.type)

/-! ## Progressions -/

/-- How many terms of `start, start + step, …` come before `stop` in the direction of the step. -/
def progressionLength (start stop step : Int) : Nat :=
  let distance := if 0 < step then stop - start else start - stop
  if distance ≤ 0 then 0 else ((distance - 1) / step.natAbs + 1).toNat

/-- The terms of `start, start + step, …` that come before `stop` in the direction of the step. -/
def progression (start stop step : Int) : List Int :=
  (List.range (progressionLength start stop step)).map fun (i : Nat) => start + i * step

/-! ## Subscripts -/

/-- The position that an index means in a sequence of a given length. -/
def position (index : Value) (length : Nat) (what : String) : Except OperationError Nat := do
  let i := (← index.expectInt (what ++ " indices")).toInt
  let adjusted := if i < 0 then i + length else i
  if adjusted < 0 ∨ length ≤ adjusted then .error (.indexOutOfRange what)
  else return adjusted.toNat

def itemAt (items : List Value) (index : Value) (what : String) : Except OperationError Value := do
  match items[← position index items.length what]? with
  | some item => return item
  | none => .error (.indexOutOfRange what)

def Value.subscript (v index : Value) : Except OperationError Value :=
  match v with
  | .list items => itemAt items index "list"
  | .tuple items => itemAt items index "tuple"
  | .str s => itemAt (s.toList.map fun c => .str c.toString) index "string"
  | .dict entries => do
    let key ← index.toKey
    match entries.lookup key with
    | some item => return item
    | Option.none => .error (.missingKey key)
  | v => .error (.notSubscriptable v.type)

/-! ## Slices -/

/-- A bound of a slice: a negative one counts from the end, and none leaves the given limits. -/
def sliceBound (length : Nat) (low high bound : Int) : Int :=
  let i := if bound < 0 then bound + length else bound
  max low (min high i)

/-- The numbers from `i` on, one step apart, up to the first that does not come before `stop` in the
direction of the step. -/
def stepUntil (stop step i : Int) : List Int :=
  if 0 < step ∧ i < stop ∨ step < 0 ∧ stop < i then i :: stepUntil stop step (i + step) else []
termination_by (if 0 < step then stop - i else i - stop).toNat
decreasing_by split <;> omega

/-- The positions that a slice picks from a sequence of a given length. -/
def slicePositions (length : Nat) (lower upper step : Option Int64) :
    Except OperationError (List Nat) :=
  let step := (step.map Int64.toInt).getD 1
  let bound := fun (b : Option Int64) (default low high : Int) =>
    match b with
    | some b => sliceBound length low high b.toInt
    | none => default
  if step = 0 then .error .zeroSliceStep
  else if 0 < step then
    .ok ((stepUntil (bound upper length 0 length) step (bound lower 0 0 length)).map Int.toNat)
  else
    .ok ((stepUntil (bound upper (-1) (-1) (length - 1)) step
      (bound lower (length - 1) (-1) (length - 1))).map Int.toNat)

def pick {α : Type} (items : List α) (positions : List Nat) : List α :=
  let array := items.toArray
  positions.filterMap (array[·]?)

def Value.slice (v : Value) (lower upper step : Option Int64) : Except OperationError Value :=
  match v with
  | .list items => do return .list (pick items (← slicePositions items.length lower upper step))
  | .tuple items => do return .tuple (pick items (← slicePositions items.length lower upper step))
  | .str s => do
    let text := s.toList
    return .ofText (pick text (← slicePositions text.length lower upper step))
  | v => .error (.notSubscriptable v.type)

end ComponentMarkup
