import ComponentMarkup.Eval.Sequence
import ComponentMarkup.Text.Search
import ComponentMarkup.Value.Compare

/-!
# Comparisons

The operators that give true or false. Numbers can always be compared, though no order holds with
what is no number; other values without an order between them are an error.
-/

namespace ComponentMarkup

/-- The order of two values under an operator. No order holds with a float that is no number. -/
def orderUnder (op : CompareOp) (left right : Value) : Except OperationError (Option Ordering) :=
  match left.number?, right.number? with
  | some a, some b => .ok (a.compare? b)
  | _, _ =>
    match left.compare? right with
    | some order => .ok (some order)
    | none => .error (.unordered op left.type right.type)

/-- A container holds an item: a sequence by equality, a dictionary by key, a string by
substring. -/
def Value.contains (container item : Value) : Except OperationError Bool :=
  match container with
  | .str text =>
    match item with
    | .str needle => .ok (Text.occursIn needle.toList text.toList)
    | _ => .error (.notSubstring item.type)
  | .list items => .ok (items.any (·.equal item))
  | .tuple items => .ok (items.any (·.equal item))
  | .dict entries => do
    let key ← item.toKey
    return (entries.lookup key).isSome
  | v => .error (.notContainer v.type)

def CompareOp.apply (op : CompareOp) (left right : Value) : Except OperationError Bool :=
  match op with
  | .eq => .ok (left.equal right)
  | .ne => .ok (!left.equal right)
  | .lt => do return (← orderUnder .lt left right) == some .lt
  | .le => do
    let order ← orderUnder .le left right
    return order == some .lt || order == some .eq
  | .gt => do return (← orderUnder .gt left right) == some .gt
  | .ge => do
    let order ← orderUnder .ge left right
    return order == some .gt || order == some .eq
  | .mem => right.contains left
  | .notMem => do return !(← right.contains left)
  | .is => .ok (left.identical right)
  | .isNot => .ok (!left.identical right)

end ComponentMarkup
