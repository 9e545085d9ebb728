import ComponentMarkup.Eval.Error
import ComponentMarkup.Sorting.Stable
import ComponentMarkup.Value.Compare

/-!
# Sorting and extremes

Values are sorted so that equal items keep their order. The first two items found to have no order
between them are the error of the whole sort. Where the order contradicts itself, as between numbers
that are equal as doubles but not as integers, the sort may return any order or give up.
-/

namespace ComponentMarkup

/-- The order of two values, which must have one. -/
def orderOf (a b : Value) : Except OperationError Ordering :=
  match a.compare? b with
  | some order => .ok order
  | none => .error (.unordered .lt a.type b.type)

/-- One value comes before another, in ascending or in descending order. -/
def precedes (reverse : Bool) (a b : Value) : Except OperationError Bool := do
  return (← if reverse then orderOf b a else orderOf a b) == .lt

/-- Items in ascending order, or in descending order if `reverse` holds. -/
def sortValues (reverse : Bool) (items : List Value) : Except OperationError (List Value) :=
  (Sorting.stableSort (fun a b => .ask (precedes reverse a b)) items).outcome.getD
    (.error .contradictoryOrder)

/-- The first of the items that none after it surpasses, where an item surpasses another if its
order towards it is `wanted`. -/
def extreme (wanted : Ordering) (first : Value) (more : List Value) : Except OperationError Value :=
  more.foldlM (fun best item => do return if (← orderOf item best) == wanted then item else best)
    first

end ComponentMarkup
