import ComponentMarkup.Expr.Basic

/-!
# Fragments

What an item of content compiles to: an expression for one child, or an expression for a list of
children. The fragments of an element are merged into one list of children.
-/

namespace ComponentMarkup

/-- How many children a fragment stands for. -/
inductive FragmentKind where
  /-- Exactly one. -/
  | scalar
  /-- Any number. -/
  | list
deriving DecidableEq, Repr

def FragmentKind.name : FragmentKind → String
  | .scalar => "scalar"
  | .list => "list"

/-- An expression for children. -/
structure Fragment where
  kind : FragmentKind
  node : Expr

namespace Fragment

/-- Fragments of one kind that follow each other. -/
abbrev Run := FragmentKind × List Expr

/-- Put a fragment in front of runs. -/
def addToRuns (f : Fragment) : List Run → List Run
  | [] => [(f.kind, [f.node])]
  | (kind, nodes) :: rest =>
    if f.kind = kind then (kind, f.node :: nodes) :: rest
    else (f.kind, [f.node]) :: (kind, nodes) :: rest

/-- The longest runs of fragments of one kind. -/
def runs (fragments : List Fragment) : List Run :=
  fragments.foldr addToRuns []

/-- The sum of expressions, grouped to the left. No expressions make an empty list. -/
def concat : List Expr → Expr
  | [] => .list []
  | first :: rest => rest.foldl (.binary .add) first

/-- The expression for the children of a run. -/
def Run.node : Run → Expr
  | (.scalar, nodes) => .list nodes
  | (.list, nodes) => concat nodes

/-- One fragment for all children, in order. -/
def merge (fragments : List Fragment) : Fragment :=
  ⟨.list, concat ((runs fragments).map Run.node)⟩

end Fragment

end ComponentMarkup
