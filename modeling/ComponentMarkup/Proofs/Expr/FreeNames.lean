import ComponentMarkup.Proofs.Expr.Occurrences

/-!
# Free names

A name leaf is free unless a comprehension around it binds its name. Each `for` clause of a
comprehension binds names for what comes after its iterable: its own conditions, the later clauses and
the element. The iterable itself sees the targets of earlier clauses only.
-/

namespace ComponentMarkup

mutual

/-- The free names of an expression. -/
def Expr.freeNames : Expr → List String
  | .constant _ => []
  | .name n => [n]
  | .list items => Expr.freeNamesOfItems items
  | .tuple items => Expr.freeNamesOfItems items
  | .dict entries => Expr.freeNamesOfEntries entries
  | .attribute value _ => value.freeNames
  | .subscript value index => value.freeNames ++ index.freeNames
  | .slice lower upper step =>
    Expr.freeNamesOfOptional lower ++ Expr.freeNamesOfOptional upper ++
      Expr.freeNamesOfOptional step
  | .call func args => func.freeNames ++ Expr.freeNamesOfArguments args
  | .binary _ left right => left.freeNames ++ right.freeNames
  | .unary _ operand => operand.freeNames
  | .logic _ left right => left.freeNames ++ right.freeNames
  | .compare left comparisons => left.freeNames ++ Expr.freeNamesOfComparisons comparisons
  | .conditional test body orelse => test.freeNames ++ body.freeNames ++ orelse.freeNames
  | .listComp element clauses => Expr.freeNamesOfClauses clauses element.freeNames
  | .generator element clauses => Expr.freeNamesOfClauses clauses element.freeNames
  | .dictComp key value clauses =>
    Expr.freeNamesOfClauses clauses (key.freeNames ++ value.freeNames)

def Expr.freeNamesOfOptional : Option Expr → List String
  | none => []
  | some e => e.freeNames

def Expr.freeNamesOfItems : List Expr → List String
  | [] => []
  | item :: rest => item.freeNames ++ Expr.freeNamesOfItems rest

def Expr.freeNamesOfEntries : List (Expr × Expr) → List String
  | [] => []
  | (key, value) :: rest => key.freeNames ++ value.freeNames ++ Expr.freeNamesOfEntries rest

def Argument.freeNames : Argument → List String
  | .positional value => value.freeNames
  | .keyword _ value => value.freeNames
  | .unpack items => items.freeNames
  | .unpackKeywords entries => entries.freeNames

def Expr.freeNamesOfArguments : List Argument → List String
  | [] => []
  | arg :: rest => arg.freeNames ++ Expr.freeNamesOfArguments rest

def Expr.freeNamesOfComparisons : List (CompareOp × Expr) → List String
  | [] => []
  | (_, right) :: rest => right.freeNames ++ Expr.freeNamesOfComparisons rest

/-- The free names of a comprehension with some clauses around an element with free names `inner`. -/
def Expr.freeNamesOfClauses : List Clause → List String → List String
  | [], inner => inner
  | ⟨target, iter, conditions⟩ :: rest, inner =>
    iter.freeNames ++ (Expr.freeNamesOfItems conditions ++
      Expr.freeNamesOfClauses rest inner).filter (· ∉ target.names)

end

end ComponentMarkup
