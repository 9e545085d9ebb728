import ComponentMarkup.Expr.Basic

/-!
# Names in expressions

The names an expression mentions, in the order in which its parts are visited, and the replacement
of name leaves by expressions. The targets of comprehensions are no leaves: they are neither listed
nor replaced. What is put in place of a name is not looked at again.
-/

namespace ComponentMarkup

mutual

/-- The name leaves of an expression. -/
def Expr.names : Expr → List String
  | .constant _ => []
  | .name n => [n]
  | .list items => Expr.namesOfItems items
  | .tuple items => Expr.namesOfItems items
  | .dict entries => Expr.namesOfEntries entries
  | .attribute value _ => value.names
  | .subscript value index => value.names ++ index.names
  | .slice lower upper step =>
    Expr.namesOfOptional lower ++ Expr.namesOfOptional upper ++ Expr.namesOfOptional step
  | .call func args => func.names ++ Expr.namesOfArguments args
  | .binary _ left right => left.names ++ right.names
  | .unary _ operand => operand.names
  | .logic _ left right => left.names ++ right.names
  | .compare left comparisons => left.names ++ Expr.namesOfComparisons comparisons
  | .conditional test body orelse => test.names ++ body.names ++ orelse.names
  | .listComp element clauses => element.names ++ Expr.namesOfClauses clauses
  | .generator element clauses => element.names ++ Expr.namesOfClauses clauses
  | .dictComp key value clauses => key.names ++ value.names ++ Expr.namesOfClauses clauses

def Expr.namesOfOptional : Option Expr → List String
  | none => []
  | some e => e.names

def Expr.namesOfItems : List Expr → List String
  | [] => []
  | item :: rest => item.names ++ Expr.namesOfItems rest

def Expr.namesOfEntries : List (Expr × Expr) → List String
  | [] => []
  | (key, value) :: rest => key.names ++ value.names ++ Expr.namesOfEntries rest

/-- The name leaves of an argument; its keyword is none. -/
def Argument.names : Argument → List String
  | .positional value => value.names
  | .keyword _ value => value.names
  | .unpack items => items.names
  | .unpackKeywords entries => entries.names

def Expr.namesOfArguments : List Argument → List String
  | [] => []
  | arg :: rest => arg.names ++ Expr.namesOfArguments rest

def Expr.namesOfComparisons : List (CompareOp × Expr) → List String
  | [] => []
  | (_, right) :: rest => right.names ++ Expr.namesOfComparisons rest

def Expr.namesOfClauses : List Clause → List String
  | [] => []
  | ⟨_, iter, conditions⟩ :: rest =>
    iter.names ++ Expr.namesOfItems conditions ++ Expr.namesOfClauses rest

end

mutual

/-- The expression with every name leaf replaced for which `f` gives an expression. -/
def Expr.substitute (f : String → Option Expr) : Expr → Expr
  | .constant value => .constant value
  | .name n => (f n).getD (.name n)
  | .list items => .list (Expr.substituteItems f items)
  | .tuple items => .tuple (Expr.substituteItems f items)
  | .dict entries => .dict (Expr.substituteEntries f entries)
  | .attribute value attr => .attribute (value.substitute f) attr
  | .subscript value index => .subscript (value.substitute f) (index.substitute f)
  | .slice lower upper step =>
    .slice (Expr.substituteOptional f lower) (Expr.substituteOptional f upper)
      (Expr.substituteOptional f step)
  | .call func args => .call (func.substitute f) (Expr.substituteArguments f args)
  | .binary op left right => .binary op (left.substitute f) (right.substitute f)
  | .unary op operand => .unary op (operand.substitute f)
  | .logic op left right => .logic op (left.substitute f) (right.substitute f)
  | .compare left comparisons =>
    .compare (left.substitute f) (Expr.substituteComparisons f comparisons)
  | .conditional test body orelse =>
    .conditional (test.substitute f) (body.substitute f) (orelse.substitute f)
  | .listComp element clauses =>
    .listComp (element.substitute f) (Expr.substituteClauses f clauses)
  | .generator element clauses =>
    .generator (element.substitute f) (Expr.substituteClauses f clauses)
  | .dictComp key value clauses =>
    .dictComp (key.substitute f) (value.substitute f) (Expr.substituteClauses f clauses)

def Expr.substituteOptional (f : String → Option Expr) : Option Expr → Option Expr
  | none => none
  | some e => some (e.substitute f)

def Expr.substituteItems (f : String → Option Expr) : List Expr → List Expr
  | [] => []
  | item :: rest => item.substitute f :: Expr.substituteItems f rest

def Expr.substituteEntries (f : String → Option Expr) : List (Expr × Expr) → List (Expr × Expr)
  | [] => []
  | (key, value) :: rest =>
    (key.substitute f, value.substitute f) :: Expr.substituteEntries f rest

def Argument.substitute (f : String → Option Expr) : Argument → Argument
  | .positional value => .positional (value.substitute f)
  | .keyword n value => .keyword n (value.substitute f)
  | .unpack items => .unpack (items.substitute f)
  | .unpackKeywords entries => .unpackKeywords (entries.substitute f)

def Expr.substituteArguments (f : String → Option Expr) : List Argument → List Argument
  | [] => []
  | arg :: rest => arg.substitute f :: Expr.substituteArguments f rest

def Expr.substituteComparisons (f : String → Option Expr) :
    List (CompareOp × Expr) → List (CompareOp × Expr)
  | [] => []
  | (op, right) :: rest => (op, right.substitute f) :: Expr.substituteComparisons f rest

def Expr.substituteClauses (f : String → Option Expr) : List Clause → List Clause
  | [] => []
  | ⟨target, iter, conditions⟩ :: rest =>
    ⟨target, iter.substitute f, Expr.substituteItems f conditions⟩ :: Expr.substituteClauses f rest

end

end ComponentMarkup
