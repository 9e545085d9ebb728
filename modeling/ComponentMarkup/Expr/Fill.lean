import ComponentMarkup.Entries
import ComponentMarkup.Expr.Basic

/-!
# Filling in expressions

An expression may stand for a larger one in which some of its name leaves are gaps. Each gap is
filled once: the first leaf with its name, in the order in which the parts are visited, is replaced.
What is put in place of a name is not looked at again.
-/

namespace ComponentMarkup

/-- A computation with the fillings that are not used yet. -/
abbrev Filling := StateM (Entries String Expr)

/-- What to put in place of a name leaf. -/
def Filling.leaf (n : String) : Filling Expr := do
  let parts ← get
  match parts.lookup n with
  | some e =>
    set (Entries.erase parts n)
    return e
  | none => return .name n

mutual

/-- Fill the gaps of an expression. -/
def Expr.fill : Expr → Filling Expr
  | .constant value => return .constant value
  | .name n => Filling.leaf n
  | .list items => do return .list (← Expr.fillItems items)
  | .tuple items => do return .tuple (← Expr.fillItems items)
  | .dict entries => do return .dict (← Expr.fillEntries entries)
  | .attribute value attr => do return .attribute (← value.fill) attr
  | .subscript value index => do
    let value ← value.fill
    return .subscript value (← index.fill)
  | .slice lower upper step => do
    let lower ← Expr.fillOptional lower
    let upper ← Expr.fillOptional upper
    return .slice lower upper (← Expr.fillOptional step)
  | .call func args => do
    let func ← func.fill
    return .call func (← Expr.fillArguments args)
  | .binary op left right => do
    let left ← left.fill
    return .binary op left (← right.fill)
  | .unary op operand => do return .unary op (← operand.fill)
  | .logic op left right => do
    let left ← left.fill
    return .logic op left (← right.fill)
  | .compare left comparisons => do
    let left ← left.fill
    return .compare left (← Expr.fillComparisons comparisons)
  | .conditional test body orelse => do
    let test ← test.fill
    let body ← body.fill
    return .conditional test body (← orelse.fill)
  | .listComp element clauses => do
    let element ← element.fill
    return .listComp element (← Expr.fillClauses clauses)
  | .generator element clauses => do
    let element ← element.fill
    return .generator element (← Expr.fillClauses clauses)
  | .dictComp key value clauses => do
    let key ← key.fill
    let value ← value.fill
    return .dictComp key value (← Expr.fillClauses clauses)

def Expr.fillOptional : Option Expr → Filling (Option Expr)
  | none => return none
  | some e => do return some (← e.fill)

def Expr.fillItems : List Expr → Filling (List Expr)
  | [] => return []
  | item :: rest => do
    let item ← item.fill
    return item :: (← Expr.fillItems rest)

def Expr.fillEntries : List (Expr × Expr) → Filling (List (Expr × Expr))
  | [] => return []
  | (key, value) :: rest => do
    let key ← key.fill
    let value ← value.fill
    return (key, value) :: (← Expr.fillEntries rest)

def Argument.fill : Argument → Filling Argument
  | .positional value => do return .positional (← value.fill)
  | .keyword n value => do return .keyword n (← value.fill)
  | .unpack items => do return .unpack (← items.fill)
  | .unpackKeywords entries => do return .unpackKeywords (← entries.fill)

def Expr.fillArguments : List Argument → Filling (List Argument)
  | [] => return []
  | arg :: rest => do
    let arg ← arg.fill
    return arg :: (← Expr.fillArguments rest)

def Expr.fillComparisons : List (CompareOp × Expr) → Filling (List (CompareOp × Expr))
  | [] => return []
  | (op, right) :: rest => do
    let right ← right.fill
    return (op, right) :: (← Expr.fillComparisons rest)

def Expr.fillClauses : List Clause → Filling (List Clause)
  | [] => return []
  | ⟨target, iter, conditions⟩ :: rest => do
    let iter ← iter.fill
    let conditions ← Expr.fillItems conditions
    return ⟨target, iter, conditions⟩ :: (← Expr.fillClauses rest)

end

end ComponentMarkup
