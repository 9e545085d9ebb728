import ComponentMarkup.Expr.Basic
import ComponentMarkup.Decimal.Layout
import ComponentMarkup.Text.Quoted

/-!
# Writing expressions

Expressions are written with a pair of parentheses around every operation, so that no rule of
precedence is needed to read them again. Items are separated by a comma and a space, and a tuple of
one item keeps its comma.
-/

namespace ComponentMarkup

def Constant.print : Constant → List Char
  | .none => "None".toList
  | .bool value => (if value then "True" else "False").toList
  | .int value => (toString value.toInt).toList
  | .float value => (Decimal.marked value).toList
  | .str value => Text.quoted value.toList

mutual

def Target.print : Target → List Char
  | .name n => n.toList
  | .tuple items =>
    ['('] ++ Target.printItems items ++ (if items.length = 1 then [','] else []) ++ [')']

def Target.printItems : List Target → List Char
  | [] => []
  | [item] => item.print
  | item :: rest => item.print ++ [',', ' '] ++ Target.printItems rest

end

mutual

/-- The text of an expression. -/
def Expr.print : Expr → List Char
  | .constant value => value.print
  | .name n => n.toList
  | .list items => ['['] ++ Expr.printItems items ++ [']']
  | .tuple items =>
    ['('] ++ Expr.printItems items ++ (if items.length = 1 then [','] else []) ++ [')']
  | .dict entries => ['\x7b'] ++ Expr.printEntries entries ++ ['\x7d']
  | .attribute value attr => value.print ++ ['.'] ++ attr.toList
  | .subscript value (.tuple (item :: rest)) =>
    value.print ++ ['['] ++ Expr.printItems (item :: rest) ++
      (if rest.isEmpty then [','] else []) ++ [']']
  | .subscript value index => value.print ++ ['['] ++ index.print ++ [']']
  | .slice lower upper step =>
    Expr.printOptional lower ++ [':'] ++ Expr.printOptional upper ++
      match step with
      | some step => [':'] ++ step.print
      | none => []
  | .call func args => func.print ++ ['('] ++ Expr.printArguments args ++ [')']
  | .binary op left right =>
    ['('] ++ left.print ++ [' '] ++ op.text.toList ++ [' '] ++ right.print ++ [')']
  | .unary .neg operand => ['(', '-'] ++ operand.print ++ [')']
  | .unary .pos operand => ['(', '+'] ++ operand.print ++ [')']
  | .unary .not operand => "(not ".toList ++ operand.print ++ [')']
  | .logic op left right =>
    ['('] ++ left.print ++ [' '] ++ op.text.toList ++ [' '] ++ right.print ++ [')']
  | .compare left comparisons => ['('] ++ left.print ++ Expr.printComparisons comparisons ++ [')']
  | .conditional test body orelse =>
    ['('] ++ body.print ++ " if ".toList ++ test.print ++ " else ".toList ++ orelse.print ++ [')']
  | .listComp element clauses => ['['] ++ element.print ++ Expr.printClauses clauses ++ [']']
  | .generator element clauses => ['('] ++ element.print ++ Expr.printClauses clauses ++ [')']
  | .dictComp key value clauses =>
    ['\x7b'] ++ key.print ++ [':', ' '] ++ value.print ++ Expr.printClauses clauses ++ ['\x7d']

def Expr.printOptional : Option Expr → List Char
  | none => []
  | some e => e.print

def Expr.printItems : List Expr → List Char
  | [] => []
  | [item] => item.print
  | item :: rest => item.print ++ [',', ' '] ++ Expr.printItems rest

def Expr.printEntries : List (Expr × Expr) → List Char
  | [] => []
  | [(key, value)] => key.print ++ [':', ' '] ++ value.print
  | (key, value) :: rest =>
    key.print ++ [':', ' '] ++ value.print ++ [',', ' '] ++ Expr.printEntries rest

def Argument.print : Argument → List Char
  | .positional value => value.print
  | .keyword n value => n.toList ++ ['='] ++ value.print
  | .unpack items => ['*'] ++ items.print
  | .unpackKeywords entries => ['*', '*'] ++ entries.print

def Expr.printArguments : List Argument → List Char
  | [] => []
  | [arg] => arg.print
  | arg :: rest => arg.print ++ [',', ' '] ++ Expr.printArguments rest

def Expr.printComparisons : List (CompareOp × Expr) → List Char
  | [] => []
  | (op, right) :: rest =>
    [' '] ++ op.text.toList ++ [' '] ++ right.print ++ Expr.printComparisons rest

def Expr.printClauses : List Clause → List Char
  | [] => []
  | ⟨target, iter, conditions⟩ :: rest =>
    " for ".toList ++ target.print ++ " in ".toList ++ iter.print ++
      Expr.printConditions conditions ++ Expr.printClauses rest

def Expr.printConditions : List Expr → List Char
  | [] => []
  | condition :: rest => " if ".toList ++ condition.print ++ Expr.printConditions rest

end

def Expr.source (e : Expr) : String :=
  String.ofList e.print

end ComponentMarkup
