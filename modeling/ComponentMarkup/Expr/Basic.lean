/-!
# Expressions

Templates embed expressions of a small dynamic language: constants, names, displays, calls with
keyword arguments, subscripts with slices, operators and comprehensions. This module holds their
trees. A slice is an expression here, but has a value only as the index of a subscript.
-/

namespace ComponentMarkup

inductive Constant where
  | none
  | bool (value : Bool)
  | int (value : Int64)
  | float (value : Float)
  | str (value : String)
deriving Repr

inductive BinaryOp where
  | add | sub | mul | div | floorDiv | mod | pow
deriving DecidableEq, Repr

def BinaryOp.text : BinaryOp → String
  | .add => "+"
  | .sub => "-"
  | .mul => "*"
  | .div => "/"
  | .floorDiv => "//"
  | .mod => "%"
  | .pow => "**"

inductive UnaryOp where
  | neg | pos | not
deriving DecidableEq, Repr

/-- Operators that evaluate their right operand only if needed. -/
inductive BoolOp where
  | and | or
deriving DecidableEq, Repr

def BoolOp.text : BoolOp → String
  | .and => "and"
  | .or => "or"

inductive CompareOp where
  | eq | ne | lt | le | gt | ge | mem | notMem | is | isNot
deriving DecidableEq, Repr

def CompareOp.text : CompareOp → String
  | .eq => "=="
  | .ne => "!="
  | .lt => "<"
  | .le => "<="
  | .gt => ">"
  | .ge => ">="
  | .mem => "in"
  | .notMem => "not in"
  | .is => "is"
  | .isNot => "is not"

/-- What a `for` clause binds: a name, or a tuple of targets to unpack into. -/
inductive Target where
  | name (name : String)
  | tuple (items : List Target)
deriving Repr

mutual

inductive Expr where
  | constant (value : Constant)
  | name (name : String)
  | list (items : List Expr)
  | tuple (items : List Expr)
  | dict (entries : List (Expr × Expr))
  | attribute (value : Expr) (attr : String)
  | subscript (value index : Expr)
  /-- `lower:upper:step`, each part optional. -/
  | slice (lower upper step : Option Expr)
  | call (func : Expr) (args : List Argument)
  | binary (op : BinaryOp) (left right : Expr)
  | unary (op : UnaryOp) (operand : Expr)
  | logic (op : BoolOp) (left right : Expr)
  /-- A chain `left op c op c …`. -/
  | compare (left : Expr) (comparisons : List (CompareOp × Expr))
  /-- `body if test else orelse`. -/
  | conditional (test body orelse : Expr)
  | listComp (element : Expr) (clauses : List Clause)
  /-- A comprehension between parentheses, which has a list as its value too. -/
  | generator (element : Expr) (clauses : List Clause)
  | dictComp (key value : Expr) (clauses : List Clause)

inductive Argument where
  | positional (value : Expr)
  | keyword (name : String) (value : Expr)
  /-- `*items` -/
  | unpack (items : Expr)
  /-- `**entries` -/
  | unpackKeywords (entries : Expr)

/-- `for target in iter`, followed by any number of `if condition`. -/
structure Clause where
  target : Target
  iter : Expr
  conditions : List Expr

end

namespace Expr

def str (value : String) : Expr :=
  .constant (.str value)

end Expr

end ComponentMarkup
