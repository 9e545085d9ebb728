import ComponentMarkup.Decimal.Layout
import ComponentMarkup.Text.Quoted
import ComponentMarkup.Value.Basic

/-!
# The text of values

`Value.repr` writes a value as an expression would: strings are quoted, collections show the texts
of their items. `Value.display` differs for strings only, which it shows as they are.
-/

namespace ComponentMarkup

def integerText (i : Int64) : List Char :=
  (toString i.toInt).toList

mutual

/-- A key as it is written in a dictionary. -/
def Key.repr : Key → List Char
  | .none => "None".toList
  | .bool b => (if b then "True" else "False").toList
  | .int i => integerText i
  | .str s => Text.quoted s.toList
  | .tuple items =>
    ['('] ++ Key.reprItems items ++ (if items.length = 1 then [','] else []) ++ [')']

def Key.reprItems : List Key → List Char
  | [] => []
  | [k] => k.repr
  | k :: rest => k.repr ++ [',', ' '] ++ Key.reprItems rest

end

/-- The text of a function with a name. -/
def functionText (name : String) : List Char :=
  ("<function " ++ name ++ ">").toList

mutual

/-- A value as an expression would write it. -/
def Value.repr : Value → List Char
  | .none => "None".toList
  | .bool b => (if b then "True" else "False").toList
  | .int i => integerText i
  | .float x => (Decimal.marked x).toList
  | .str s => Text.quoted s.toList
  | .list items => ['['] ++ Value.reprItems items ++ [']']
  | .tuple items =>
    ['('] ++ Value.reprItems items ++ (if items.length = 1 then [','] else []) ++ [')']
  | .dict entries => ['\x7b'] ++ Value.reprEntries entries ++ ['\x7d']
  | .builtin f => functionText f.name
  | .constructor _ _ n => functionText n
  | .method _ _ m => functionText m.name
  | .native _ n => functionText n
  | .module _ n _ => ("<module '" ++ n ++ "'>").toList
  | .component m n props =>
    (qualifiedName m n).toList ++ ['('] ++ Value.reprProps props ++ [')']

def Value.reprItems : List Value → List Char
  | [] => []
  | [v] => v.repr
  | v :: rest => v.repr ++ [',', ' '] ++ Value.reprItems rest

def Value.reprEntries : List (Key × Value) → List Char
  | [] => []
  | [(k, v)] => k.repr ++ [':', ' '] ++ v.repr
  | (k, v) :: rest => k.repr ++ [':', ' '] ++ v.repr ++ [',', ' '] ++ Value.reprEntries rest

def Value.reprProps : List (String × Value) → List Char
  | [] => []
  | [(n, v)] => n.toList ++ ['='] ++ v.repr
  | (n, v) :: rest => n.toList ++ ['='] ++ v.repr ++ [',', ' '] ++ Value.reprProps rest

end

/-- A value as it is shown to a reader. -/
def Value.display : Value → List Char
  | .str s => s.toList
  | v => v.repr

end ComponentMarkup
