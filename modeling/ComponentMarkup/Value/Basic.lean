import ComponentMarkup.Entries
import ComponentMarkup.Value.Key

/-!
# Values

What expressions evaluate to. Integers have 64 bits. Functions are builtins, constructors of
components, methods bound to the value they were looked up on, and native functions, which a host
puts into bindings. Every function is a piece of data; what a call of a native one does is a
parameter of evaluation.

Some values have an identity beside their content: two constructors, methods, native functions or
modules are the same only if they were made by the same step. Such a value carries a number that was
fresh when it was made.
-/

namespace ComponentMarkup

/-- What tells apart values that were made by different steps. -/
abbrev Identity := Nat

/-- The functions that every expression can use. -/
inductive Builtin where
  | range | len | str | repr | int | float | bool | list | tuple | dict | abs | min | max | sum
  | sorted | reversed | enumerate | zip | chr | ord | any | all
deriving DecidableEq, Repr

namespace Builtin

def every : List Builtin :=
  [.range, .len, .str, .repr, .int, .float, .bool, .list, .tuple, .dict, .abs, .min, .max, .sum,
    .sorted, .reversed, .enumerate, .zip, .chr, .ord, .any, .all]

def name : Builtin → String
  | .range => "range"
  | .len => "len"
  | .str => "str"
  | .repr => "repr"
  | .int => "int"
  | .float => "float"
  | .bool => "bool"
  | .list => "list"
  | .tuple => "tuple"
  | .dict => "dict"
  | .abs => "abs"
  | .min => "min"
  | .max => "max"
  | .sum => "sum"
  | .sorted => "sorted"
  | .reversed => "reversed"
  | .enumerate => "enumerate"
  | .zip => "zip"
  | .chr => "chr"
  | .ord => "ord"
  | .any => "any"
  | .all => "all"

def ofName? (n : String) : Option Builtin :=
  every.find? (·.name == n)

end Builtin

/-- Methods of strings, dictionaries, lists and tuples. -/
inductive Method where
  | upper | lower | strip | lstrip | rstrip | title | capitalize | join | replace | split
  | startswith | endswith | count | find
  | get | keys | values | items
  | index
deriving DecidableEq, Repr

namespace Method

def name : Method → String
  | .upper => "upper"
  | .lower => "lower"
  | .strip => "strip"
  | .lstrip => "lstrip"
  | .rstrip => "rstrip"
  | .title => "title"
  | .capitalize => "capitalize"
  | .join => "join"
  | .replace => "replace"
  | .split => "split"
  | .startswith => "startswith"
  | .endswith => "endswith"
  | .count => "count"
  | .find => "find"
  | .get => "get"
  | .keys => "keys"
  | .values => "values"
  | .items => "items"
  | .index => "index"

def ofStrings : List Method :=
  [.upper, .lower, .strip, .lstrip, .rstrip, .title, .capitalize, .join, .replace, .split,
    .startswith, .endswith, .count, .find]

def ofDicts : List Method :=
  [.get, .keys, .values, .items]

def ofSequences : List Method :=
  [.index, .count]

end Method

inductive Value where
  | none
  | bool (value : Bool)
  | int (value : Int64)
  | float (value : Float)
  | str (value : String)
  | list (items : List Value)
  | tuple (items : List Value)
  | dict (entries : List (Key × Value))
  | builtin (function : Builtin)
  /-- Makes components with a name, from a module unless that is empty. -/
  | constructor (id : Identity) (module name : String)
  /-- A method of the value it was looked up on. -/
  | method (id : Identity) (receiver : Value) (method : Method)
  /-- A function of the host. -/
  | native (id : Identity) (name : String)
  /-- A collection of named members. -/
  | module (id : Identity) (name : String) (members : List (String × Value))
  /-- What a constructor made, with its properties. -/
  | component (module name : String) (props : List (String × Value))
deriving Inhabited

/-- The kinds of values. -/
inductive ValueType where
  | none | bool | int | float | str | list | tuple | dict | function | module | component
deriving DecidableEq, Repr

def ValueType.name : ValueType → String
  | .none => "NoneType"
  | .bool => "bool"
  | .int => "int"
  | .float => "float"
  | .str => "str"
  | .list => "list"
  | .tuple => "tuple"
  | .dict => "dict"
  | .function => "function"
  | .module => "module"
  | .component => "component"

namespace Value

def type : Value → ValueType
  | .none => .none
  | .bool _ => .bool
  | .int _ => .int
  | .float _ => .float
  | .str _ => .str
  | .list _ => .list
  | .tuple _ => .tuple
  | .dict _ => .dict
  | .builtin _ => .function
  | .constructor .. => .function
  | .method .. => .function
  | .native .. => .function
  | .module .. => .module
  | .component .. => .component

def ofText (text : List Char) : Value :=
  .str (String.ofList text)

/-- Whether a value counts as true in a condition: zeros and empty collections do not. -/
def truthy : Value → Bool
  | .none => false
  | .bool b => b
  | .int i => i != 0
  | .float x => x != 0.0
  | .str s => !s.isEmpty
  | .list items => !items.isEmpty
  | .tuple items => !items.isEmpty
  | .dict entries => !entries.isEmpty
  | _ => true

/-- The integer that an integer or a boolean stands for. -/
def toInt? : Value → Option Int64
  | .int i => some i
  | .bool b => some (if b then 1 else 0)
  | _ => Option.none

/-- The number that a number or a boolean stands for, as a double. -/
def toFloat? : Value → Option Float
  | .float x => some x
  | v => v.toInt?.map Int64.toFloat

end Value

mutual

/-- The value that a key stands for. -/
def Key.toValue : Key → Value
  | .none => .none
  | .bool b => .bool b
  | .int i => .int i
  | .str s => .str s
  | .tuple items => .tuple (Key.toValues items)

def Key.toValues : List Key → List Value
  | [] => []
  | k :: rest => k.toValue :: Key.toValues rest

end

/-- The name of a component with its module, if it has one. -/
def qualifiedName (module name : String) : String :=
  if module.isEmpty then name else module ++ "." ++ name

end ComponentMarkup
