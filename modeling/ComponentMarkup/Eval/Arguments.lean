import ComponentMarkup.Eval.Error

/-!
# Arguments of calls

What a call passes to a function, and the checks that functions make before they look at it.
-/

namespace ComponentMarkup

/-- The arguments of a call. Keywords are distinct and in the order in which they were given. -/
structure Arguments where
  positional : List Value
  keywords : Entries String Value

namespace Arguments

def empty : Arguments :=
  ⟨[], []⟩

def append (args : Arguments) (values : List Value) : Arguments :=
  { args with positional := args.positional ++ values }

/-- One more keyword argument, which must not have been given before. -/
def addKeyword (args : Arguments) (name : String) (v : Value) : Except OperationError Arguments :=
  if Entries.contains args.keywords name then .error (.keywordTwice name)
  else .ok { args with keywords := args.keywords ++ [(name, v)] }

/-- The entries of a dictionary as keyword arguments. -/
def addEntries : Arguments → List (Key × Value) → Except OperationError Arguments
  | args, [] => .ok args
  | args, (.str name, v) :: rest => do (← args.addKeyword name v).addEntries rest
  | _, _ => .error .keywordNotString

/-- Refuse keyword arguments. The first one is reported. -/
def noKeywords (args : Arguments) (function : String) : Except OperationError Unit :=
  match args.keywords with
  | [] => .ok ()
  | (name, _) :: _ => .error (.unexpectedKeyword function name)

/-- Refuse other numbers of positional arguments than those between `least` and `most`. -/
def checkCount (args : Arguments) (function : String) (least most : Nat) :
    Except OperationError Unit :=
  let given := args.positional.length
  if given < least ∨ most < given then .error (.argumentCount function least most given)
  else .ok ()

/-- The positional arguments of a function without keywords. -/
def positionalOnly (args : Arguments) (function : String) (least most : Nat) :
    Except OperationError (List Value) := do
  args.noKeywords function
  args.checkCount function least most
  return args.positional

/-- The argument of a function that takes one. -/
def single (args : Arguments) (function : String) : Except OperationError Value := do
  match ← args.positionalOnly function 1 1 with
  | v :: _ => return v
  | [] => .error (.argumentCount function 1 1 0)

/-- The argument of a function that takes one or none. -/
def optional (args : Arguments) (function : String) : Except OperationError (Option Value) := do
  return (← args.positionalOnly function 0 1).head?

/-- Take a keyword argument away from the others. -/
def takeKeyword (args : Arguments) (name : String) : Option Value × Arguments :=
  (args.keywords.lookup name, { args with keywords := Entries.erase args.keywords name })

end Arguments

end ComponentMarkup
