import ComponentMarkup.Expr.Basic
import ComponentMarkup.Value.Text

/-!
# Evaluation errors

Why an expression has no value. An error names its cause; the kind it belongs to and its wording are
given by `EvalError.kind` and `EvalError.message`.

Operations on values have errors of their own. None of them is about a name: names are looked up by
evaluation only.
-/

namespace ComponentMarkup

/-- The kinds of evaluation errors. The last one is no error of the language: evaluation breaks
off. -/
inductive ErrorKind where
  | name | type | value | zeroDivision | index | key | attribute | overflow | panic
deriving DecidableEq, Repr

def ErrorKind.text : ErrorKind → String
  | .name => "NameError"
  | .type => "TypeError"
  | .value => "ValueError"
  | .zeroDivision => "ZeroDivisionError"
  | .index => "IndexError"
  | .key => "KeyError"
  | .attribute => "AttributeError"
  | .overflow => "OverflowError"
  | .panic => "panic"

/-- The causes of errors of operations on values. -/
inductive OperationError where
  /-- An operator that does not take operands of these kinds. -/
  | operands (op : BinaryOp) (left right : ValueType)
  | operand (op : UnaryOp) (type : ValueType)
  /-- Values without an order between them. -/
  | unordered (op : CompareOp) (left right : ValueType)
  /-- Something other than a string looked for in a string. -/
  | notSubstring (type : ValueType)
  | notContainer (type : ValueType)
  | notIterable (type : ValueType)
  | unhashable (type : ValueType)
  | notCallable (type : ValueType)
  | notSubscriptable (type : ValueType)
  /-- A slice outside of a subscript. -/
  | looseSlice
  | notInteger (what : String) (type : ValueType)
  /-- A number of positional arguments outside of what a function takes. -/
  | argumentCount (function : String) (least most given : Nat)
  | unexpectedKeyword (function name : String)
  /-- An argument given both by position and by keyword. -/
  | argumentTwice (function name : String)
  /-- A keyword given twice in one call. -/
  | keywordTwice (name : String)
  | keywordNotString
  | notMapping (type : ValueType)
  | noLength (type : ValueType)
  /-- Something that cannot be turned into a number. -/
  | notNumeric (function : String) (type : ValueType)
  | noMagnitude (type : ValueType)
  | noArguments (function : String)
  | sumOfStrings
  | notCharacter (type : ValueType)
  | characterCount (given : Nat)
  | notString (method : String) (type : ValueType)
  /-- An item to be joined that is no string. -/
  | notStringItem (type : ValueType)
  | zeroSliceStep
  | zeroRangeStep
  | nanToInteger
  | badInteger (literal : List Char)
  | badFloat (literal : List Char)
  /-- A pair of a dictionary that has not two parts. -/
  | pairLength (given : Nat)
  | emptySequence (function : String)
  | noCharacter
  | emptySeparator
  | notInSequence (item : List Char) (type : ValueType)
  | tooFewValues (expected given : Nat)
  | tooManyValues (expected : Nat)
  | integerDivisionByZero
  | divisionByZero
  | floorDivisionByZero
  | remainderByZero
  | zeroToNegativePower
  | indexOutOfRange (what : String)
  | missingKey (key : Key)
  | noAttribute (owner attr : String)
  | noMember (module attr : String)
  | integerOverflow
  | repetitionTooLong
  | rangeTooLarge
  | floatTooLarge
  /-- A sort found out that the order of its items contradicts itself. -/
  | contradictoryOrder
deriving Repr

namespace OperationError

def kind : OperationError → ErrorKind
  | .zeroSliceStep | .zeroRangeStep | .nanToInteger | .badInteger _ | .badFloat _ | .pairLength _
  | .emptySequence _ | .noCharacter | .emptySeparator | .notInSequence .. | .tooFewValues ..
  | .tooManyValues _ => .value
  | .integerDivisionByZero | .divisionByZero | .floorDivisionByZero | .remainderByZero
  | .zeroToNegativePower => .zeroDivision
  | .indexOutOfRange _ => .index
  | .missingKey _ => .key
  | .noAttribute .. | .noMember .. => .attribute
  | .integerOverflow | .repetitionTooLong | .rangeTooLarge | .floatTooLarge => .overflow
  | .contradictoryOrder => .panic
  | _ => .type

/-- A name between single quotes. -/
def inQuotes (name : String) : String :=
  "'" ++ name ++ "'"

def message : OperationError → String
  | .operands op left right =>
    "unsupported operand type(s) for " ++ op.text ++ ": " ++ inQuotes left.name ++ " and " ++
      inQuotes right.name
  | .operand op type =>
    "bad operand type for unary " ++ (if op = .neg then "-" else "+") ++ ": " ++ inQuotes type.name
  | .unordered op left right =>
    inQuotes op.text ++ " not supported between instances of " ++ inQuotes left.name ++ " and " ++
      inQuotes right.name
  | .notSubstring type => "'in <string>' requires string as left operand, not " ++ type.name
  | .notContainer type => "argument of type " ++ inQuotes type.name ++ " is not iterable"
  | .notIterable type => inQuotes type.name ++ " object is not iterable"
  | .unhashable type => "unhashable type: " ++ inQuotes type.name
  | .notCallable type => inQuotes type.name ++ " object is not callable"
  | .notSubscriptable type => inQuotes type.name ++ " object is not subscriptable"
  | .looseSlice => "slice syntax is only valid inside a subscript"
  | .notInteger what type => what ++ " must be an integer, not " ++ inQuotes type.name
  | .argumentCount function least most given =>
    let expected := if least = most then toString least else s!"{least} to {most}"
    s!"{function}() takes {expected} positional arguments but {given} were given"
  | .unexpectedKeyword function name =>
    function ++ "() got an unexpected keyword argument " ++ inQuotes name
  | .argumentTwice function name =>
    function ++ "() got multiple values for argument " ++ inQuotes name
  | .keywordTwice name => "got multiple values for keyword argument " ++ inQuotes name
  | .keywordNotString => "keywords must be strings"
  | .notMapping type => "argument after ** must be a mapping, not " ++ type.name
  | .noLength type => "object of type " ++ inQuotes type.name ++ " has no len()"
  | .notNumeric function type =>
    function ++ "() argument must be a string or a number, not " ++ inQuotes type.name
  | .noMagnitude type => "bad operand type for abs(): " ++ inQuotes type.name
  | .noArguments function => function ++ " expected at least 1 argument, got 0"
  | .sumOfStrings => "sum() can't sum strings [use ''.join(seq) instead]"
  | .notCharacter type => "ord() expected string of length 1, but " ++ type.name ++ " found"
  | .characterCount given => s!"ord() expected a character, but string of length {given} found"
  | .notString method type => method ++ "() argument must be str, not " ++ type.name
  | .notStringItem type => "sequence item: expected str instance, " ++ type.name ++ " found"
  | .zeroSliceStep => "slice step cannot be zero"
  | .zeroRangeStep => "range() arg 3 must not be zero"
  | .nanToInteger => "cannot convert float NaN to integer"
  | .badInteger literal =>
    "invalid literal for int() with base 10: " ++ String.ofList literal
  | .badFloat literal => "could not convert string to float: " ++ String.ofList literal
  | .pairLength given =>
    s!"dictionary update sequence element has length {given}; 2 is required"
  | .emptySequence function => function ++ "() arg is an empty sequence"
  | .noCharacter => "chr() arg not in range(0x110000)"
  | .emptySeparator => "empty separator"
  | .notInSequence item type => String.ofList item ++ " is not in " ++ type.name
  | .tooFewValues expected given =>
    s!"not enough values to unpack (expected {expected}, got {given})"
  | .tooManyValues expected => s!"too many values to unpack (expected {expected})"
  | .integerDivisionByZero => "integer division or modulo by zero"
  | .divisionByZero => "division by zero"
  | .floorDivisionByZero => "float floor division by zero"
  | .remainderByZero => "float modulo"
  | .zeroToNegativePower => "0.0 cannot be raised to a negative power"
  | .indexOutOfRange what => what ++ " index out of range"
  | .missingKey key => String.ofList key.repr
  | .noAttribute owner attr => inQuotes owner ++ " object has no attribute " ++ inQuotes attr
  | .noMember module attr => "module " ++ inQuotes module ++ " has no attribute " ++ inQuotes attr
  | .integerOverflow => "integer overflow"
  | .repetitionTooLong => "repeated sequence is too long"
  | .rangeTooLarge => "range() result is too large"
  | .floatTooLarge => "float too large to convert to int"
  | .contradictoryOrder =>
    "user-provided comparison function does not correctly implement a total order"

end OperationError

/-- The causes of evaluation errors. -/
inductive EvalError where
  | unbound (name : String)
  /-- Bindings given as JSON of the wrong shape. -/
  | notBindings (given : String)
  | operation (cause : OperationError)
  /-- Raised by a native function. -/
  | native (kind : ErrorKind) (message : String)
deriving Repr

instance : Coe OperationError EvalError :=
  ⟨.operation⟩

namespace EvalError

def kind : EvalError → ErrorKind
  | .unbound _ => .name
  | .notBindings _ => .type
  | .operation cause => cause.kind
  | .native kind _ => kind

def message : EvalError → String
  | .unbound name => "name " ++ OperationError.inQuotes name ++ " is not defined"
  | .notBindings given => "bindings must be a JSON object, not " ++ given
  | .operation cause => cause.message
  | .native _ message => message

/-- The error in one line, with its kind. -/
def display (e : EvalError) : String :=
  e.kind.text ++ ": " ++ e.message

end EvalError

end ComponentMarkup
