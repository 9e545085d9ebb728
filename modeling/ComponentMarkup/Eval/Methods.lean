import ComponentMarkup.Eval.Arguments
import ComponentMarkup.Eval.Sequence
import ComponentMarkup.Text.Case
import ComponentMarkup.Text.Search
import ComponentMarkup.Value.Compare

/-!
# Methods

What the methods of strings, dictionaries, lists and tuples do.
-/

namespace ComponentMarkup

def Value.method? (v : Value) (name : String) : Option Method :=
  let methods := match v with
    | .str _ => Method.ofStrings
    | .dict _ => Method.ofDicts
    | .list _ => Method.ofSequences
    | .tuple _ => Method.ofSequences
    | _ => []
  methods.find? (·.name == name)

namespace Method

/-! ## Strings -/

/-- The characters of an argument that must be a string. -/
def textArgument (m : Method) : Value → Except OperationError (List Char)
  | .str s => .ok s.toList
  | v => .error (.notString m.name v.type)

/-- The test for the characters to strip: those of an argument, or blanks without one. -/
def stripTest (m : Method) (args : Arguments) : Except OperationError (Char → Bool) := do
  match ← args.positionalOnly m.name 0 1 with
  | [] => return Text.isBlank
  | .none :: _ => return Text.isBlank
  | v :: _ => do
    let set ← m.textArgument v
    return (set.contains ·)

/-- The texts of items that must be strings. -/
def textItems : List Value → Except OperationError (List (List Char))
  | [] => .ok []
  | .str s :: rest => do return s.toList :: (← textItems rest)
  | v :: _ => .error (.notStringItem v.type)

/-- `split`: at blanks, or at a separator. -/
def splitText (text : List Char) (args : Arguments) : Except OperationError Value := do
  match ← args.positionalOnly "split" 0 1 with
  | [] => return .list ((Text.words text).map .ofText)
  | .none :: _ => return .list ((Text.words text).map .ofText)
  | v :: _ => do
    let separator ← Method.split.textArgument v
    if separator.isEmpty then .error .emptySeparator
    return .list ((Text.split separator text).map .ofText)

def replaceText (text : List Char) (args : Arguments) : Except OperationError Value := do
  match ← args.positionalOnly "replace" 2 2 with
  | old :: new :: _ => do
    let old ← Method.replace.textArgument old
    let new ← Method.replace.textArgument new
    return .ofText (Text.replace old new text)
  | _ => .error (.argumentCount "replace" 2 2 0)

/-- The place of a text in another, or -1. -/
def placeOf (needle text : List Char) : Int64 :=
  match Text.find? needle text with
  | some i => Int64.ofNat i
  | none => -1

def ofString (m : Method) (text : List Char) (args : Arguments) : Except OperationError Value :=
  match m with
  | .upper => do
    let _ ← args.positionalOnly m.name 0 0
    return .ofText (Text.upper text)
  | .lower => do
    let _ ← args.positionalOnly m.name 0 0
    return .ofText (Text.lower text)
  | .title => do
    let _ ← args.positionalOnly m.name 0 0
    return .ofText (Text.title text)
  | .capitalize => do
    let _ ← args.positionalOnly m.name 0 0
    return .ofText (Text.capitalize text)
  | .strip => do
    let strip ← m.stripTest args
    return .ofText (Text.trimEnd strip (Text.trimStart strip text))
  | .lstrip => do return .ofText (Text.trimStart (← m.stripTest args) text)
  | .rstrip => do return .ofText (Text.trimEnd (← m.stripTest args) text)
  | .join => do
    let items ← (← args.single m.name).iterate
    return .ofText (Text.join text (← textItems items))
  | .replace => replaceText text args
  | .split => splitText text args
  | .startswith => do return .bool ((← m.textArgument (← args.single m.name)).isPrefixOf text)
  | .endswith => do return .bool (Text.endsWith text (← m.textArgument (← args.single m.name)))
  | .count => do
    return .int (Int64.ofNat (Text.count (← m.textArgument (← args.single m.name)) text))
  | .find => do return .int (placeOf (← m.textArgument (← args.single m.name)) text)
  | m => .error (.noAttribute "str" m.name)

/-! ## Dictionaries -/

def ofDict (m : Method) (entries : List (Key × Value)) (args : Arguments) :
    Except OperationError Value :=
  match m with
  | .get => do
    match ← args.positionalOnly m.name 1 2 with
    | [] => .error (.argumentCount m.name 1 2 0)
    | key :: more =>
      return (entries.lookup (← key.toKey)).getD (more.head?.getD .none)
  | .keys => do
    let _ ← args.positionalOnly m.name 0 0
    return .list (entries.map fun (k, _) => k.toValue)
  | .values => do
    let _ ← args.positionalOnly m.name 0 0
    return .list (entries.map Prod.snd)
  | .items => do
    let _ ← args.positionalOnly m.name 0 0
    return .list (entries.map fun (k, v) => .tuple [k.toValue, v])
  | m => .error (.noAttribute "dict" m.name)

/-! ## Lists and tuples -/

def ofSequence (m : Method) (type : ValueType) (items : List Value) (args : Arguments) :
    Except OperationError Value := do
  let item ← args.single m.name
  match m with
  | .count => return .int (Int64.ofNat (items.countP (·.equal item)))
  | .index =>
    match items.findIdx? (·.equal item) with
    | some i => return .int (Int64.ofNat i)
    | none => .error (.notInSequence item.repr type)
  | m => .error (.noAttribute type.name m.name)

def call (m : Method) (receiver : Value) (args : Arguments) : Except OperationError Value :=
  match receiver with
  | .str s => m.ofString s.toList args
  | .dict entries => m.ofDict entries args
  | .list elements => m.ofSequence .list elements args
  | .tuple elements => m.ofSequence .tuple elements args
  | v => .error (.noAttribute v.type.name m.name)

end Method

end ComponentMarkup
