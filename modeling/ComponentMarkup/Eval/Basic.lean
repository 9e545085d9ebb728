import ComponentMarkup.Eval.Bindings
import ComponentMarkup.Eval.Builtins
import ComponentMarkup.Eval.Comparison
import ComponentMarkup.Eval.Methods

/-!
# Evaluation

The value of an expression under layers of bindings. Evaluation follows the tree from left to right;
the first error ends it. The only effect is that new values get an identity of their own: the bound
method that is made when a method is looked up, and whatever native functions make.

A comprehension has one frame for all names that its clauses bind. The frame is empty at first and
is carried from round to round, so a name stays bound to its last value.
-/

namespace ComponentMarkup

/-- A computation that may fail and may make values with a new identity. -/
abbrev Eval := StateT Identity (Except EvalError)

instance : MonadLift (Except OperationError) (Except EvalError) where
  monadLift := Except.mapError .operation

/-- A number that no value has yet as its identity. -/
def freshIdentity : Eval Identity :=
  fun next => .ok (next, next + 1)

/-- What the native functions of a host do when they are called. -/
class Natives where
  call (id : Identity) (args : Arguments) : Eval Value

/-- A host without native functions. -/
instance (priority := low) Natives.none : Natives where
  call _ _ := throw (.operation (.notCallable .function))

/-- What names mean: the frames of the comprehensions around the expression, innermost first, then
the layers of bindings. A hole is a name that stands for a computation in the frames around it. -/
structure Scope where
  frames : List Bindings
  layers : List Bindings
  holes : String → Option (List Bindings → Eval Value)

namespace Scope

/-- A scope outside of comprehensions, without holes. -/
def ofLayers (layers : List Bindings) : Scope :=
  ⟨[], layers, fun _ => none⟩

/-- The scope inside of a comprehension. -/
def enter (scope : Scope) (frame : Bindings) : Scope :=
  { scope with frames := frame :: scope.frames }

/-- What a name means that is no hole; builtins are known everywhere, but bindings come first. -/
def lookup (scope : Scope) (name : String) : Except EvalError Value :=
  match lookupLayers name scope.frames with
  | some v => .ok v
  | none =>
    match lookupLayers name scope.layers with
    | some v => .ok v
    | none =>
      match Builtin.ofName? name with
      | some function => .ok (.builtin function)
      | none => .error (.unbound name)

/-- The value of a name. -/
def resolve (scope : Scope) (name : String) : Eval Value :=
  match scope.holes name with
  | some meaning => meaning scope.frames
  | none => scope.lookup name

end Scope

def Constant.value : Constant → Value
  | .none => .none
  | .bool b => .bool b
  | .int i => .int i
  | .float x => .float x
  | .str s => .str s

/-! ## Attributes and calls -/

/-- An attribute of a value: a member, a property or a method. -/
def Value.attribute (v : Value) (attr : String) : Eval Value :=
  match v with
  | .module _ name members =>
    match members.lookup attr with
    | some member => return member
    | Option.none => throw (.operation (.noMember name attr))
  | .component _ name props =>
    match props.lookup attr with
    | some prop => return prop
    | Option.none => throw (.operation (.noAttribute name attr))
  | v =>
    match v.method? attr with
    | some m => do return .method (← freshIdentity) v m
    | Option.none => throw (.operation (.noAttribute v.type.name attr))

/-- Make a component. A positional argument is its children. -/
def construct (module name : String) (args : Arguments) : Except OperationError Value := do
  args.checkCount name 0 1
  match args.positional with
  | [] => return .component module name args.keywords
  | children :: _ =>
    if Entries.contains args.keywords "children" then .error (.argumentTwice name "children")
    else return .component module name (("children", children) :: args.keywords)

/-- Call a function that is not native. -/
def Value.call (function : Value) (args : Arguments) : Except OperationError Value :=
  match function with
  | .builtin f => f.call args
  | .constructor _ owner name => construct owner name args
  | .method _ receiver m => m.call receiver args
  | v => .error (.notCallable v.type)

/-- Call a function. -/
def Value.invoke [Natives] (function : Value) (args : Arguments) : Eval Value :=
  match function with
  | .native id _ => Natives.call id args
  | f => f.call args

/-! ## Targets -/

mutual

/-- Bind the names of a target to the parts of a value. -/
def Target.bind (target : Target) (v : Value) (frame : Bindings) : Except OperationError Bindings :=
  match target with
  | .name n => .ok (Entries.insert n v frame)
  | .tuple targets => do
    let items ← v.iterate
    if items.length < targets.length then .error (.tooFewValues targets.length items.length)
    else if targets.length < items.length then .error (.tooManyValues targets.length)
    else Target.bindAll targets items frame

def Target.bindAll : List Target → List Value → Bindings → Except OperationError Bindings
  | target :: targets, v :: values, frame => do
    Target.bindAll targets values (← target.bind v frame)
  | _, _, frame => .ok frame

end

/-! ## Expressions -/

/-- The bound of a slice that a value stands for. -/
def sliceBound? : Value → Except OperationError (Option Int64)
  | .none => .ok Option.none
  | v => (v.expectInt "slice indices").map some

/-- What a round of a comprehension adds. Lists have no use for the key. -/
abbrev Contribution := Key × Value

variable [Natives]

mutual

/-- The value of an expression. -/
def Expr.eval (e : Expr) (scope : Scope) : Eval Value :=
  match e with
  | .constant c => return c.value
  | .name n => scope.resolve n
  | .list items => do return .list (← Expr.evalAll items scope)
  | .tuple items => do return .tuple (← Expr.evalAll items scope)
  | .dict entries => do return .dict (Entries.ofPairs (← Expr.evalEntries entries scope))
  | .attribute e attr => do (← e.eval scope).attribute attr
  | .subscript e (.slice lower upper step) => do
    let v ← e.eval scope
    let lower ← Expr.evalBound lower scope
    let upper ← Expr.evalBound upper scope
    let step ← Expr.evalBound step scope
    v.slice lower upper step
  | .subscript e index => do
    let v ← e.eval scope
    v.subscript (← index.eval scope)
  | .slice .. => throw (.operation .looseSlice)
  | .call function args => do
    let f ← function.eval scope
    f.invoke (← Argument.evalAll args scope .empty)
  | .binary op left right => do
    let a ← left.eval scope
    op.apply a (← right.eval scope)
  | .unary op operand => do op.apply (← operand.eval scope)
  | .logic op left right => do
    let a ← left.eval scope
    if a.truthy == (op == .or) then return a else right.eval scope
  | .compare left comparisons => do
    return .bool (← Expr.evalChain comparisons (← left.eval scope) scope)
  | .conditional test body orelse => do
    if (← test.eval scope).truthy then body.eval scope else orelse.eval scope
  | .listComp element clauses => do
    let (_, rows) ← Clause.run clauses (fun scope => do return (.none, ← element.eval scope)) scope
      [] []
    return .list (rows.reverse.map Prod.snd)
  | .generator element clauses => do
    let (_, rows) ← Clause.run clauses (fun scope => do return (.none, ← element.eval scope)) scope
      [] []
    return .list (rows.reverse.map Prod.snd)
  | .dictComp key value clauses => do
    let emit := fun scope => do
      let k ← (← key.eval scope).toKey
      return (k, ← value.eval scope)
    let (_, rows) ← Clause.run clauses emit scope [] []
    return .dict (Entries.ofPairs rows.reverse)

/-- The values of expressions, from left to right. -/
def Expr.evalAll (items : List Expr) (scope : Scope) : Eval (List Value) :=
  match items with
  | [] => return []
  | e :: rest => do
    let v ← e.eval scope
    return v :: (← Expr.evalAll rest scope)

def Expr.evalEntries (entries : List (Expr × Expr)) (scope : Scope) : Eval (List (Key × Value)) :=
  match entries with
  | [] => return []
  | (key, value) :: rest => do
    let k ← (← key.eval scope).toKey
    let v ← value.eval scope
    return (k, v) :: (← Expr.evalEntries rest scope)

def Expr.evalBound (bound : Option Expr) (scope : Scope) : Eval (Option Int64) :=
  match bound with
  | none => return none
  | some e => do sliceBound? (← e.eval scope)

/-- Whether a chain of comparisons holds, beginning with the value on its left. What follows the
first comparison that fails is not evaluated. -/
def Expr.evalChain (comparisons : List (CompareOp × Expr)) (left : Value) (scope : Scope) :
    Eval Bool :=
  match comparisons with
  | [] => return true
  | (op, e) :: rest => do
    let right ← e.eval scope
    if ← op.apply left right then Expr.evalChain rest right scope else return false

/-- Whether all conditions hold. What follows the first that fails is not evaluated. -/
def Expr.evalConditions (conditions : List Expr) (scope : Scope) : Eval Bool :=
  match conditions with
  | [] => return true
  | e :: rest => do
    if (← e.eval scope).truthy then Expr.evalConditions rest scope else return false

/-- The arguments of a call, after those that were evaluated already. -/
def Argument.evalAll (args : List Argument) (scope : Scope) (done : Arguments) : Eval Arguments :=
  match args with
  | [] => return done
  | .positional e :: rest => do
    let v ← e.eval scope
    Argument.evalAll rest scope (done.append [v])
  | .keyword name e :: rest => do
    let v ← e.eval scope
    Argument.evalAll rest scope (← done.addKeyword name v)
  | .unpack e :: rest => do
    let items ← (← e.eval scope).iterate
    Argument.evalAll rest scope (done.append items)
  | .unpackKeywords e :: rest => do
    match ← e.eval scope with
    | .dict entries => Argument.evalAll rest scope (← done.addEntries entries)
    | v => throw (.operation (.notMapping v.type))

/-- Run the clauses of a comprehension, from a frame and the contributions made so far, the latest
of them first. -/
def Clause.run (clauses : List Clause) (emit : Scope → Eval Contribution) (scope : Scope)
    (frame : Bindings) (rows : List Contribution) : Eval (Bindings × List Contribution) :=
  match clauses with
  | [] => do return (frame, (← emit (scope.enter frame)) :: rows)
  | ⟨target, iter, conditions⟩ :: rest => do
    let items ← (← iter.eval (scope.enter frame)).iterate
    items.foldlM
      (fun (frame, rows) item => do
        let frame ← target.bind item frame
        if ← Expr.evalConditions conditions (scope.enter frame) then
          Clause.run rest emit scope frame rows
        else return (frame, rows))
      (frame, rows)

end

/-- The value of an expression under layers of bindings, with what was made on the way given
identities from `next` on. -/
def Expr.evaluate (e : Expr) (layers : List Bindings) (next : Identity) :
    Except EvalError (Value × Identity) :=
  (e.eval (.ofLayers layers)).run next

end ComponentMarkup
