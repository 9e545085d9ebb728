import ComponentMarkup.Expr.Basic
import ComponentMarkup.Expr.Lexer

/-!
# Reading expressions

A recursive descent over the tokens of a source. The operators bind, from loosest to tightest, as
the levels `or`, `and`, `not`, comparisons, sums, products, signs and powers; below them stand
calls, subscripts and attributes, then the atoms.

Every function of the descent takes a bound on the depth of its recursion. Between two tokens at
most a fixed number of calls are nested, so a bound proportional to the number of tokens is never
reached; `Expr.parse` supplies it.
-/

namespace ComponentMarkup

/-- The tokens still to be read, and the offset at which the source ends. -/
structure ParserInput where
  tokens : List Spanned
  stop : Nat

/-- A reader of tokens that may fail. -/
abbrev Parser := StateT ParserInput (Except SyntaxError)

namespace Parser

/-! ## Looking at tokens -/

def peek? : Parser (Option Token) := do
  return (← get).tokens.head?.map (·.token)

/-- The token after the next one. -/
def peekSecond? : Parser (Option Token) := do
  return ((← get).tokens.drop 1).head?.map (·.token)

/-- Where the next token starts, or the source ends. -/
def offset : Parser Nat := do
  let input ← get
  return match input.tokens with
    | next :: _ => next.span.start
    | [] => input.stop

def skip (count : Nat) : Parser Unit :=
  modify fun input => { input with tokens := input.tokens.drop count }

/-- A token is the given symbol. -/
def isSymbol (symbol : Symbol) : Option Token → Bool
  | some (.symbol s) => s == symbol
  | _ => false

/-- The next token is the given symbol. -/
def check (symbol : Symbol) : Parser Bool := do
  return isSymbol symbol (← peek?)

/-- Pass over the given symbol, if it is next. -/
def eat (symbol : Symbol) : Parser Bool := do
  if ← check symbol then
    skip 1
    return true
  else return false

/-- Fail because something else was needed here. -/
def unexpected {α : Type} (what : Expectation) : Parser α := do
  throw ⟨.expected what (← peek?), ← offset⟩

/-- Pass over the given symbol, which must be next. -/
def expect (symbol : Symbol) : Parser Unit := do
  unless ← eat symbol do
    unexpected (.symbol symbol)

/-- The next token closes a bracket, or there is none. -/
def atCloser : Parser Bool := do
  return match ← peek? with
    | none => true
    | some (.symbol .rparen) => true
    | some (.symbol .rbracket) => true
    | some (.symbol .rbrace) => true
    | _ => false

/-! ## Targets -/

mutual

/-- The target of a `for` clause. A bracketed name is a tuple of one name. -/
def target : Nat → Parser Target
  | 0 => unexpected .loopVariable
  | depth + 1 => do
    match ← peek? with
    | some (.name name) =>
      skip 1
      return .name name
    | some (.symbol .lparen) =>
      skip 1
      let inner ← targetList depth
      expect .rparen
      return inner
    | some (.symbol .lbracket) =>
      skip 1
      let inner ← targetList depth
      expect .rbracket
      return match inner with
        | .name name => .tuple [.name name]
        | .tuple items => .tuple items
    | _ => unexpected .loopVariable

/-- One target, or several with commas, which make a tuple. -/
def targetList : Nat → Parser Target
  | 0 => unexpected .loopVariable
  | depth + 1 => do
    let first ← target depth
    if ← check .comma then
      return .tuple (first :: (← moreTargets depth))
    else return first

/-- Further targets, each after a comma. The last comma may be followed by nothing. -/
def moreTargets : Nat → Parser (List Target)
  | 0 => unexpected .loopVariable
  | depth + 1 => do
    if ← eat .comma then
      match ← peek? with
      | some (.symbol .in) => return []
      | some (.symbol .rparen) => return []
      | some (.symbol .rbracket) => return []
      | _ =>
        let item ← target depth
        return item :: (← moreTargets depth)
    else return []

end

/-! ## Operators -/

/-- The levels of precedence of operators, loosest first. -/
inductive Level where
  | or | and | not | comparison | sum | product | sign | power
deriving DecidableEq, Repr

/-- The operator of a left-associative level that a token stands for, as a way to join its
operands. -/
def joiner? : Level → Option Token → Option (Expr → Expr → Expr)
  | .or, some (.symbol .or) => some (.logic .or)
  | .and, some (.symbol .and) => some (.logic .and)
  | .sum, some (.symbol .plus) => some (.binary .add)
  | .sum, some (.symbol .minus) => some (.binary .sub)
  | .product, some (.symbol .star) => some (.binary .mul)
  | .product, some (.symbol .slash) => some (.binary .div)
  | .product, some (.symbol .doubleSlash) => some (.binary .floorDiv)
  | .product, some (.symbol .percent) => some (.binary .mod)
  | _, _ => none

/-- The comparison that one or two tokens stand for, and how many they are. -/
def comparison? : Option Token → Option Token → Option (CompareOp × Nat)
  | some (.symbol .eq), _ => some (.eq, 1)
  | some (.symbol .ne), _ => some (.ne, 1)
  | some (.symbol .lt), _ => some (.lt, 1)
  | some (.symbol .le), _ => some (.le, 1)
  | some (.symbol .gt), _ => some (.gt, 1)
  | some (.symbol .ge), _ => some (.ge, 1)
  | some (.symbol .in), _ => some (.mem, 1)
  | some (.symbol .not), some (.symbol .in) => some (.notMem, 2)
  | some (.symbol .is), some (.symbol .not) => some (.isNot, 2)
  | some (.symbol .is), _ => some (.is, 1)
  | _, _ => none

/-- Pass over string literals and join them to `text`. -/
def adjacentStrings : Nat → String → Parser String
  | 0, text => return text
  | depth + 1, text => do
    match ← peek? with
    | some (.str next) =>
      skip 1
      adjacentStrings depth (text ++ next)
    | _ => return text

/-! ## Expressions -/

mutual

/-- An expression, conditional or not: `body if test else orelse`. -/
def test : Nat → Parser Expr
  | 0 => unexpected .expression
  | depth + 1 => do
    if ← check .lambda then
      throw ⟨.lambdaExpression, ← offset⟩
    let body ← level depth .or
    if ← eat .if then
      let condition ← level depth .or
      expect .else
      let orelse ← test depth
      return .conditional condition body orelse
    else return body

/-- An expression whose operators bind at least as tightly as a level. -/
def level : Nat → Level → Parser Expr
  | 0, _ => unexpected .expression
  | depth + 1, .or => do joined depth .or .and (← level depth .and)
  | depth + 1, .and => do joined depth .and .not (← level depth .not)
  | depth + 1, .not => do
    if ← eat .not then
      return .unary .not (← level depth .not)
    else level depth .comparison
  | depth + 1, .comparison => do
    let left ← level depth .sum
    match ← comparisons depth with
    | [] => return left
    | chain => return .compare left chain
  | depth + 1, .sum => do joined depth .sum .product (← level depth .product)
  | depth + 1, .product => do joined depth .product .sign (← level depth .sign)
  | depth + 1, .sign => do
    match ← peek? with
    | some (.symbol .minus) =>
      skip 1
      return .unary .neg (← level depth .sign)
    | some (.symbol .plus) =>
      skip 1
      return .unary .pos (← level depth .sign)
    | _ => level depth .power
  | depth + 1, .power => do
    let base ← trailers depth (← atom depth)
    if ← eat .doubleStar then
      return .binary .pow base (← level depth .sign)
    else return base

/-- Operators of one level after a left operand; the operands are of the next level. -/
def joined : Nat → Level → Level → Expr → Parser Expr
  | 0, _, _, _ => unexpected .expression
  | depth + 1, here, next, left => do
    match joiner? here (← peek?) with
    | some join =>
      skip 1
      let right ← level depth next
      joined depth here next (join left right)
    | none => return left

/-- The links of a chain of comparisons. -/
def comparisons : Nat → Parser (List (CompareOp × Expr))
  | 0 => unexpected .expression
  | depth + 1 => do
    match comparison? (← peek?) (← peekSecond?) with
    | some (op, count) =>
      skip count
      let right ← level depth .sum
      return (op, right) :: (← comparisons depth)
    | none => return []

/-- Calls, subscripts and attributes after an expression. -/
def trailers : Nat → Expr → Parser Expr
  | 0, _ => unexpected .expression
  | depth + 1, e => do
    match ← peek? with
    | some (.symbol .lparen) =>
      skip 1
      trailers depth (.call e (← arguments depth [] []))
    | some (.symbol .lbracket) =>
      skip 1
      let index ← subscripts depth
      expect .rbracket
      trailers depth (.subscript e index)
    | some (.symbol .dot) =>
      skip 1
      match ← peek? with
      | some (.name attr) =>
        skip 1
        trailers depth (.attribute e attr)
      | _ => unexpected .attributeName
    | _ => return e

/-- A name, a literal, or an expression in brackets. -/
def atom : Nat → Parser Expr
  | 0 => unexpected .expression
  | depth + 1 => do
    match ← peek? with
    | some (.name name) =>
      skip 1
      return .name name
    | some (.int value) =>
      skip 1
      return .constant (.int value)
    | some (.float value) =>
      skip 1
      return .constant (.float value)
    | some (.symbol .none) =>
      skip 1
      return .constant .none
    | some (.symbol .true) =>
      skip 1
      return .constant (.bool true)
    | some (.symbol .false) =>
      skip 1
      return .constant (.bool false)
    | some (.str first) =>
      skip 1
      return .str (← adjacentStrings depth first)
    | some (.symbol .lparen) =>
      skip 1
      parenthesized depth
    | some (.symbol .lbracket) =>
      skip 1
      bracketed depth
    | some (.symbol .lbrace) =>
      let start ← offset
      skip 1
      braced depth start
    | _ => unexpected .expression

/-- What follows an opening parenthesis: a tuple, a comprehension, or an expression on its own. -/
def parenthesized : Nat → Parser Expr
  | 0 => unexpected .expression
  | depth + 1 => do
    if ← eat .rparen then
      return .tuple []
    let first ← test depth
    if ← check .for then
      let clauses ← forClauses depth
      expect .rparen
      return .generator first clauses
    if ← eat .rparen then
      return first
    let items ← moreItems depth
    expect .rparen
    return .tuple (first :: items)

/-- What follows an opening bracket: a list display or comprehension. -/
def bracketed : Nat → Parser Expr
  | 0 => unexpected .expression
  | depth + 1 => do
    if ← eat .rbracket then
      return .list []
    let first ← test depth
    if ← check .for then
      let clauses ← forClauses depth
      expect .rbracket
      return .listComp first clauses
    let items ← moreItems depth
    expect .rbracket
    return .list (first :: items)

/-- What follows an opening brace at `start`: a dictionary display or comprehension. -/
def braced : Nat → Nat → Parser Expr
  | 0, _ => unexpected .expression
  | depth + 1, start => do
    if ← eat .rbrace then
      return .dict []
    let key ← test depth
    unless ← eat .colon do
      throw ⟨.setDisplay, start⟩
    let value ← test depth
    if ← check .for then
      let clauses ← forClauses depth
      expect .rbrace
      return .dictComp key value clauses
    let entries ← moreEntries depth
    expect .rbrace
    return .dict ((key, value) :: entries)

/-- Further items, each after a comma. The last comma may be followed by nothing. -/
def moreItems : Nat → Parser (List Expr)
  | 0 => unexpected .expression
  | depth + 1 => do
    if ← eat .comma then
      if ← atCloser then
        return []
      let item ← test depth
      return item :: (← moreItems depth)
    else return []

def moreEntries : Nat → Parser (List (Expr × Expr))
  | 0 => unexpected .expression
  | depth + 1 => do
    if ← eat .comma then
      if ← atCloser then
        return []
      let key ← test depth
      expect .colon
      let value ← test depth
      return (key, value) :: (← moreEntries depth)
    else return []

def forClauses : Nat → Parser (List Clause)
  | 0 => unexpected .expression
  | depth + 1 => do
    if ← eat .for then
      let target ← targetList depth
      expect .in
      let iter ← level depth .or
      let conditions ← conditionList depth
      return ⟨target, iter, conditions⟩ :: (← forClauses depth)
    else return []

def conditionList : Nat → Parser (List Expr)
  | 0 => unexpected .expression
  | depth + 1 => do
    if ← eat .if then
      let condition ← level depth .or
      return condition :: (← conditionList depth)
    else return []

/-- The arguments of a call through its closing parenthesis. `done` holds the arguments read so far,
backwards, and `used` the keywords among them. A comprehension may stand as the only argument. -/
def arguments : Nat → List Argument → List String → Parser (List Argument)
  | 0, _, _ => unexpected .expression
  | depth + 1, done, used => do
    match ← peek?, ← peekSecond? with
    | some (.symbol .rparen), _ =>
      skip 1
      return done.reverse
    | some (.symbol .star), _ =>
      skip 1
      nextArgument depth (.unpack (← test depth) :: done) used
    | some (.symbol .doubleStar), _ =>
      skip 1
      nextArgument depth (.unpackKeywords (← test depth) :: done) used
    | some (.name name), some (.symbol .assign) =>
      if used.contains name then
        throw ⟨.repeatedKeyword name, ← offset⟩
      skip 2
      nextArgument depth (.keyword name (← test depth) :: done) (name :: used)
    | _, _ =>
      let value ← test depth
      if done.isEmpty && (← check .for) then
        let clauses ← forClauses depth
        expect .rparen
        return [.positional (.generator value clauses)]
      nextArgument depth (.positional value :: done) used

/-- What follows an argument: a comma and more of them, or the closing parenthesis. -/
def nextArgument : Nat → List Argument → List String → Parser (List Argument)
  | 0, _, _ => unexpected .expression
  | depth + 1, done, used => do
    if ← eat .comma then
      arguments depth done used
    else
      expect .rparen
      return done.reverse

/-- The index of a subscript. Several indices make a tuple. -/
def subscripts : Nat → Parser Expr
  | 0 => unexpected .expression
  | depth + 1 => do
    let first ← subscript depth
    if ← check .comma then
      return .tuple (first :: (← moreSubscripts depth))
    else return first

def moreSubscripts : Nat → Parser (List Expr)
  | 0 => unexpected .expression
  | depth + 1 => do
    if ← eat .comma then
      if ← atCloser then
        return []
      let index ← subscript depth
      return index :: (← moreSubscripts depth)
    else return []

/-- One index: an expression or a slice. -/
def subscript : Nat → Parser Expr
  | 0 => unexpected .expression
  | depth + 1 => do
    if ← check .colon then
      sliceAfter depth none
    else
      let lower ← test depth
      if ← check .colon then
        sliceAfter depth (some lower)
      else return lower

/-- The rest of a slice, from its first colon on. -/
def sliceAfter : Nat → Option Expr → Parser Expr
  | 0, _ => unexpected .expression
  | depth + 1, lower => do
    expect .colon
    let upper ← slicePart depth
    if ← eat .colon then
      return .slice lower upper (← slicePart depth)
    else return .slice lower upper none

/-- A bound or step of a slice, which may be left out. -/
def slicePart : Nat → Parser (Option Expr)
  | 0 => unexpected .expression
  | depth + 1 => do
    match ← peek? with
    | some (.symbol .colon) => return none
    | some (.symbol .comma) => return none
    | some (.symbol .rbracket) => return none
    | _ => return some (← test depth)

end

/-- A whole source: an expression, or several with commas, which make a tuple. -/
def expressionList (depth : Nat) : Parser Expr := do
  let first ← test depth
  if ← check .comma then
    return .tuple (first :: (← moreItems depth))
  else return first

/-- A bound on the depth of recursion that a number of tokens cannot reach. -/
def depthFor (tokens : Nat) : Nat :=
  16 * (tokens + 2)

end Parser

/-- Read a source text as one expression. -/
def Expr.parse (source : List Char) : Except SyntaxError Expr := do
  let tokens ← Lexer.tokenize source
  let (e, rest) ← (Parser.expressionList (Parser.depthFor tokens.length)).run
    ⟨tokens, Text.byteLength source⟩
  match rest.tokens with
  | [] => return e
  | next :: _ => throw ⟨.trailing next.token, next.span.start⟩

end ComponentMarkup
