import ComponentMarkup.Markup.Error

/-!
# Reading markup

A recursive descent over the text of a template, following the grammar of `Node`. Alternatives are
tried in order, and the first fault ends the reading.

An element between parentheses counts as nested only if the parenthesis closes right after it.
Otherwise the same text is read again as an expression between parentheses, in which the same
elements may be met once more; so elements met after a parenthesis are remembered. This changes how
long reading takes and nothing else. That an element cannot be read is remembered as well, though it
ends the reading.

Every function of the descent takes a bound on the depth of its recursion. Between two characters at
most a fixed number of calls are nested, so a bound proportional to the length of the text is never
reached; `Node.parse` supplies it.
-/

namespace ComponentMarkup

/-- An element read earlier and the place after it, or why there is none. -/
abbrev Attempt := Except MarkupError (Node × Cursor)

/-- The place reached, and the elements read after parentheses by their offsets, unless none are to
be remembered. -/
structure ReaderState where
  cursor : Cursor
  attempts : Option (List (Nat × Attempt))

/-- A reader of markup that may fail. -/
abbrev Reader := StateT ReaderState (Except MarkupError)

namespace Reader

/-! ## Single steps -/

/-- The place reached. -/
def cursor : Reader Cursor := do
  return (← get).cursor

/-- Go on at a place. -/
def moveTo (c : Cursor) : Reader Unit :=
  modify fun s => { s with cursor := c }

def offset : Reader Nat := do
  return (← cursor).offset

/-- The span from an offset up to the place reached. -/
def spanFrom (start : Nat) : Reader Span := do
  return (← cursor).spanFrom start

def skipBlanks : Reader Unit := do
  moveTo (← cursor).skipBlanks

def advance : Reader Unit := do
  moveTo (← cursor).advance

/-- Pass over the given characters, if they come next. -/
def consume (text : List Char) : Reader Bool := do
  match (← cursor).consume? text with
  | some c =>
    moveTo c
    return true
  | none => return false

def fail {α : Type} (fault : MarkupFault) (span : Span) : Reader α :=
  throw ⟨fault, span⟩

/-- Fail because something else was needed here. -/
def expected {α : Type} (need : MarkupNeed) : Reader α := do
  let c ← cursor
  fail (.expected need c.peek?) c.here

/-- Pass over the given characters, which must come next. -/
def expect (text : List Char) (need : MarkupNeed) : Reader Unit := do
  unless ← consume text do
    expected need

/-- Pass over the characters with a property. -/
def skipWhile (p : Char → Bool) : Reader Unit := do
  moveTo ((← cursor).takeWhile p).2

/-- A leaf from an offset up to the place reached. -/
def leafFrom (rule : Rule) (start : Nat) : Reader Node := do
  return .leaf rule (← spanFrom start)

/-- A node from an offset up to the place reached. -/
def nodeFrom (rule : Rule) (start : Nat) (children : List Node) : Reader Node := do
  return ⟨rule, ← spanFrom start, children⟩

/-- What comes of reading an element. -/
def attempt (p : Reader Node) : Reader Attempt :=
  tryCatch (do return .ok (← p, ← cursor)) fun error => return .error error

/-- What came of reading at an offset before, if it is remembered. -/
def remembered? (offset : Nat) : Reader (Option Attempt) := do
  return (← get).attempts.bind (List.lookup offset)

/-- Remember what came of reading at an offset. -/
def remember (offset : Nat) (attempt : Attempt) : Reader Unit :=
  modify fun s => { s with attempts := s.attempts.map ((offset, attempt) :: ·) }

/-! ## Tags and literals -/

/-- The name of a tag, with its text. -/
def tagName : Reader (String × Node) := do
  let start ← offset
  match (← cursor).readName? with
  | some (name, c) =>
    moveTo c
    return (String.ofList name, ← leafFrom .tagName start)
  | none => expected .tagName

/-- The close tag of the element with a name and an open tag. -/
def closeTag (name : String) (opened : Span) : Reader Node := do
  skipBlanks
  let start ← offset
  unless ← consume ['<', '/'] do
    if (← cursor).atEnd then fail (.unclosedTag name) opened else expected (.closeTag name)
  skipBlanks
  let (closing, node) ← tagName
  skipBlanks
  expect ['>'] .closeTagEnd
  let span ← spanFrom start
  if closing = name then return ⟨.closeTag, span, [node]⟩
  else fail (.mismatchedTag name closing) span

/-- A text between two of the given quotes, as the value of an attribute. -/
def quotedLiteral (quote : Char) : Reader Node := do
  let start ← offset
  advance
  skipWhile (· != quote)
  if ← consume [quote] then leafFrom .quotedLiteral start
  else fail .unterminatedString (← spanFrom start)

/-- The quotes with which a string literal opens: three of a kind, or one. -/
def openingQuotes (c : Cursor) : List Char :=
  if c.startsWith ['"', '"', '"'] then ['"', '"', '"']
  else if c.startsWith ['\'', '\'', '\''] then ['\'', '\'', '\'']
  else if c.startsWith ['"'] then ['"']
  else ['\'']

/-- The place after the closing quotes of a string literal. A backslash guards the character after
it. -/
def afterString? (quotes : List Char) (offset : Nat) : List Char → Option Cursor
  | [] => none
  | x :: rest =>
    if quotes.isPrefixOf (x :: rest) then
      some ⟨offset + Text.byteLength quotes, (x :: rest).drop quotes.length⟩
    else if x = '\\' then
      match rest with
      | [] => none
      | y :: rest => afterString? quotes (offset + x.utf8Size + y.utf8Size) rest
    else afterString? quotes (offset + x.utf8Size) rest

def stringLiteral : Reader Node := do
  let start ← cursor
  let quotes := openingQuotes start
  let body := start.rest.drop quotes.length
  match afterString? quotes (start.offset + Text.byteLength quotes) body with
  | some c =>
    moveTo c
    leafFrom .stringLiteral start.offset
  | none => fail .unterminatedString ⟨start.offset, start.stop⟩

/-- A character that ends an expression. -/
def isCloser (x : Char) : Bool :=
  x == ')' || x == '\x7d' || x == ']'

/-- A character that ends plain text in an expression. -/
def isMark (x : Char) : Bool :=
  isCloser x || x == '(' || x == '\x7b' || x == '[' || x == '"' || x == '\''

/-- A character that ends text in content. -/
def isContentMark (x : Char) : Bool :=
  x == '<' || x == '\x7b' || x == '['

/-- Plain text in an expression, which a colon may end too. -/
def plainText (stopAtColon : Bool) : Reader Node := do
  let start ← offset
  skipWhile fun x => !isMark x && !(stopAtColon && x == ':')
  leafFrom .plain start

def contentText : Reader Node := do
  let start ← offset
  skipWhile fun x => !isContentMark x
  leafFrom .text start

/-- Fail because the bound on the depth is used up. -/
def tooDeep {α : Type} : Reader α :=
  expected .elementStart

/-! ## Elements, contents and expressions -/

mutual

def element : Nat → Reader Node
  | 0 => tooDeep
  | depth + 1 => do
    let start ← offset
    expect ['<'] .elementStart
    skipBlanks
    let (name, nameNode) ← tagName
    let attrs ← attributes depth
    skipBlanks
    if ← consume ['/', '>'] then nodeFrom .selfClosing start (nameNode :: attrs)
    else
      expect ['>'] .tagEnd
      let opening ← nodeFrom .openTag start (nameNode :: attrs)
      skipBlanks
      let body ← content depth
      let closing ← closeTag name opening.span
      nodeFrom .normal start [opening, body, closing]

/-- All attributes that follow. -/
def attributes : Nat → Reader (List Node)
  | 0 => tooDeep
  | depth + 1 => do
    let before ← cursor
    skipBlanks
    let start ← cursor
    match start.readName? with
    | none =>
      moveTo before
      return []
    | some (_, c) =>
      moveTo c
      let name ← leafFrom .attrName start.offset
      skipBlanks
      expect ['='] .equalsSign
      skipBlanks
      let value ← attributeValue depth
      let attr ← nodeFrom .attribute start.offset [name, value]
      return attr :: (← attributes depth)

def attributeValue : Nat → Reader Node
  | 0 => tooDeep
  | depth + 1 => do
    let start ← cursor
    match start.peek? with
    | some '"' => quotedLiteral '"'
    | some '\'' => quotedLiteral '\''
    | some '\x7b' =>
      match ← dictShorthand depth with
      | some dict => return dict
      | none =>
        let e ← delimited depth '\x7b' '\x7d'
        nodeFrom .exprValue start.offset [e]
    | some '[' =>
      let e ← delimited depth '[' ']'
      nodeFrom .exprListValue start.offset [e]
    | _ => expected .attributeValue

/-- A key and a value between braces. Without a colon outside of inner brackets there are none, and
nothing is passed over. -/
def dictShorthand : Nat → Reader (Option Node)
  | 0 => tooDeep
  | depth + 1 => do
    let start ← cursor
    advance
    let key ← expression depth true
    if ← consume [':'] then
      let value ← expression depth false
      if ← consume ['\x7d'] then
        return some (← nodeFrom .dictShorthand start.offset [key, value])
      else
        moveTo start
        return none
    else
      moveTo start
      return none

/-- An expression between brackets, of which the opening one comes next. -/
def delimited : Nat → Char → Char → Reader Node
  | 0, _, _ => tooDeep
  | depth + 1, opening, closing => do
    let start ← offset
    advance
    let e ← expression depth false
    if ← consume [closing] then return e
    else fail (.unclosedDelimiter opening) ⟨start, start + 1⟩

def content : Nat → Reader Node
  | 0 => tooDeep
  | depth + 1 => do
    let start ← offset
    let items ← contentItems depth
    nodeFrom .content start items

/-- All items of content that follow. -/
def contentItems : Nat → Reader (List Node)
  | 0 => tooDeep
  | depth + 1 => do
    let c ← cursor
    if c.atEnd || c.startsWith ['<', '/'] then return []
    else
      let item ← contentItem depth
      return item :: (← contentItems depth)

def contentItem : Nat → Reader Node
  | 0 => tooDeep
  | depth + 1 => do
    let start ← cursor
    match start.peek? with
    | some '<' => element depth
    | some '\x7b' =>
      let e ← delimited depth '\x7b' '\x7d'
      nodeFrom .contentExpr start.offset [e]
    | some '[' =>
      let e ← delimited depth '[' ']'
      nodeFrom .contentExprList start.offset [e]
    | _ => contentText

/-- An expression up to what closes it. -/
def expression : Nat → Bool → Reader Node
  | 0, _ => tooDeep
  | depth + 1, stopAtColon => do
    let start ← offset
    let parts ← pieces depth stopAtColon
    nodeFrom .expr start parts

/-- All pieces of an expression that follow. -/
def pieces : Nat → Bool → Reader (List Node)
  | 0, _ => tooDeep
  | depth + 1, stopAtColon => do
    match (← cursor).peek? with
    | none => return []
    | some x =>
      if isCloser x || (stopAtColon && x == ':') then return []
      else
        let part ← piece depth stopAtColon
        return part :: (← pieces depth stopAtColon)

def piece : Nat → Bool → Reader Node
  | 0, _ => tooDeep
  | depth + 1, stopAtColon => do
    match (← cursor).peek? with
    | some '"' => stringLiteral
    | some '\'' => stringLiteral
    | some '(' =>
      match ← nestedElement depth with
      | some nested => return nested
      | none => group depth .parens '(' ')'
    | some '\x7b' => group depth .braces '\x7b' '\x7d'
    | some '[' => group depth .brackets '[' ']'
    | _ => plainText stopAtColon

/-- An expression between brackets, as a piece of an expression. -/
def group : Nat → Rule → Char → Char → Reader Node
  | 0, _, _, _ => tooDeep
  | depth + 1, rule, opening, closing => do
    let start ← offset
    let e ← delimited depth opening closing
    nodeFrom rule start [e]

/-- An element between parentheses. If no element follows the parenthesis, or something else follows
the element, there is none, and nothing is passed over; but an element that starts must be one. -/
def nestedElement : Nat → Reader (Option Node)
  | 0 => tooDeep
  | depth + 1 => do
    let start ← cursor
    advance
    skipBlanks
    let place ← cursor
    if place.startsWith ['<'] then
      let (e, after) ← elementAt depth place
      moveTo after
      skipBlanks
      if ← consume [')'] then
        return some (← nodeFrom .nestedElement start.offset [e])
      else
        moveTo start
        return none
    else
      moveTo start
      return none

/-- The element at the place reached, and the place after it. -/
def elementAt : Nat → Cursor → Reader (Node × Cursor)
  | 0, _ => tooDeep
  | depth + 1, place => do
    match ← remembered? place.offset with
    | some attempt => attempt
    | none =>
      let attempt ← attempt (element depth)
      remember place.offset attempt
      attempt

end

def document (depth : Nat) : Reader Node := do
  let total := (← cursor).stop
  skipBlanks
  let e ← element depth
  skipBlanks
  let c ← cursor
  if c.atEnd then return ⟨.document, ⟨0, total⟩, [e]⟩
  else fail .trailingContent ⟨c.offset, total⟩

/-- A bound on the depth of recursion that a number of characters cannot reach. -/
def depthFor (length : Nat) : Nat :=
  8 * (length + 2)

end Reader

/-- Read a template, with or without remembering elements met after parentheses. -/
def Node.parseWith (remembering : Bool) (source : List Char) : Except MarkupError Node :=
  (Reader.document (Reader.depthFor source.length)).run'
    ⟨.ofText source, if remembering then some [] else none⟩

def Node.parse (source : List Char) : Except MarkupError Node :=
  Node.parseWith true source

end ComponentMarkup
