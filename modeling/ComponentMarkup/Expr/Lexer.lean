import ComponentMarkup.Decimal.Reading
import ComponentMarkup.Expr.SyntaxError
import ComponentMarkup.Integer
import ComponentMarkup.Text.Quoted

/-!
# Splitting a source into tokens

At every position the longest token is taken. `scan` reads the token that begins with a given
character and says how many more characters it covers; `tokensFrom` walks over the source with it,
skips blanks between tokens and notes the span of each.
-/

namespace ComponentMarkup.Lexer

/-- A token that covers the character it begins with and `more` characters after it. -/
structure Lexeme where
  token : Token
  more : Nat
deriving Repr

/-- Characters that separate tokens: space, tab, line feed, carriage return and form feed. -/
def isSkipped (c : Char) : Bool :=
  c = ' ' || c = '\t' || c = '\n' || c = '\r' || c = '\x0c'

/-- Names begin with a letter or an underscore. -/
def isNameStart (c : Char) : Bool :=
  c.isAlpha || c = '_'

/-- Names go on with letters, digits and underscores. -/
def isNamePart (c : Char) : Bool :=
  c.isAlphanum || c = '_'

/-- Digits may be grouped with underscores. -/
def isDigitPart (c : Char) : Bool :=
  c.isDigit || c = '_'

/-! ## Names and symbols -/

/-- A keyword or a name. -/
def scanWord (c : Char) (rest : List Char) : Lexeme :=
  let more := rest.takeWhile isNamePart
  let word := String.ofList (c :: more)
  ⟨match Symbol.ofWord? word with
    | some symbol => .symbol symbol
    | none => .name word, more.length⟩

/-- A bracket, punctuation mark or operator. -/
def scanSymbol? (c : Char) (rest : List Char) : Option Lexeme :=
  let one := fun symbol => some ⟨.symbol symbol, 0⟩
  let oneOrTwo := fun second long short =>
    if rest.head? = some second then some ⟨.symbol long, 1⟩ else some ⟨.symbol short, 0⟩
  match c with
  | '(' => one .lparen
  | ')' => one .rparen
  | '[' => one .lbracket
  | ']' => one .rbracket
  | '\x7b' => one .lbrace
  | '\x7d' => one .rbrace
  | ',' => one .comma
  | ':' => one .colon
  | '.' => one .dot
  | '+' => one .plus
  | '-' => one .minus
  | '%' => one .percent
  | '*' => oneOrTwo '*' .doubleStar .star
  | '/' => oneOrTwo '/' .doubleSlash .slash
  | '=' => oneOrTwo '=' .eq .assign
  | '<' => oneOrTwo '=' .le .lt
  | '>' => oneOrTwo '=' .ge .gt
  | '!' => if rest.head? = some '=' then some ⟨.symbol .ne, 1⟩ else none
  | _ => none

/-! ## Numbers -/

/-- The characters of a number without the underscores that group them. -/
def ungroup (text : List Char) : List Char :=
  text.filter (· ≠ '_')

/-- The integer token for a number, if it fits. -/
def intToken? (value : Nat) : Option Token :=
  (integer? value).map .int

/-- An exponent mark with an optional sign and at least one digit, or nothing. -/
def exponentPart : List Char → List Char
  | mark :: rest =>
    if mark = 'e' ∨ mark = 'E' then
      match rest with
      | sign :: digits =>
        if sign = '+' ∨ sign = '-' then
          let digits := digits.takeWhile Char.isDigit
          if digits.isEmpty then [] else mark :: sign :: digits
        else
          let digits := rest.takeWhile Char.isDigit
          if digits.isEmpty then [] else mark :: digits
      | [] => []
    else []
  | [] => []

/-- The lexeme of a whole literal, or the complaint that it does not fit. -/
def numberLexeme (literal : List Char) (token : Option Token) : Except SyntaxFault Lexeme :=
  match token with
  | some token => .ok ⟨token, literal.length - 1⟩
  | none => .error (.invalid literal)

def floatLexeme (literal : List Char) : Except SyntaxFault Lexeme :=
  numberLexeme literal ((Decimal.read? (ungroup literal)).map .float)

/-- The digits of a hexadecimal literal, which follow `0x`. -/
def hexDigitsAfter (c : Char) (rest : List Char) : List Char :=
  match rest with
  | mark :: digits =>
    if c = '0' ∧ (mark = 'x' ∨ mark = 'X') then
      digits.takeWhile fun d => (Text.hexDigit? d).isSome || d = '_'
    else []
  | [] => []

/-- A number that begins with a digit. -/
def scanNumber (c : Char) (rest : List Char) : Except SyntaxFault Lexeme :=
  let hex := hexDigitsAfter c rest
  if hex.isEmpty then
    let whole := rest.takeWhile isDigitPart
    match rest.dropWhile isDigitPart with
    | '.' :: after =>
      let fraction := after.takeWhile isDigitPart
      floatLexeme (c :: whole ++ '.' :: fraction ++ exponentPart (after.dropWhile isDigitPart))
    | after =>
      let exponent := exponentPart after
      if exponent.isEmpty then
        numberLexeme (c :: whole) (intToken? (Decimal.digitsValue (ungroup (c :: whole))))
      else floatLexeme (c :: whole ++ exponent)
  else
    let digits := ungroup hex
    numberLexeme (c :: rest.take 1 ++ hex)
      (if digits.isEmpty then none else (Text.hexValue? digits).bind intToken?)

/-- A number that begins with a point; `digit` is the digit after it. -/
def scanFraction (digit : Char) (rest : List Char) : Except SyntaxFault Lexeme :=
  let more := rest.takeWhile isDigitPart
  floatLexeme ('.' :: digit :: more ++ exponentPart (rest.dropWhile isDigitPart))

/-! ## Strings -/

/-- The body of a literal on one line, up to its closing quote. A backslash takes the next character
with it, which must not be a line feed. -/
def lineBody? (quote : Char) : List Char → Option (List Char)
  | [] => none
  | c :: rest =>
    if c = quote then some []
    else if c = '\n' then none
    else if c = '\\' then
      match rest with
      | [] => none
      | escaped :: rest =>
        if escaped = '\n' then none else (lineBody? quote rest).map (c :: escaped :: ·)
    else (lineBody? quote rest).map (c :: ·)

/-- The body of a literal between triple quotes. A backslash takes the next character with it. -/
def blockBody? (quote : Char) : List Char → Option (List Char)
  | [] => none
  | c :: rest =>
    if c = '\\' then
      match rest with
      | [] => none
      | escaped :: rest => (blockBody? quote rest).map (c :: escaped :: ·)
    else if c = quote && [quote, quote].isPrefixOf rest then some []
    else (blockBody? quote rest).map (c :: ·)

def scanString (quote : Char) (rest : List Char) : Except SyntaxFault Lexeme :=
  let closed := fun (body : Option (List Char)) (quotes : Nat) =>
    match body with
    | some body => .ok ⟨.str (String.ofList (Text.unescape body)), body.length + quotes⟩
    | none => .error .unterminatedString
  if [quote, quote].isPrefixOf rest then closed (blockBody? quote (rest.drop 2)) 5
  else closed (lineBody? quote rest) 1

/-! ## Tokens -/

/-- The token that begins with `c` in the text `c :: rest`. -/
def scan (c : Char) (rest : List Char) : Except SyntaxFault Lexeme :=
  if isNameStart c then .ok (scanWord c rest)
  else if c.isDigit then scanNumber c rest
  else if c = '"' || c = '\'' then scanString c rest
  else
    match c, rest with
    | '.', digit :: more =>
      if digit.isDigit then scanFraction digit more else .ok ⟨.symbol .dot, 0⟩
    | _, _ =>
      match scanSymbol? c rest with
      | some lexeme => .ok lexeme
      | none => .error (.invalid [c])

/-- The tokens of a text that stands at a byte offset of the source. -/
def tokensFrom (offset : Nat) (text : List Char) : Except SyntaxError (List Spanned) :=
  match text with
  | [] => .ok []
  | c :: rest =>
    if isSkipped c then tokensFrom (offset + c.utf8Size) rest
    else
      match scan c rest with
      | .error fault => .error ⟨fault, offset⟩
      | .ok lexeme =>
        let stop := offset + Text.byteLength (c :: rest.take lexeme.more)
        match tokensFrom stop (rest.drop lexeme.more) with
        | .error e => .error e
        | .ok tokens => .ok (⟨lexeme.token, ⟨offset, stop⟩⟩ :: tokens)
termination_by text.length

/-- The tokens of a source text. -/
def tokenize (source : List Char) : Except SyntaxError (List Spanned) :=
  tokensFrom 0 source

end ComponentMarkup.Lexer
