import ComponentMarkup.Text.Escape

/-!
# String literals

A text is written as a literal between single quotes, or between double quotes when that spares
escapes. Inside, the backslash, the quote, line breaks, tabs and control characters are escaped.
Reading a literal resolves the escapes it knows and keeps the others as they stand.
-/

namespace ComponentMarkup.Text

/-- Control characters: the first 32, delete, and the 32 after it. -/
def isControl (c : Char) : Bool :=
  c.toNat < 0x20 || (0x7F ≤ c.toNat && c.toNat < 0xA0)

/-! ## Writing -/

/-- Double quotes are chosen for a text with single quotes and no double ones. -/
def quoteFor (text : List Char) : Char :=
  if text.contains '\'' && !text.contains '"' then '"' else '\''

/-- A control character as `\x` and two hexadecimal digits. -/
def controlEscape (c : Char) : List Char :=
  ['\\', 'x'] ++ (if c.toNat < 0x10 then '0' :: hexDigits c.toNat else hexDigits c.toNat)

/-- A character as it is written in a literal with the given quotes. -/
def quoteChar (quote c : Char) : List Char :=
  if c = '\\' then ['\\', '\\']
  else if c = '\n' then ['\\', 'n']
  else if c = '\r' then ['\\', 'r']
  else if c = '\t' then ['\\', 't']
  else if c = quote then ['\\', c]
  else if isControl c then controlEscape c
  else [c]

def quoted (text : List Char) : List Char :=
  let quote := quoteFor text
  [quote] ++ text.flatMap (quoteChar quote) ++ [quote]

/-! ## Reading -/

def hexDigit? (c : Char) : Option Nat :=
  if '0' ≤ c ∧ c ≤ '9' then some (c.toNat - '0'.toNat)
  else if 'a' ≤ c ∧ c ≤ 'f' then some (c.toNat - 'a'.toNat + 10)
  else if 'A' ≤ c ∧ c ≤ 'F' then some (c.toNat - 'A'.toNat + 10)
  else none

/-- The number that hexadecimal digits denote, leading digit first. -/
def hexValue? (digits : List Char) : Option Nat :=
  digits.foldlM (fun n c => (hexDigit? c).map (16 * n + ·)) 0

/-- The number that the characters of an escape denote. A plus sign may stand in front of the
digits, and at least one digit is needed. -/
def escapeValue? : List Char → Option Nat
  | [] => none
  | '+' :: digits => if digits.isEmpty then none else hexValue? digits
  | digits => hexValue? digits

/-- The character that a numeric escape stands for. An escape that denotes no character is kept as
it is written. -/
def resolveEscape (kind : Char) (digits : List Char) : List Char :=
  match escapeValue? digits with
  | some n => if n.isValidChar then [Char.ofNat n] else '\\' :: kind :: digits
  | none => '\\' :: kind :: digits

/-- What the escapes of one character stand for. An escaped line break stands for nothing. -/
def simpleEscape? : Char → Option (List Char)
  | 'n' => some ['\n']
  | 't' => some ['\t']
  | 'r' => some ['\r']
  | '0' => some ['\x00']
  | '\\' => some ['\\']
  | '\'' => some ['\'']
  | '"' => some ['"']
  | '\n' => some []
  | _ => none

/-- The text that the body of a literal stands for. A numeric escape cut off by the end of the body
is kept as it is written, and so is a backslash before any other character. -/
def unescape : List Char → List Char
  | [] => []
  | c :: rest =>
    if c ≠ '\\' then c :: unescape rest
    else
      match rest with
      | [] => ['\\']
      | kind :: rest =>
        match simpleEscape? kind with
        | some text => text ++ unescape rest
        | none =>
          if kind = 'x' then
            match rest with
            | a :: b :: rest => resolveEscape kind [a, b] ++ unescape rest
            | short => '\\' :: kind :: short
          else if kind = 'u' then
            match rest with
            | a :: b :: c :: d :: rest => resolveEscape kind [a, b, c, d] ++ unescape rest
            | short => '\\' :: kind :: short
          else '\\' :: kind :: unescape rest

end ComponentMarkup.Text
