import ComponentMarkup.Text.GraphemeExtend
import ComponentMarkup.Text.Ignorable
import ComponentMarkup.Text.Invisible

/-!
# Texts shown in messages

A message shows a character or a text between quotes, with everything escaped that could not be seen
or would attach to the quote: the usual letters for tab, newline and the like, and `\u` with the
code point in braces for other characters that have no place of their own.
-/

namespace ComponentMarkup.Text

/-- The hexadecimal digits of a number, in lower case. -/
def hexDigits (n : Nat) : List Char :=
  Nat.toDigits 16 n

/-- The halfwidth sound marks extend the letter before them, but are drawn in cells of their own. -/
def isHalfwidthSoundMark (c : Char) : Bool :=
  c = '\uFF9E' || c = '\uFF9F'

/-- A character takes up no place of its own: nothing is drawn for it, or it is drawn as a part of
the character before it. -/
def isPlaceless (c : Char) : Bool :=
  isInvisible c || isIgnorable c || (isGraphemeExtend c && !isHalfwidthSoundMark c)

/-- A character as it stands inside the given quotes. -/
def escapeChar (quote c : Char) : List Char :=
  if c = '\x00' then ['\\', '0']
  else if c = '\t' then ['\\', 't']
  else if c = '\r' then ['\\', 'r']
  else if c = '\n' then ['\\', 'n']
  else if c = '\\' ∨ c = quote then ['\\', c]
  else if isPlaceless c then
    ['\\', 'u', '\x7b'] ++ hexDigits c.toNat ++ ['\x7d']
  else [c]

/-- A character between single quotes. -/
def showChar (c : Char) : List Char :=
  ['\''] ++ escapeChar '\'' c ++ ['\'']

/-- A text between double quotes. -/
def showText (text : List Char) : List Char :=
  ['"'] ++ text.flatMap (escapeChar '"') ++ ['"']

end ComponentMarkup.Text
