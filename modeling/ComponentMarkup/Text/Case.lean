import ComponentMarkup.Text.Alphabetic
import ComponentMarkup.Text.Cased
import ComponentMarkup.Text.CaseIgnorable
import ComponentMarkup.Text.Upper
import ComponentMarkup.Text.Lower

/-!
# Letter case of texts

Upper case is a matter of single characters. Lower case looks at the neighbours of a capital sigma,
which is written `ς` at the end of a word. Title case raises the first letter of every run of
letters and lowers the others, one by one.
-/

namespace ComponentMarkup.Text

def upper (text : List Char) : List Char :=
  text.flatMap upperChar

/-- The first character that is not case-ignorable belongs to a pair of cases. -/
def startsCased (text : List Char) : Bool :=
  match text.dropWhile isCaseIgnorable with
  | [] => false
  | c :: _ => isCased c

/-- Lower case of a text that follows `before`, whose own lower case is `lowered`. Both are given
backwards. -/
def lowerOnto (lowered before : List Char) : List Char → List Char
  | [] => lowered.reverse
  | c :: rest =>
    let chars :=
      if c = 'Σ' then [if startsCased before && !startsCased rest then 'ς' else 'σ']
      else lowerChar c
    lowerOnto (chars.reverseAux lowered) (c :: before) rest

def lower (text : List Char) : List Char :=
  lowerOnto [] [] text

/-- Title case of a text that follows one with the title case `titled`, which is given backwards;
`inWord` tells whether a letter stands right before. -/
def titleOnto (titled : List Char) (inWord : Bool) : List Char → List Char
  | [] => titled.reverse
  | c :: rest =>
    if isAlphabetic c then
      titleOnto ((if inWord then lowerChar c else upperChar c).reverseAux titled) true rest
    else titleOnto (c :: titled) false rest

def title (text : List Char) : List Char :=
  titleOnto [] false text

/-- The first character in upper case and the rest in lower case. -/
def capitalize : List Char → List Char
  | [] => []
  | c :: rest => upperChar c ++ lower rest

end ComponentMarkup.Text
