import ComponentMarkup.Proofs.Expr.Lexing
import ComponentMarkup.Proofs.Expr.Spelling

/-!
# Lexing written words

How the texts that a printer writes fall into tokens: names and keywords, marks, decimal integers,
floats and quoted strings. Each lemma puts one written word in front of a text whose tokens are known. A
word ends where the next character cannot continue it; `Stops` names the characters that printed
text puts there.
-/

namespace ComponentMarkup.Lexer

variable {c quote : Char} {rest word more text digits literal : List Char} {p : Char → Bool}
  {name : String} {tokens : List Token} {s : Symbol} {token : Token} {lexeme : Lexeme} {i : Int64}

/-! ## Where a word ends -/

/-- The characters that may follow a printed word. -/
def stops : List Char :=
  [' ', ',', ':', '(', ')', '[', ']', '\x7d', '=', '.']

/-- A text is empty or begins with a character that ends the word before it. -/
def Stops (rest : List Char) : Prop :=
  ∀ c ∈ rest.head?, c ∈ stops

theorem stops_nil : Stops [] := by
  simp [Stops]

theorem stops_cons (h : c ∈ stops) : Stops (c :: rest) := by
  simpa [Stops] using h

theorem isNamePart_of_mem_stops : ∀ c ∈ stops, isNamePart c = false := by
  intro c hc
  have hall : stops.all (fun c => !isNamePart c) = true := by decide
  simpa using List.all_eq_true.mp hall c hc

theorem isDigitPart_of_isNamePart (h : isNamePart c = false) : isDigitPart c = false := by
  have h : ((c.isAlpha || c.isDigit) || c = '_') = false := h
  simp only [Bool.or_eq_false_iff] at h
  simp [isDigitPart, h.1.2, h.2]

/-- What is in a class, then nothing of it. -/
theorem takeWhile_append_of_head (hword : ∀ c ∈ word, p c = true)
    (hrest : ∀ c ∈ rest.head?, p c = false) : (word ++ rest).takeWhile p = word := by
  rw [List.takeWhile_append_of_pos hword]
  cases rest with
  | nil => simp
  | cons c rest => simp [hrest c rfl]

theorem dropWhile_append_of_head (hword : ∀ c ∈ word, p c = true)
    (hrest : ∀ c ∈ rest.head?, p c = false) : (word ++ rest).dropWhile p = rest := by
  rw [List.dropWhile_append_of_pos hword]
  cases rest with
  | nil => simp
  | cons c rest => simp [hrest c rfl]

/-! ## Names and keywords -/

/-- A letter or underscore, then letters, digits and underscores. -/
def isWord : List Char → Bool
  | [] => false
  | c :: more => isNameStart c && more.all isNamePart

/-- The words that are names. -/
structure IsName (name : String) : Prop where
  word : isWord name.toList = true
  free : Symbol.ofWord? name = none

theorem IsName.head (h : IsName name) :
    ∃ c more, name.toList = c :: more ∧ isNameStart c = true := by
  have hword := h.word
  cases htext : name.toList with
  | nil => simp [htext, isWord] at hword
  | cons c more =>
    rw [htext, isWord, Bool.and_eq_true] at hword
    exact ⟨c, more, rfl, hword.1⟩

theorem IsName.isNamePart (h : IsName name) : ∀ c ∈ name.toList, Lexer.isNamePart c = true := by
  intro c hc
  have hword := h.word
  obtain ⟨first, more, htext, hfirst⟩ := h.head
  rw [htext, isWord, Bool.and_eq_true, List.all_eq_true] at hword
  rw [htext, List.mem_cons] at hc
  obtain rfl | hc := hc
  · rw [isNameStart, Bool.or_eq_true] at hfirst
    rw [Lexer.isNamePart, Char.isAlphanum]
    obtain h | h := hfirst <;> simp [h]
  · exact hword.2 c hc

/-- The token of a word. -/
def wordToken (word : String) : Token :=
  match Symbol.ofWord? word with
  | some symbol => .symbol symbol
  | none => .name word

theorem isSkipped_of_isNameStart (h : isNameStart c = true) : isSkipped c = false := by
  refine Bool.eq_false_iff.mpr fun hskip => ?_
  simp only [isSkipped, Bool.or_eq_true, decide_eq_true_eq] at hskip
  rcases hskip with (((rfl | rfl) | rfl) | rfl) | rfl <;> exact absurd h (by decide)

theorem scan_word {word : String} (htext : word.toList = c :: more)
    (hword : isWord word.toList = true) (hrest : Stops rest) :
    isNameStart c = true ∧ scan c (more ++ rest) = .ok ⟨wordToken word, more.length⟩ := by
  rw [htext, isWord, Bool.and_eq_true, List.all_eq_true] at hword
  obtain ⟨hc, hmore⟩ := hword
  have hend : ∀ d ∈ rest.head?, isNamePart d = false :=
    fun d hd => isNamePart_of_mem_stops d (hrest d hd)
  refine ⟨hc, ?_⟩
  unfold scan
  rw [if_pos hc, scanWord, takeWhile_append_of_head hmore hend, ← htext, String.ofList_toList]
  rfl

theorem lexes_word {word : String} (hword : isWord word.toList = true) (hrest : Stops rest)
    (h : Lexes rest tokens) : Lexes (word.toList ++ rest) (wordToken word :: tokens) := by
  cases htext : word.toList with
  | nil => simp [htext, isWord] at hword
  | cons c more =>
    obtain ⟨hc, hscan⟩ := scan_word htext hword hrest
    refine Lexes.token (isSkipped_of_isNameStart hc) hscan ?_
    rwa [List.drop_left]

theorem lexes_name (hname : IsName name) (hrest : Stops rest) (h : Lexes rest tokens) :
    Lexes (name.toList ++ rest) (.name name :: tokens) := by
  have hword := lexes_word hname.word hrest h
  rwa [wordToken, hname.free] at hword

/-- A name in front of a text is its first token. -/
theorem of_lexes_name (hname : IsName name) (hrest : Stops rest)
    (h : Lexes (name.toList ++ rest) tokens) :
    ∃ more, tokens = .name name :: more ∧ Lexes rest more := by
  obtain ⟨c, more, htext, -⟩ := hname.head
  obtain ⟨hc, hscan⟩ := scan_word htext hname.word hrest
  rw [wordToken, hname.free] at hscan
  rw [htext, List.cons_append] at h
  cases h with
  | skip hskip _ =>
    rw [isSkipped_of_isNameStart hc] at hskip
    cases hskip
  | token _ hscan' hmore =>
    rw [hscan] at hscan'
    cases hscan'
    rw [List.drop_left] at hmore
    exact ⟨_, rfl, hmore⟩

theorem isWord_keyword : ∀ s ∈ Symbol.keywords, isWord s.text.toList = true := by
  decide

theorem ofWord?_keyword : ∀ s ∈ Symbol.keywords, Symbol.ofWord? s.text = some s := by
  decide

theorem lexes_keyword (hs : s ∈ Symbol.keywords) (hrest : Stops rest) (h : Lexes rest tokens) :
    Lexes (s.text.toList ++ rest) (.symbol s :: tokens) := by
  have hword := lexes_word (isWord_keyword s hs) hrest h
  rwa [wordToken, ofWord?_keyword s hs] at hword

/-! ## Marks -/

/-- The marks that are read alike whatever follows them. -/
def marks : List (Char × Symbol) :=
  [('(', .lparen), (')', .rparen), ('[', .lbracket), (']', .rbracket), ('\x7b', .lbrace),
    ('\x7d', .rbrace), (',', .comma), (':', .colon), ('+', .plus), ('-', .minus), ('%', .percent)]

theorem lexes_blank (h : Lexes rest tokens) : Lexes (' ' :: rest) tokens :=
  Lexes.skip rfl h

theorem lexes_one (hskip : isSkipped c = false) (hscan : scan c rest = .ok ⟨token, 0⟩)
    (h : Lexes rest tokens) : Lexes (c :: rest) (token :: tokens) :=
  Lexes.token hskip hscan h

theorem lexes_two {d : Char} (hskip : isSkipped c = false)
    (hscan : scan c (d :: rest) = .ok ⟨token, 1⟩) (h : Lexes rest tokens) :
    Lexes (c :: d :: rest) (token :: tokens) :=
  Lexes.token hskip hscan h

theorem lexes_mark (hmark : (c, s) ∈ marks) (h : Lexes rest tokens) :
    Lexes (c :: rest) (.symbol s :: tokens) := by
  simp only [marks, List.mem_cons, Prod.mk.injEq, List.not_mem_nil, or_false] at hmark
  rcases hmark with ⟨rfl, rfl⟩ | ⟨rfl, rfl⟩ | ⟨rfl, rfl⟩ | ⟨rfl, rfl⟩ | ⟨rfl, rfl⟩ | ⟨rfl, rfl⟩ |
    ⟨rfl, rfl⟩ | ⟨rfl, rfl⟩ | ⟨rfl, rfl⟩ | ⟨rfl, rfl⟩ | ⟨rfl, rfl⟩ <;>
  exact lexes_one rfl rfl h

theorem isDigit_of_isNameStart (h : isNameStart c = true) : c.isDigit = false := by
  refine Bool.eq_false_iff.mpr fun hdigit => ?_
  have hdigit : (c.val ≥ 48 && c.val ≤ 57) = true := hdigit
  have h : ((decide (c.val ≥ 65 ∧ c.val ≤ 90) || (c.val ≥ 97 && c.val ≤ 122)) || c = '_') = true :=
    h
  simp only [Bool.or_eq_true, Bool.and_eq_true, decide_eq_true_eq] at h hdigit
  rcases h with h | rfl
  · simp only [UInt32.le_iff_toNat_le, ge_iff_le, UInt32.reduceToNat] at h hdigit
    omega
  · exact absurd hdigit (by decide)

/-- A point before a name is a mark, not the start of a number. -/
theorem lexes_dot (hname : IsName name) (h : Lexes (name.toList ++ rest) tokens) :
    Lexes ('.' :: (name.toList ++ rest)) (.symbol .dot :: tokens) := by
  obtain ⟨c, more, htext, hstart⟩ := hname.head
  rw [htext] at h ⊢
  refine lexes_one rfl ?_ h
  change (if c.isDigit then scanFraction c (more ++ rest) else .ok ⟨.symbol .dot, 0⟩) = _
  rw [if_neg (by simp [isDigit_of_isNameStart hstart])]

/-- Symbols that begin with none of the characters of other tokens. -/
theorem scan_of_scanSymbol? (hstart : isNameStart c = false) (hdigit : c.isDigit = false)
    (hquote : c ≠ '"' ∧ c ≠ '\'') (hdot : c ≠ '.') (h : scanSymbol? c rest = some lexeme) :
    scan c rest = .ok lexeme := by
  unfold scan
  simp only [hstart, hdigit, hquote, Bool.false_eq_true, if_false, decide_false, Bool.or_self]
  split
  · exact absurd rfl hdot
  · rw [h]

theorem lexes_star (hrest : rest.head? ≠ some '*') (h : Lexes rest tokens) :
    Lexes ('*' :: rest) (.symbol .star :: tokens) := by
  have hscan : scan '*' rest = .ok ⟨.symbol .star, 0⟩ :=
    scan_of_scanSymbol? rfl rfl (by decide) (by decide) (by simp [scanSymbol?, hrest])
  exact lexes_one rfl hscan h

theorem lexes_doubleStar (h : Lexes rest tokens) :
    Lexes ('*' :: '*' :: rest) (.symbol .doubleStar :: tokens) :=
  lexes_two rfl rfl h

theorem lexes_assign (hrest : rest.head? ≠ some '=') (h : Lexes rest tokens) :
    Lexes ('=' :: rest) (.symbol .assign :: tokens) := by
  have hscan : scan '=' rest = .ok ⟨.symbol .assign, 0⟩ :=
    scan_of_scanSymbol? rfl rfl (by decide) (by decide) (by simp [scanSymbol?, hrest])
  exact lexes_one rfl hscan h

/-! ## Operators before a blank -/

theorem lexes_binaryOp (op : BinaryOp) (h : Lexes rest tokens) :
    Lexes (op.text.toList ++ ' ' :: rest) (.symbol op.symbol :: tokens) := by
  cases op with
  | add | sub | mul | div | mod => exact lexes_one rfl rfl (lexes_blank h)
  | floorDiv | pow => exact lexes_two rfl rfl (lexes_blank h)

theorem lexes_boolOp (op : BoolOp) (h : Lexes rest tokens) :
    Lexes (op.text.toList ++ ' ' :: rest) (.symbol op.symbol :: tokens) := by
  have hstop : Stops (' ' :: rest) := stops_cons (by decide)
  cases op with
  | and => exact lexes_keyword (s := .and) (by decide) hstop (lexes_blank h)
  | or => exact lexes_keyword (s := .or) (by decide) hstop (lexes_blank h)

theorem lexes_compareOp (op : CompareOp) (h : Lexes rest tokens) :
    Lexes (op.text.toList ++ ' ' :: rest) (op.symbols.map .symbol ++ tokens) := by
  have hstop : ∀ text, Stops (' ' :: text) := fun text => stops_cons (by decide)
  cases op with
  | eq | ne | le | ge => exact lexes_two rfl rfl (lexes_blank h)
  | lt | gt => exact lexes_one rfl rfl (lexes_blank h)
  | mem => exact lexes_keyword (s := .in) (by decide) (hstop _) (lexes_blank h)
  | is => exact lexes_keyword (s := .is) (by decide) (hstop _) (lexes_blank h)
  | notMem =>
    have hin := lexes_keyword (s := .in) (by decide) (hstop _) (lexes_blank h)
    exact lexes_keyword (s := .not) (by decide) (hstop _) (lexes_blank hin)
  | isNot =>
    have hnot := lexes_keyword (s := .not) (by decide) (hstop _) (lexes_blank h)
    exact lexes_keyword (s := .is) (by decide) (hstop _) (lexes_blank hnot)

/-! ## Integers -/

theorem isSkipped_of_isDigit (h : c.isDigit = true) : isSkipped c = false := by
  refine Bool.eq_false_iff.mpr fun hskip => ?_
  simp only [isSkipped, Bool.or_eq_true, decide_eq_true_eq] at hskip
  rcases hskip with (((rfl | rfl) | rfl) | rfl) | rfl <;> exact absurd h (by decide)

theorem isNameStart_of_isDigit (h : c.isDigit = true) : isNameStart c = false := by
  refine Bool.eq_false_iff.mpr fun hstart => ?_
  rw [isDigit_of_isNameStart hstart] at h
  exact absurd h (by decide)

theorem ungroup_of_not_mem (h : '_' ∉ text) : ungroup text = text := by
  refine List.filter_eq_self.mpr fun c hc => ?_
  simp only [decide_eq_true_eq]
  rintro rfl
  exact h hc

theorem underscore_not_mem (h : ∀ c ∈ digits, c.isDigit = true) : '_' ∉ digits :=
  fun hmem => absurd (h '_' hmem) (by decide)

theorem hexDigitsAfter_of_head (h : ∀ d ∈ rest.head?, d ≠ 'x' ∧ d ≠ 'X') :
    hexDigitsAfter c rest = [] := by
  cases rest with
  | nil => rfl
  | cons d rest => simp [hexDigitsAfter, h d rfl]

theorem exponentPart_of_head (h : ∀ d ∈ rest.head?, d ≠ 'e' ∧ d ≠ 'E') :
    exponentPart rest = [] := by
  cases rest with
  | nil => rfl
  | cons d rest => simp [exponentPart, h d rfl]

/-- Decimal digits are not taken for the mark of a hexadecimal number. -/
theorem hexDigitsAfter_digits (hmore : ∀ d ∈ more, d.isDigit = true)
    (hrest : ∀ d ∈ rest.head?, isNamePart d = false) : hexDigitsAfter c (more ++ rest) = [] := by
  refine hexDigitsAfter_of_head fun d hd => ?_
  cases more with
  | nil =>
    have hstop := hrest d hd
    constructor <;> rintro rfl <;> exact absurd hstop (by decide)
  | cons e more =>
    cases hd
    have hdigit := hmore d (by simp)
    constructor <;> rintro rfl <;> exact absurd hdigit (by decide)

theorem Stops.exponentPart {rest : List Char} (h : Stops rest) : exponentPart rest = [] := by
  refine exponentPart_of_head fun d hd => ?_
  have hstop := isNamePart_of_mem_stops d (h d hd)
  constructor <;> rintro rfl <;> exact absurd hstop (by decide)

theorem Stops.isDigitPart {rest : List Char} (h : Stops rest) :
    ∀ d ∈ rest.head?, isDigitPart d = false :=
  fun d hd => isDigitPart_of_isNamePart (isNamePart_of_mem_stops d (h d hd))

theorem isDigitPart_of_isDigit (h : ∀ d ∈ digits, d.isDigit = true) :
    ∀ d ∈ digits, isDigitPart d = true := by
  intro d hd
  simp [isDigitPart, h d hd]

/-- What follows an integer must not make it a float. -/
theorem scanNumber_digits (hdigits : ∀ d ∈ c :: more, d.isDigit = true) (hrest : Stops rest)
    (hdot : rest.head? ≠ some '.') :
    scanNumber c (more ++ rest) =
      numberLexeme (c :: more) (intToken? (Decimal.digitsValue (c :: more))) := by
  have hmore : ∀ d ∈ more, d.isDigit = true := fun d hd => hdigits d (List.mem_cons_of_mem c hd)
  have hpart := isDigitPart_of_isDigit hmore
  have hend := hrest.isDigitPart
  have hhex : hexDigitsAfter c (more ++ rest) = [] :=
    hexDigitsAfter_digits hmore fun d hd => isNamePart_of_mem_stops d (hrest d hd)
  simp only [scanNumber, hhex, List.isEmpty_nil, if_true, takeWhile_append_of_head hpart hend,
    dropWhile_append_of_head hpart hend, ungroup_of_not_mem (underscore_not_mem hdigits)]
  split
  · simp at hdot
  · simp [hrest.exponentPart]

theorem toList_toString_int (hi : 0 ≤ i.toInt) :
    (toString i.toInt).toList = Nat.toDigits 10 i.toInt.toNat := by
  obtain ⟨n, hn⟩ := Int.eq_ofNat_of_zero_le hi
  rw [hn]
  exact Nat.toList_repr

theorem intToken?_toNat (hi : 0 ≤ i.toInt) : intToken? i.toInt.toNat = some (.int i) := by
  have hlt := i.toInt_lt
  rw [intToken?, Int.toNat_of_nonneg hi, integer?, if_pos (by simp only [integerBound]; omega),
    Int64.ofInt_toInt, Option.map_some]

/-- A written integer is read back, unless a point follows it. -/
theorem lexes_int (hi : 0 ≤ i.toInt) (hrest : Stops rest) (hdot : rest.head? ≠ some '.')
    (h : Lexes rest tokens) : Lexes ((toString i.toInt).toList ++ rest) (.int i :: tokens) := by
  rw [toList_toString_int hi]
  have hvalue : Decimal.digitsValue (Nat.toDigits 10 i.toInt.toNat) = i.toInt.toNat :=
    Nat.ofDigitChars_ten_toDigits
  have hdigits : ∀ d ∈ Nat.toDigits 10 i.toInt.toNat, d.isDigit = true :=
    fun d hd => Nat.isDigit_of_mem_toDigits (by decide) (by decide) hd
  cases htext : Nat.toDigits 10 i.toInt.toNat with
  | nil => exact absurd htext Nat.toDigits_ne_nil
  | cons c more =>
    rw [htext] at hdigits hvalue
    have hc : c.isDigit = true := hdigits c (by simp)
    have hscan : scan c (more ++ rest) = .ok ⟨.int i, more.length⟩ := by
      unfold scan
      rw [if_neg (by simp [isNameStart_of_isDigit hc]), if_pos hc,
        scanNumber_digits hdigits hrest hdot, hvalue, intToken?_toNat hi]
      rfl
    refine Lexes.token (isSkipped_of_isDigit hc) hscan ?_
    rwa [List.drop_left]

/-! ## Floats -/

/-- A double is written as digits with a point, and its text denotes it. -/
def IsFloat (x : Float) : Prop :=
  ∃ whole fraction : List Char, whole ≠ [] ∧ (∀ c ∈ whole ++ fraction, c.isDigit = true) ∧
    (Decimal.marked x).toList = whole ++ '.' :: fraction ∧
      Decimal.read? (Decimal.marked x).toList = some x

/-- Digits with a point are one literal. -/
theorem scanNumber_float {fraction : List Char}
    (hdigits : ∀ d ∈ c :: more ++ fraction, d.isDigit = true) (hrest : Stops rest) :
    scanNumber c (more ++ '.' :: (fraction ++ rest)) =
      numberLexeme (c :: more ++ '.' :: fraction)
        ((Decimal.read? (c :: more ++ '.' :: fraction)).map .float) := by
  have hmore : ∀ d ∈ more, d.isDigit = true := fun d hd => hdigits d (by simp [hd])
  have hfraction : ∀ d ∈ fraction, d.isDigit = true := fun d hd => hdigits d (by simp [hd])
  have hpoint : ∀ d ∈ ('.' :: (fraction ++ rest)).head?, isDigitPart d = false := by simp [isDigitPart]
  have hhex : hexDigitsAfter c (more ++ '.' :: (fraction ++ rest)) = [] :=
    hexDigitsAfter_digits hmore (by simp [isNamePart])
  have hungroup : ungroup (c :: more ++ '.' :: fraction) = c :: more ++ '.' :: fraction := by
    have hfree := underscore_not_mem hdigits
    exact ungroup_of_not_mem (by simpa using hfree)
  simp only [scanNumber, hhex, List.isEmpty_nil, if_true,
    takeWhile_append_of_head (isDigitPart_of_isDigit hmore) hpoint,
    dropWhile_append_of_head (isDigitPart_of_isDigit hmore) hpoint,
    takeWhile_append_of_head (isDigitPart_of_isDigit hfraction) hrest.isDigitPart,
    dropWhile_append_of_head (isDigitPart_of_isDigit hfraction) hrest.isDigitPart,
    hrest.exponentPart, List.append_nil, floatLexeme, hungroup]

theorem lexes_float {x : Float} (hx : IsFloat x) (hrest : Stops rest) (h : Lexes rest tokens) :
    Lexes ((Decimal.marked x).toList ++ rest) (.float x :: tokens) := by
  obtain ⟨whole, fraction, hwhole, hdigits, htext, hread⟩ := hx
  rw [htext] at hread ⊢
  cases whole with
  | nil => exact absurd rfl hwhole
  | cons c more =>
    have hc : c.isDigit = true := hdigits c (by simp)
    have hscan : scan c (more ++ '.' :: (fraction ++ rest)) =
        .ok ⟨.float x, (more ++ '.' :: fraction).length⟩ := by
      unfold scan
      rw [if_neg (by simp [isNameStart_of_isDigit hc]), if_pos hc, scanNumber_float hdigits hrest, hread]
      rfl
    rw [List.append_assoc, List.cons_append, List.cons_append]
    refine Lexes.token (isSkipped_of_isDigit hc) hscan ?_
    rw [← List.cons_append, ← List.append_assoc]
    rwa [List.drop_left]

/-! ## Strings -/

/-- The characters that delimit a literal. -/
def quotes : List Char :=
  ['"', '\'']

theorem quoteFor_mem_quotes (text : List Char) : Text.quoteFor text ∈ quotes := by
  unfold Text.quoteFor
  split <;> decide

/-- The two digits in the escape of a control character. -/
def controlDigits (n : Nat) : List Char :=
  if n < 0x10 then '0' :: Text.hexDigits n else Text.hexDigits n

theorem controlDigits_spec : ∀ n < 0xA0, (controlDigits n).length = 2 ∧
    Text.escapeValue? (controlDigits n) = some n ∧
    (controlDigits n).all isNamePart = true := by
  decide +kernel

/-- The escape of a control character denotes it, and has letters and digits after the backslash. -/
theorem controlEscape_eq (hc : Text.isControl c = true) : ∃ a b,
    Text.controlEscape c = ['\\', 'x', a, b] ∧ Text.escapeValue? [a, b] = some c.toNat ∧
    isNamePart a = true ∧ isNamePart b = true := by
  have hlt : c.toNat < 0xA0 := by
    simp only [Text.isControl, Bool.or_eq_true, Bool.and_eq_true, decide_eq_true_eq] at hc
    omega
  obtain ⟨hlen, hvalue, hpart⟩ := controlDigits_spec c.toNat hlt
  have hescape : Text.controlEscape c = ['\\', 'x'] ++ controlDigits c.toNat := rfl
  match hdigits : controlDigits c.toNat, hlen with
  | [a, b], _ =>
    rw [hdigits] at hvalue hpart hescape
    simp only [List.all_cons, List.all_nil, Bool.and_true, Bool.and_eq_true] at hpart
    exact ⟨a, b, hescape, hvalue, hpart.1, hpart.2⟩

/-- A character is written as it is, as a backslash and one letter, or by its number. -/
inductive QuotedAs (quote c : Char) : List Char → Prop where
  | plain : c ≠ quote → c ≠ '\n' → c ≠ '\\' → QuotedAs quote c [c]
  | escaped {d : Char} : d ≠ '\n' → Text.simpleEscape? d = some [c] → QuotedAs quote c ['\\', d]
  | control {a b : Char} : isNamePart a = true → isNamePart b = true →
      Text.escapeValue? [a, b] = some c.toNat → QuotedAs quote c ['\\', 'x', a, b]

theorem quotedAs_quoteChar (hquote : quote ∈ quotes) (c : Char) :
    QuotedAs quote c (Text.quoteChar quote c) := by
  unfold Text.quoteChar
  split
  · next hc =>
    subst hc
    exact QuotedAs.escaped (d := '\\') (by decide) rfl
  split
  · next hc =>
    subst hc
    exact QuotedAs.escaped (d := 'n') (by decide) rfl
  split
  · next hc =>
    subst hc
    exact QuotedAs.escaped (d := 'r') (by decide) rfl
  split
  · next hc =>
    subst hc
    exact QuotedAs.escaped (d := 't') (by decide) rfl
  split
  · next hc =>
    subst hc
    simp only [quotes, List.mem_cons, List.not_mem_nil, or_false] at hquote
    rcases hquote with rfl | rfl
    · exact QuotedAs.escaped (d := '"') (by decide) rfl
    · exact QuotedAs.escaped (d := '\'') (by decide) rfl
  split
  · next hc =>
    obtain ⟨a, b, hescape, hvalue, ha, hb⟩ := controlEscape_eq hc
    rw [hescape]
    exact QuotedAs.control ha hb hvalue
  · next hback hline _ _ hne _ => exact QuotedAs.plain hne hline hback

theorem isSkipped_of_mem_quotes (h : quote ∈ quotes) : isSkipped quote = false := by
  have hall : quotes.all (fun c => !isSkipped c) = true := by decide
  simpa using List.all_eq_true.mp hall quote h

theorem not_mem_stops_of_mem_quotes (h : quote ∈ quotes) : quote ∉ stops := by
  have hall : quotes.all (fun c => !stops.contains c) = true := by decide
  simpa using List.all_eq_true.mp hall quote h

theorem scan_quote (hquote : quote ∈ quotes) (rest : List Char) :
    scan quote rest = scanString quote rest := by
  simp only [quotes, List.mem_cons, List.not_mem_nil, or_false] at hquote
  rcases hquote with rfl | rfl <;> rfl

theorem ne_of_mem_quotes (hquote : quote ∈ quotes) (hc : isNamePart c = true) :
    c ≠ quote ∧ c ≠ '\n' ∧ c ≠ '\\' := by
  simp only [quotes, List.mem_cons, List.not_mem_nil, or_false] at hquote
  refine ⟨?_, ?_, ?_⟩
  · rintro rfl
    rcases hquote with rfl | rfl <;> exact absurd hc (by decide)
  · rintro rfl
    exact absurd hc (by decide)
  · rintro rfl
    exact absurd hc (by decide)

theorem lineBody?_cons (hne : c ≠ quote ∧ c ≠ '\n' ∧ c ≠ '\\') (rest : List Char) :
    lineBody? quote (c :: rest) = (lineBody? quote rest).map (c :: ·) := by
  rw [lineBody?.eq_def]
  simp [hne]

theorem lineBody?_escape (hquote : '\\' ≠ quote) (hc : c ≠ '\n') (rest : List Char) :
    lineBody? quote ('\\' :: c :: rest) = (lineBody? quote rest).map ('\\' :: c :: ·) := by
  rw [lineBody?.eq_def]
  simp [hquote, hc]

/-- Reading the body of a literal passes over a written character as a whole. -/
theorem lineBody?_quotedAs (hquote : quote ∈ quotes) (htext : QuotedAs quote c text)
    (rest : List Char) :
    lineBody? quote (text ++ rest) = (lineBody? quote rest).map (text ++ ·) := by
  have hback : '\\' ≠ quote := by
    rintro rfl
    exact absurd hquote (by decide)
  cases htext with
  | plain hne hline hc => exact lineBody?_cons ⟨hne, hline, hc⟩ rest
  | escaped hline _ => exact lineBody?_escape hback hline rest
  | @control a b ha hb _ =>
    calc lineBody? quote ('\\' :: 'x' :: a :: b :: rest)
        = ((lineBody? quote (b :: rest)).map (a :: ·)).map ('\\' :: 'x' :: ·) := by
          rw [lineBody?_escape hback (by decide), lineBody?_cons (ne_of_mem_quotes hquote ha)]
      _ = (lineBody? quote rest).map ('\\' :: 'x' :: a :: b :: ·) := by
          rw [lineBody?_cons (ne_of_mem_quotes hquote hb), Option.map_map, Option.map_map]
          rfl

theorem lineBody?_quoted (hquote : quote ∈ quotes) (text rest : List Char) :
    lineBody? quote (text.flatMap (Text.quoteChar quote) ++ quote :: rest) =
      some (text.flatMap (Text.quoteChar quote)) := by
  induction text with
  | nil =>
    rw [List.flatMap_nil, List.nil_append, lineBody?.eq_def]
    simp
  | cons c text ih =>
    rw [List.flatMap_cons, List.append_assoc,
      lineBody?_quotedAs hquote (quotedAs_quoteChar hquote c), ih, Option.map_some]

theorem unescape_quotedAs (htext : QuotedAs quote c text) (rest : List Char) :
    Text.unescape (text ++ rest) = c :: Text.unescape rest := by
  cases htext with
  | plain _ _ hc =>
    rw [List.cons_append, List.nil_append, Text.unescape.eq_def]
    simp [hc]
  | @escaped d _ hd =>
    rw [List.cons_append, List.cons_append, List.nil_append, Text.unescape.eq_def]
    simp [hd]
  | @control a b _ _ hvalue =>
    have hvalid : c.toNat.isValidChar := c.valid
    have hresolve : Text.resolveEscape 'x' [a, b] = [c] := by
      simp [Text.resolveEscape, hvalue, hvalid]
    simp [Text.unescape, Text.simpleEscape?, hresolve]

theorem unescape_quoted (hquote : quote ∈ quotes) (text : List Char) :
    Text.unescape (text.flatMap (Text.quoteChar quote)) = text := by
  induction text with
  | nil => rfl
  | cons c text ih =>
    rw [List.flatMap_cons, unescape_quotedAs (quotedAs_quoteChar hquote c), ih]

theorem head?_quotedAs (hquote : quote ∈ quotes) (htext : QuotedAs quote c text)
    (rest : List Char) : (text ++ rest).head? ≠ some quote := by
  have hback : '\\' ≠ quote := by
    rintro rfl
    exact absurd hquote (by decide)
  cases htext with
  | plain hne _ _ => simpa using hne
  | escaped _ _ => simpa using hback
  | control _ _ _ => simpa using hback

/-- A written literal is read back, whatever ends it. -/
theorem lexes_quoted (text : String) (hrest : Stops rest) (h : Lexes rest tokens) :
    Lexes (Text.quoted text.toList ++ rest) (.str text :: tokens) := by
  let quote := Text.quoteFor text.toList
  let body := text.toList.flatMap (Text.quoteChar quote)
  have hquote : quote ∈ quotes := quoteFor_mem_quotes _
  have hopen : [quote, quote].isPrefixOf (body ++ quote :: rest) = false := by
    refine Bool.eq_false_iff.mpr fun hpre => ?_
    obtain ⟨after, hafter⟩ := List.isPrefixOf_iff_prefix.mp hpre
    cases htext : text.toList with
    | nil =>
      have hbody : body = [] := by simp [body, htext]
      rw [hbody, List.nil_append, List.cons_append, List.cons.injEq] at hafter
      have hhead : quote ∈ rest.head? := by
        rw [← hafter.2]
        rfl
      exact absurd (hrest quote hhead) (not_mem_stops_of_mem_quotes hquote)
    | cons c more =>
      have hbody : body = Text.quoteChar quote c ++ more.flatMap (Text.quoteChar quote) := by
        simp [body, htext]
      refine head?_quotedAs hquote (quotedAs_quoteChar hquote c)
        (more.flatMap (Text.quoteChar quote) ++ quote :: rest) ?_
      rw [← List.append_assoc, ← hbody, ← hafter]
      rfl
  have hscan : scan quote (body ++ quote :: rest) = .ok ⟨.str text, body.length + 1⟩ := by
    rw [scan_quote hquote, scanString, hopen, if_neg (by decide), lineBody?_quoted hquote]
    simp only [unescape_quoted hquote, String.ofList_toList]
    rfl
  have htext : Text.quoted text.toList ++ rest = quote :: (body ++ quote :: rest) := by
    simp [Text.quoted, quote, body]
  rw [htext]
  refine Lexes.token (isSkipped_of_mem_quotes hquote) hscan ?_
  simpa using h

/-! ## Which tokens are read -/

/-- Names are words that are not keywords, and integers have no sign. -/
def IsRead : Token → Prop
  | .name name => IsName name
  | .int i => 0 ≤ i.toInt
  | _ => True

theorem isRead_scanWord (hc : isNameStart c = true) (rest : List Char) :
    IsRead (scanWord c rest).token := by
  unfold scanWord
  dsimp only
  split
  · trivial
  · next hfree =>
    refine ⟨?_, hfree⟩
    rw [String.toList_ofList, isWord, hc, Bool.true_and, List.all_eq_true]
    exact fun d hd => List.all_eq_true.mp List.all_takeWhile d hd

theorem numberLexeme_token {token : Option Token} (h : numberLexeme literal token = .ok lexeme) :
    token = some lexeme.token := by
  cases token with
  | none => cases h
  | some token =>
    cases h
    rfl

theorem isRead_intToken? {n : Nat} (h : intToken? n = some token) : IsRead token := by
  unfold intToken? integer? at h
  split at h
  · next hrange =>
    cases h
    simp only [integerBound] at hrange
    have hbmod : (Int64.ofInt n).toInt = n := by
      rw [Int64.toInt_ofInt]
      exact Int.bmod_eq_of_le (by simp [Int64.size]) (by simp [Int64.size]; omega)
    simp only [IsRead, hbmod]
    omega
  · cases h

theorem isRead_floatLexeme (h : floatLexeme literal = .ok lexeme) : IsRead lexeme.token := by
  have htoken := numberLexeme_token h
  cases hread : Decimal.read? (ungroup literal) with
  | none => simp [hread] at htoken
  | some x =>
    rw [hread, Option.map_some, Option.some.injEq] at htoken
    rw [← htoken]
    trivial

theorem isRead_scanNumber (h : scanNumber c rest = .ok lexeme) : IsRead lexeme.token := by
  unfold scanNumber at h
  dsimp only at h
  split at h
  · split at h
    · exact isRead_floatLexeme h
    · split at h
      · exact isRead_intToken? (numberLexeme_token h)
      · exact isRead_floatLexeme h
  · have htoken := numberLexeme_token h
    split at htoken
    · cases htoken
    · obtain ⟨n, -, hn⟩ := Option.bind_eq_some_iff.mp htoken
      exact isRead_intToken? hn

theorem isRead_scanString (h : scanString quote rest = .ok lexeme) : IsRead lexeme.token := by
  unfold scanString at h
  dsimp only at h
  split at h <;> split at h <;> cases h <;> trivial

theorem isRead_scanSymbol? (h : scanSymbol? c rest = some lexeme) : IsRead lexeme.token := by
  unfold scanSymbol? at h
  dsimp only at h
  repeat' split at h
  all_goals cases h
  all_goals trivial

theorem isRead_scan (h : scan c rest = .ok lexeme) : IsRead lexeme.token := by
  unfold scan at h
  split at h
  · next hc =>
    cases h
    exact isRead_scanWord hc rest
  split at h
  · exact isRead_scanNumber h
  split at h
  · exact isRead_scanString h
  split at h
  · split at h
    · exact isRead_floatLexeme h
    · cases h
      trivial
  · split at h
    · next hsymbol =>
      cases h
      exact isRead_scanSymbol? hsymbol
    · cases h

theorem isRead_of_lexes (h : Lexes text tokens) : ∀ t ∈ tokens, IsRead t := by
  induction h with
  | nil => simp
  | skip _ _ ih => exact ih
  | token _ hscan _ ih => exact List.forall_mem_cons.mpr ⟨isRead_scan hscan, ih⟩

end ComponentMarkup.Lexer
