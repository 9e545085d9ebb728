import ComponentMarkup.Proofs.Expr.Lexemes
import ComponentMarkup.Proofs.Markup.Grammar

/-!
# What a token covers

Markup looks into an expression as far as string literals and brackets. The lexer sees the same: a
token that begins with any other character covers no bracket and no quote, a bracket is a token of its
own, and a string literal of the markup is a single token, if it is read at all.
-/

namespace ComponentMarkup.Lexer

variable {c : Char} {text word : List Char} {p : Char → Bool}

/-! ## Plain text -/

/-- Text without brackets and quotes. -/
def Plain (text : List Char) : Prop :=
  ∀ c ∈ text, Reader.isMark c = false

theorem plain_nil : Plain [] := by
  intro c hc
  cases hc

theorem plain_cons : Plain (c :: text) ↔ Reader.isMark c = false ∧ Plain text := by
  simp only [Plain, List.mem_cons, or_imp, forall_and, forall_eq]

theorem plain_append {more : List Char} : Plain (text ++ more) ↔ Plain text ∧ Plain more := by
  simp only [Plain, List.mem_append, or_imp, forall_and]

/-- A text begins with a plain one. -/
def Begins (word text : List Char) : Prop :=
  word <+: text ∧ Plain word

theorem begins_nil (text : List Char) : Begins [] text :=
  ⟨List.nil_prefix, plain_nil⟩

theorem begins_cons {rest : List Char} (hc : Reader.isMark c = false) (h : Begins word rest) :
    Begins (c :: word) (c :: rest) :=
  ⟨List.cons_prefix_cons.mpr ⟨rfl, h.1⟩, plain_cons.mpr ⟨hc, h.2⟩⟩

/-- The characters that are marks. -/
def markChars : List Char :=
  [')', '\x7d', ']', '(', '\x7b', '[', '"', '\'']

theorem mem_markChars (h : Reader.isMark c = true) : c ∈ markChars := by
  simpa [Reader.isMark, Reader.isCloser, markChars, or_assoc] using h

/-- A class of characters without marks. -/
def MarkFree (p : Char → Bool) : Prop :=
  markChars.all (fun c => !p c) = true

theorem isMark_of_markFree (hp : MarkFree p) (h : p c = true) : Reader.isMark c = false := by
  refine Bool.eq_false_iff.mpr fun hmark => ?_
  have hnot := List.all_eq_true.mp hp c (mem_markChars hmark)
  rw [h] at hnot
  cases hnot

/-- The characters of a class, then a plain text. -/
theorem begins_takeWhile (hp : MarkFree p) (h : Begins word (text.dropWhile p)) :
    Begins (text.takeWhile p ++ word) text := by
  constructor
  · have hsplit : text.takeWhile p ++ text.dropWhile p = text := List.takeWhile_append_dropWhile
    have hbegins := (List.prefix_append_right_inj (text.takeWhile p)).mpr h.1
    rwa [hsplit] at hbegins
  · refine plain_append.mpr ⟨?_, h.2⟩
    intro c hc
    exact isMark_of_markFree hp (List.all_eq_true.mp List.all_takeWhile c hc)

theorem begins_class (hp : MarkFree p) (text : List Char) : Begins (text.takeWhile p) text := by
  have h := begins_takeWhile hp (begins_nil (text.dropWhile p))
  rwa [List.append_nil] at h

theorem markFree_isNamePart : MarkFree isNamePart := by
  unfold MarkFree
  decide

theorem markFree_isDigitPart : MarkFree isDigitPart := by
  unfold MarkFree
  decide

theorem markFree_isDigit : MarkFree Char.isDigit := by
  unfold MarkFree
  decide

/-! ## Brackets as tokens -/

end ComponentMarkup.Lexer

namespace ComponentMarkup

/-- The symbols of brackets, each with its counterpart. -/
def Symbol.brackets : List (Symbol × Symbol) :=
  [(.lparen, .rparen), (.lbracket, .rbracket), (.lbrace, .rbrace)]

/-- A token is an opening or a closing bracket. -/
def Token.isBracket : Token → Bool
  | .symbol s => Symbol.brackets.any fun (opening, closing) => s == opening || s == closing
  | _ => false

end ComponentMarkup

namespace ComponentMarkup.Lexer

variable {c quote : Char} {rest word body t : List Char} {lexeme : Lexeme} {s : Symbol}
  {tokens : List Token}

/-! ## Numbers -/

theorem begins_exponentPart (text : List Char) : Begins (exponentPart text) text := by
  unfold exponentPart
  split
  · rename_i mark rest
    split
    · rename_i hmark
      have hmark : Reader.isMark mark = false := by rcases hmark with rfl | rfl <;> rfl
      split
      · rename_i sign digits
        split
        · rename_i hsign
          have hsign : Reader.isMark sign = false := by rcases hsign with rfl | rfl <;> rfl
          dsimp only
          split
          · exact begins_nil _
          · exact begins_cons hmark (begins_cons hsign (begins_class markFree_isDigit digits))
        · dsimp only
          split
          · exact begins_nil _
          · exact begins_cons hmark (begins_class markFree_isDigit _)
      · exact begins_nil _
    · exact begins_nil _
  · exact begins_nil _

theorem begins_hexDigitsAfter (h : hexDigitsAfter c rest ≠ []) :
    Begins (rest.take 1 ++ hexDigitsAfter c rest) rest := by
  cases rest with
  | nil => exact absurd rfl h
  | cons mark digits =>
    by_cases hmark : c = '0' ∧ (mark = 'x' ∨ mark = 'X')
    · rw [hexDigitsAfter, if_pos hmark]
      refine begins_cons ?_ (begins_class (by unfold MarkFree; decide) digits)
      rcases hmark.2 with rfl | rfl <;> rfl
    · rw [hexDigitsAfter, if_neg hmark] at h
      exact absurd rfl h

/-- The characters after `c` that a token covers are plain. The token is no bracket, and a name is
what it covers. -/
def CoversPlain (c : Char) (rest : List Char) (lexeme : Lexeme) : Prop :=
  ∃ word, Begins word rest ∧ word.length = lexeme.more ∧ lexeme.token.isBracket = false ∧
    ∀ n, lexeme.token = .name n → n.toList = c :: word

/-- The tokens of numbers. -/
def IsNumber : Token → Prop
  | .int _ => True
  | .float _ => True
  | _ => False

theorem coversPlain_of_numberLexeme {token : Option Token}
    (h : numberLexeme (c :: word) token = .ok lexeme) (htoken : ∀ t, token = some t → IsNumber t)
    (hword : Begins word rest) : CoversPlain c rest lexeme := by
  cases token with
  | none => cases h
  | some token =>
    cases h
    have hnumber := htoken token rfl
    refine ⟨word, hword, rfl, ?_, ?_⟩
    · cases token <;> first | rfl | cases hnumber
    · rintro n rfl
      cases hnumber

theorem isNumber_intToken? {value : Nat} : ∀ t, intToken? value = some t → IsNumber t := by
  intro t ht
  obtain ⟨i, -, rfl⟩ := Option.map_eq_some_iff.mp ht
  trivial

theorem coversPlain_of_floatLexeme (h : floatLexeme (c :: word) = .ok lexeme)
    (hword : Begins word rest) : CoversPlain c rest lexeme := by
  refine coversPlain_of_numberLexeme h ?_ hword
  intro t ht
  obtain ⟨x, -, rfl⟩ := Option.map_eq_some_iff.mp ht
  trivial

theorem coversPlain_scanNumber (h : scanNumber c rest = .ok lexeme) :
    CoversPlain c rest lexeme := by
  unfold scanNumber at h
  dsimp only at h
  split at h
  · split at h
    · -- digits on both sides of a point
      rename_i after hafter
      have hafter : Begins ('.' :: (after.takeWhile isDigitPart ++
          exponentPart (after.dropWhile isDigitPart))) (rest.dropWhile isDigitPart) := by
        rw [hafter]
        exact begins_cons rfl (begins_takeWhile markFree_isDigitPart (begins_exponentPart _))
      rw [List.append_assoc, List.cons_append] at h
      exact coversPlain_of_floatLexeme h (begins_takeWhile markFree_isDigitPart hafter)
    · split at h
      · exact coversPlain_of_numberLexeme h isNumber_intToken?
          (begins_class markFree_isDigitPart rest)
      · exact coversPlain_of_floatLexeme h
          (begins_takeWhile markFree_isDigitPart (begins_exponentPart _))
  · rename_i hhex
    have hne : hexDigitsAfter c rest ≠ [] := by simpa using hhex
    refine coversPlain_of_numberLexeme h ?_ (begins_hexDigitsAfter hne)
    intro t ht
    split at ht
    · cases ht
    · obtain ⟨value, -, hvalue⟩ := Option.bind_eq_some_iff.mp ht
      exact isNumber_intToken? t hvalue

theorem coversPlain_scanFraction {digit : Char} (hdigit : digit.isDigit = true)
    (h : scanFraction digit rest = .ok lexeme) : CoversPlain '.' (digit :: rest) lexeme := by
  refine coversPlain_of_floatLexeme h (begins_cons ?_ ?_)
  · exact isMark_of_markFree markFree_isDigit hdigit
  · exact begins_takeWhile markFree_isDigitPart (begins_exponentPart _)

/-! ## Words and symbols -/

theorem isBracket_of_mem_keywords (h : s ∈ Symbol.keywords) :
    (Token.symbol s).isBracket = false := by
  have hall : Symbol.keywords.all (fun s => !(Token.symbol s).isBracket) = true := by decide
  simpa using List.all_eq_true.mp hall s h

theorem coversPlain_scanWord (c : Char) (rest : List Char) :
    CoversPlain c rest (scanWord c rest) := by
  refine ⟨_, begins_class markFree_isNamePart rest, rfl, ?_, ?_⟩
  · unfold scanWord
    dsimp only
    split
    · rename_i symbol hsymbol
      exact isBracket_of_mem_keywords (List.mem_of_find?_eq_some hsymbol)
    · rfl
  · intro n hn
    unfold scanWord at hn
    dsimp only at hn
    split at hn
    · cases hn
    · cases hn
      exact String.toList_ofList

theorem coversPlain_symbol (hs : (Token.symbol s).isBracket = false) (h : Begins word rest) :
    CoversPlain c rest ⟨.symbol s, word.length⟩ := by
  refine ⟨word, h, rfl, hs, ?_⟩
  intro n hn
  cases hn

theorem coversPlain_scanSymbol? (hc : Reader.isMark c = false)
    (h : scanSymbol? c rest = some lexeme) : CoversPlain c rest lexeme := by
  have hsecond : ∀ d, Reader.isMark d = false → rest.head? = some d → Begins [d] rest := by
    intro d hd hhead
    obtain ⟨rest, rfl⟩ := List.head?_eq_some_iff.mp hhead
    exact begins_cons hd (begins_nil rest)
  unfold scanSymbol? at h
  dsimp only at h
  split at h
  all_goals first
    | cases h; done
    | (cases h; cases hc; done)
    | (cases h; exact coversPlain_symbol rfl (begins_nil rest))
    | skip
  all_goals
    split at h
    · cases h
      exact coversPlain_symbol rfl (hsecond _ rfl ‹_›)
    · first
        | cases h; done
        | (cases h; exact coversPlain_symbol rfl (begins_nil rest))

/-- A token that begins with a character that is no mark. -/
theorem coversPlain_scan (hc : Reader.isMark c = false) (h : scan c rest = .ok lexeme) :
    CoversPlain c rest lexeme := by
  unfold scan at h
  split at h
  · cases h
    exact coversPlain_scanWord c rest
  split at h
  · exact coversPlain_scanNumber h
  split at h
  · rename_i hquote
    simp only [Bool.or_eq_true, decide_eq_true_eq] at hquote
    rcases hquote with rfl | rfl <;> cases hc
  split at h
  · split at h
    · exact coversPlain_scanFraction ‹_› h
    · cases h
      exact coversPlain_symbol rfl (begins_nil _)
  · split at h
    · rename_i hsymbol
      cases h
      exact coversPlain_scanSymbol? hc hsymbol
    · cases h

/-! ## Brackets -/

theorem scan_group {rule : Rule} {opening closing : Char}
    (h : (rule, opening, closing) ∈ groups) :
    ∃ s s', (s, s') ∈ Symbol.brackets ∧ (opening, s) ∈ marks ∧ (closing, s') ∈ marks := by
  simp only [groups, List.mem_cons, Prod.mk.injEq, List.not_mem_nil, or_false] at h
  rcases h with ⟨-, rfl, rfl⟩ | ⟨-, rfl, rfl⟩ | ⟨-, rfl, rfl⟩
  · exact ⟨.lparen, .rparen, by decide, by decide, by decide⟩
  · exact ⟨.lbrace, .rbrace, by decide, by decide, by decide⟩
  · exact ⟨.lbracket, .rbracket, by decide, by decide, by decide⟩

theorem lexes_cons_mark (hmark : (c, s) ∈ marks) (h : Lexes (c :: rest) tokens) :
    ∃ more, tokens = .symbol s :: more ∧ Lexes rest more := by
  have hscan : isSkipped c = false ∧ scan c rest = .ok ⟨.symbol s, 0⟩ := by
    simp only [marks, List.mem_cons, Prod.mk.injEq, List.not_mem_nil, or_false] at hmark
    rcases hmark with ⟨rfl, rfl⟩ | ⟨rfl, rfl⟩ | ⟨rfl, rfl⟩ | ⟨rfl, rfl⟩ | ⟨rfl, rfl⟩ | ⟨rfl, rfl⟩ |
      ⟨rfl, rfl⟩ | ⟨rfl, rfl⟩ | ⟨rfl, rfl⟩ | ⟨rfl, rfl⟩ | ⟨rfl, rfl⟩ <;> exact ⟨rfl, rfl⟩
  cases h with
  | skip hskip _ =>
    rw [hscan.1] at hskip
    cases hskip
  | token _ hscan' hrest =>
    rw [hscan.2] at hscan'
    cases hscan'
    exact ⟨_, rfl, hrest⟩

/-! ## String literals -/

/-- The body of a literal between triple quotes is read up to its end. -/
theorem blockBody?_of_stringBody (hquote : quote ≠ '\\')
    (h : StringBody [quote, quote, quote] body) (rest : List Char) :
    blockBody? quote (body ++ [quote, quote, quote] ++ rest) = some body := by
  induction h with
  | nil => simp [blockBody?, hquote]
  | guarded _ ih =>
    rw [List.cons_append, List.cons_append, List.cons_append, List.cons_append, blockBody?]
    simp only [if_true, ih, Option.map_some]
  | @char c body hc hfree _ ih =>
    have hopen : (c = quote && [quote, quote].isPrefixOf (body ++ [quote, quote, quote] ++ rest)) =
        false := by
      refine Bool.eq_false_iff.mpr fun hclosed => hfree ?_
      simp only [Bool.and_eq_true, decide_eq_true_eq, List.isPrefixOf_iff_prefix] at hclosed
      obtain ⟨rfl, hclosed⟩ := hclosed
      rw [List.cons_prefix_cons]
      refine ⟨rfl, List.prefix_of_prefix_length_le hclosed (List.prefix_append _ _) ?_⟩
      simp
    rw [List.cons_append, List.cons_append, blockBody?.eq_def]
    simp only [hc, if_false, hopen, ih, Option.map_some]
    rfl

/-- The body of a literal on one line is read up to its end, if it is read. -/
theorem lineBody?_of_stringBody (hquote : quote ≠ '\\') (h : StringBody [quote] body)
    (rest : List Char) {found : List Char}
    (hfound : lineBody? quote (body ++ quote :: rest) = some found) : found = body := by
  induction h generalizing found with
  | nil =>
    rw [List.nil_append, lineBody?.eq_def] at hfound
    simp only [if_true, Option.some.injEq] at hfound
    exact hfound.symm
  | @guarded c body _ ih =>
    rw [List.cons_append, List.cons_append, lineBody?.eq_def] at hfound
    simp only [Ne.symm hquote, if_false, if_true] at hfound
    split at hfound
    · cases hfound
    split at hfound
    · cases hfound
    · obtain ⟨more, hmore, rfl⟩ := Option.map_eq_some_iff.mp hfound
      rw [ih hmore]
  | @char c body hc hfree _ ih =>
    have hne : c ≠ quote := by
      rintro rfl
      exact hfree (List.cons_prefix_cons.mpr ⟨rfl, List.nil_prefix⟩)
    rw [List.cons_append, lineBody?.eq_def] at hfound
    simp only [hne, hc, if_false] at hfound
    split at hfound
    · cases hfound
    · obtain ⟨more, hmore, rfl⟩ := Option.map_eq_some_iff.mp hfound
      rw [ih hmore]

theorem scanString_block (hquote : quote ≠ '\\') (h : StringBody [quote, quote, quote] body)
    (rest : List Char) :
    ∃ text, scanString quote ([quote, quote] ++ body ++ [quote, quote, quote] ++ rest) =
      .ok ⟨.str text, body.length + 5⟩ := by
  have hopen : [quote, quote].isPrefixOf
      ([quote, quote] ++ body ++ [quote, quote, quote] ++ rest) = true := by
    simp
  have hdrop : ([quote, quote] ++ body ++ [quote, quote, quote] ++ rest).drop 2 =
      body ++ [quote, quote, quote] ++ rest := by
    simp
  rw [scanString, if_pos hopen, hdrop, blockBody?_of_stringBody hquote h]
  exact ⟨_, rfl⟩

/-- The quote of a literal on one line opens no triple quotes. -/
theorem isPrefixOf_quotes_line (hquote : quote ≠ '\\') (h : StringBody [quote] body)
    (hends : body = [] → rest.head? ≠ some quote) :
    [quote, quote].isPrefixOf (body ++ quote :: rest) = false := by
  refine Bool.eq_false_iff.mpr fun hclosed => ?_
  have hclosed := List.isPrefixOf_iff_prefix.mp hclosed
  cases h with
  | nil =>
    rw [List.nil_append, List.cons_prefix_cons] at hclosed
    obtain ⟨after, rfl⟩ := hclosed.2
    exact hends rfl rfl
  | guarded _ =>
    rw [List.cons_append, List.cons_prefix_cons] at hclosed
    exact hquote hclosed.1
  | char _ hfree _ =>
    rw [List.cons_append, List.cons_prefix_cons] at hclosed
    exact hfree (List.cons_prefix_cons.mpr ⟨hclosed.1, List.nil_prefix⟩)

theorem scanString_line (hquote : quote ≠ '\\') (h : StringBody [quote] body)
    (hends : body = [] → rest.head? ≠ some quote)
    (hscan : scanString quote (body ++ quote :: rest) = .ok lexeme) :
    ∃ text, lexeme = ⟨.str text, body.length + 1⟩ := by
  rw [scanString, isPrefixOf_quotes_line hquote h hends, if_neg (by decide)] at hscan
  dsimp only at hscan
  split at hscan
  · rename_i found hfound
    cases hscan
    rw [lineBody?_of_stringBody hquote h rest hfound]
    exact ⟨_, rfl⟩
  · cases hscan

theorem lexes_cons_quote (hquote : quote ∈ quotes) (h : Lexes (quote :: rest) tokens) :
    ∃ lexeme more, tokens = lexeme.token :: more ∧ scanString quote rest = .ok lexeme ∧
      Lexes (rest.drop lexeme.more) more := by
  cases h with
  | skip hskip _ =>
    rw [isSkipped_of_mem_quotes hquote] at hskip
    cases hskip
  | @token _ _ lexeme more _ hscan hrest =>
    rw [scan_quote hquote] at hscan
    exact ⟨lexeme, more, rfl, hscan, hrest⟩

/-- A string literal stands between triple quotes, or on one line between two quotes. -/
theorem cases_literal (ht : IsStringLiteral t) :
    ∃ quote ∈ quotes, ∃ after, t = quote :: after ∧ quote ≠ '\\' ∧ ∃ body,
      StringBody [quote, quote, quote] body ∧
          after = [quote, quote] ++ body ++ [quote, quote, quote] ∨
        StringBody [quote] body ∧ after = body ++ [quote] ∧
          ∀ rest, EndsBefore t rest → body = [] → rest.head? ≠ some quote := by
  obtain ⟨marks, hmarks, body, hbody, rfl⟩ := ht
  have hcases : ∃ quote ∈ quotes, marks = [quote, quote, quote] ∨ marks = [quote] := by
    simp only [stringQuotes, List.mem_cons, List.not_mem_nil, or_false] at hmarks
    rcases hmarks with rfl | rfl | rfl | rfl
    · exact ⟨'"', by decide, .inl rfl⟩
    · exact ⟨'\'', by decide, .inl rfl⟩
    · exact ⟨'"', by decide, .inr rfl⟩
    · exact ⟨'\'', by decide, .inr rfl⟩
  obtain ⟨quote, hquote, hcases⟩ := hcases
  have hback : quote ≠ '\\' := by
    rintro rfl
    exact absurd hquote (by decide)
  rcases hcases with rfl | rfl
  · exact ⟨quote, hquote, _, rfl, hback, body, .inl ⟨hbody, rfl⟩⟩
  · refine ⟨quote, hquote, _, rfl, hback, body, .inr ⟨hbody, rfl, fun rest hends hnil => ?_⟩⟩
    subst hnil
    exact hends quote hmarks rfl

/-- What is read behind the first quote of a literal is the literal, if anything is. -/
theorem length_of_scanString {after : List Char} (ht : IsStringLiteral (quote :: after))
    (hends : EndsBefore (quote :: after) rest) (h : scanString quote (after ++ rest) = .ok lexeme) :
    ∃ text, lexeme = ⟨.str text, after.length⟩ := by
  obtain ⟨_, _, _, hcons, hback, body, hcases⟩ := cases_literal ht
  cases hcons
  rcases hcases with ⟨hbody, rfl⟩ | ⟨hbody, rfl, hline⟩
  · obtain ⟨text, htext⟩ := scanString_block hback hbody rest
    rw [htext] at h
    cases h
    exact ⟨text, by simp⟩
  · rw [List.append_assoc] at h
    obtain ⟨text, rfl⟩ := scanString_line hback hbody (hline rest hends) h
    exact ⟨text, by simp⟩

theorem lexes_literal (ht : IsStringLiteral t) (hends : EndsBefore t rest)
    (h : Lexes (t ++ rest) tokens) : ∃ text more, tokens = .str text :: more ∧ Lexes rest more := by
  obtain ⟨quote, hquote, after, rfl, -⟩ := cases_literal ht
  rw [List.cons_append] at h
  obtain ⟨lexeme, more, rfl, hscan, hrest⟩ := lexes_cons_quote hquote h
  obtain ⟨text, rfl⟩ := length_of_scanString ht hends hscan
  rw [List.drop_left] at hrest
  exact ⟨text, more, rfl, hrest⟩

end ComponentMarkup.Lexer
