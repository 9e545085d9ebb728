import Mathlib
import ComponentMarkup.Proofs.Expr.Scanning

/-!
# What a token depends on

A token that is no literal depends on the text up to the next bracket, quote or newline only:
`scan_append` says that whatever stands behind it may be left out. A string literal depends on itself
only, unless it is empty and a quote follows.
-/

namespace ComponentMarkup.Lexer

variable {c quote : Char} {rest rest' : List Char}

/-- The characters at which every token ends that is no string literal. -/
def breakChars : List Char :=
  '\n' :: markChars

/-- A text is empty or begins with a bracket, a quote or a newline. -/
def AtBreak (tail : List Char) : Prop :=
  ∀ c ∈ tail.head?, c ∈ breakChars

/-- A class of characters without brackets, quotes and the newline. -/
def BreakFree (p : Char → Bool) : Prop :=
  breakChars.all (fun c => !p c) = true

theorem breakFree_isNamePart : BreakFree isNamePart := by
  unfold BreakFree
  decide

theorem breakFree_isDigitPart : BreakFree isDigitPart := by
  unfold BreakFree
  decide

theorem breakFree_isDigit : BreakFree Char.isDigit := by
  unfold BreakFree
  decide

theorem mem_breakChars (hc : Reader.isMark c = true) : c ∈ breakChars :=
  List.mem_cons_of_mem _ (mem_markChars hc)

theorem atBreak_cons {tail : List Char} (hc : c ∈ breakChars) : AtBreak (c :: tail) := by
  intro d hd
  cases hd
  exact hc

section

variable {tail : List Char} {p : Char → Bool}

theorem AtBreak.head?_ne (h : AtBreak tail) (hc : c ∉ breakChars) : tail.head? ≠ some c :=
  fun hhead => hc (h c hhead)

theorem AtBreak.eq_false (h : AtBreak tail) (hp : BreakFree p) (htail : tail = c :: rest) :
    p c = false := by
  have hbreak : c ∈ breakChars := h c (by rw [htail]; rfl)
  simpa using List.all_eq_true.mp hp c hbreak

/-! ## Classes of characters -/

theorem takeWhile_append_atBreak (hp : BreakFree p) (h : AtBreak tail) (text : List Char) :
    (text ++ tail).takeWhile p = text.takeWhile p := by
  induction text with
  | nil =>
    cases tail with
    | nil => rfl
    | cons c rest => rw [List.nil_append, List.takeWhile_cons, h.eq_false hp rfl]; rfl
  | cons c text ih => rw [List.cons_append, List.takeWhile_cons, List.takeWhile_cons, ih]

theorem dropWhile_append_atBreak (hp : BreakFree p) (h : AtBreak tail) (text : List Char) :
    (text ++ tail).dropWhile p = text.dropWhile p ++ tail := by
  induction text with
  | nil =>
    cases tail with
    | nil => rfl
    | cons c rest => rw [List.nil_append, List.dropWhile_cons, h.eq_false hp rfl]; rfl
  | cons c text ih =>
    rw [List.cons_append, List.dropWhile_cons, List.dropWhile_cons, ih]
    split <;> rfl

/-! ## Numbers -/

theorem exponentPart_of_ne {mark : Char} (hmark : ¬(mark = 'e' ∨ mark = 'E')) (rest : List Char) :
    exponentPart (mark :: rest) = [] := by
  cases rest <;> simp [exponentPart, hmark]

theorem exponentPart_append (h : AtBreak tail) (text : List Char) :
    exponentPart (text ++ tail) = exponentPart text := by
  have hdigits := takeWhile_append_atBreak breakFree_isDigit h
  cases text with
  | nil =>
    cases tail with
    | nil => rfl
    | cons c rest =>
      have hc : ¬(c = 'e' ∨ c = 'E') := by
        rintro (rfl | rfl)
        · exact absurd (h 'e' rfl) (by decide)
        · exact absurd (h 'E' rfl) (by decide)
      rw [List.nil_append, exponentPart_of_ne hc]
      rfl
  | cons mark rest =>
    by_cases hmark : mark = 'e' ∨ mark = 'E'
    · cases rest with
      | nil =>
        -- no sign and no digit follow the mark
        cases tail with
        | nil => rfl
        | cons c rest =>
          have hsign : ¬(c = '+' ∨ c = '-') := by
            rintro (rfl | rfl)
            · exact absurd (h '+' rfl) (by decide)
            · exact absurd (h '-' rfl) (by decide)
          have hnone := hdigits []
          rw [List.nil_append] at hnone
          simp [exponentPart, hmark, hsign, hnone]
      | cons sign digits =>
        have hrest := hdigits (sign :: digits)
        rw [List.cons_append] at hrest
        simp only [List.cons_append, exponentPart, if_pos hmark, hdigits digits, hrest]
    · rw [List.cons_append, exponentPart_of_ne hmark, exponentPart_of_ne hmark]

theorem hexDigitsAfter_append (h : AtBreak tail) (c : Char) (text : List Char) :
    hexDigitsAfter c (text ++ tail) = hexDigitsAfter c text := by
  cases text with
  | nil =>
    cases tail with
    | nil => rfl
    | cons d rest =>
      have hd : ¬(c = '0' ∧ (d = 'x' ∨ d = 'X')) := by
        rintro ⟨-, rfl | rfl⟩
        · exact absurd (h 'x' rfl) (by decide)
        · exact absurd (h 'X' rfl) (by decide)
      rw [List.nil_append, hexDigitsAfter, if_neg hd]
      rfl
  | cons mark digits =>
    rw [List.cons_append, hexDigitsAfter, hexDigitsAfter,
      takeWhile_append_atBreak (by unfold BreakFree; decide) h]

theorem scanNumber_append (h : AtBreak tail) (c : Char) (text : List Char) :
    scanNumber c (text ++ tail) = scanNumber c text := by
  have hfirst : hexDigitsAfter c text ≠ [] → (text ++ tail).take 1 = text.take 1 := by
    intro hhex
    cases text with
    | nil => exact absurd rfl hhex
    | cons d text => rfl
  have hdigits := takeWhile_append_atBreak breakFree_isDigitPart h
  have hafter := dropWhile_append_atBreak breakFree_isDigitPart h
  simp only [scanNumber, hexDigitsAfter_append h, hdigits, hafter]
  by_cases hhex : hexDigitsAfter c text = []
  · simp only [hhex, List.isEmpty_nil, if_true]
    cases htext : text.dropWhile isDigitPart with
    | nil =>
      -- what follows the digits is no point
      have hexp := exponentPart_append h []
      rw [List.nil_append] at hexp ⊢
      cases tail with
      | nil => rfl
      | cons d rest =>
        have hd : d ≠ '.' := by
          rintro rfl
          exact absurd (h '.' rfl) (by decide)
        split
        · next heq => exact absurd (List.cons.inj heq).1 hd
        · rw [hexp]
    | cons d rest =>
      have hexp := exponentPart_append h (d :: rest)
      by_cases hd : d = '.'
      · subst hd
        simp only [List.cons_append, hdigits, hafter, exponentPart_append h]
      · rw [List.cons_append] at hexp ⊢
        split
        · next heq => exact absurd (List.cons.inj heq).1 hd
        · symm
          split
          · next heq => exact absurd (List.cons.inj heq).1 hd
          · rw [hexp]
  · have hempty : (hexDigitsAfter c text).isEmpty = false := by
      rw [List.isEmpty_eq_false_iff]
      exact hhex
    rw [hempty, hfirst hhex]
    rfl

theorem scanFraction_append (h : AtBreak tail) (digit : Char) (text : List Char) :
    scanFraction digit (text ++ tail) = scanFraction digit text := by
  simp only [scanFraction, takeWhile_append_atBreak breakFree_isDigitPart h,
    dropWhile_append_atBreak breakFree_isDigitPart h, exponentPart_append h]

/-! ## Names and symbols -/

theorem scanWord_append (h : AtBreak tail) (c : Char) (text : List Char) :
    scanWord c (text ++ tail) = scanWord c text := by
  simp only [scanWord, takeWhile_append_atBreak breakFree_isNamePart h]

theorem scanSymbol?_append (h : AtBreak tail) (c : Char) (text : List Char) :
    scanSymbol? c (text ++ tail) = scanSymbol? c text := by
  cases text with
  | cons d text => rfl
  | nil =>
    -- the second character of a symbol is no break
    have hstar : tail.head? ≠ some '*' := h.head?_ne (by decide)
    have hslash : tail.head? ≠ some '/' := h.head?_ne (by decide)
    have hequals : tail.head? ≠ some '=' := h.head?_ne (by decide)
    rw [List.nil_append]
    simp [scanSymbol?, hstar, hslash, hequals]

/-- A token that is no string literal depends on the text up to the next bracket, quote or
newline. -/
theorem scan_append (h : AtBreak tail) (hc : c ∉ quotes) (text : List Char) :
    scan c (text ++ tail) = scan c text := by
  have hquote : (c = '"' || c = '\'') = false := by
    rw [← Bool.not_eq_true]
    intro hquote
    simp only [Bool.or_eq_true, decide_eq_true_eq] at hquote
    rcases hquote with rfl | rfl
    · exact absurd hc (by decide)
    · exact absurd hc (by decide)
  simp only [scan, scanWord_append h, scanNumber_append h, scanSymbol?_append h, hquote,
    Bool.false_eq_true, if_false]
  by_cases hdot : c = '.'
  · subst hdot
    cases text with
    | nil =>
      -- no digit follows the point
      cases tail with
      | nil => rfl
      | cons d rest => simp [h.eq_false breakFree_isDigit rfl, scanSymbol?]
    | cons d text => simp only [List.cons_append, scanFraction_append h]
  · split
    · rfl
    split
    · rfl
    split
    · exact absurd rfl hdot
    · symm
      split
      · exact absurd rfl hdot
      · rfl

end

/-! ## String literals -/

/-- Whether the body of a literal on one line is read is a matter of the body alone. -/
theorem lineBody?_append (hquote : quote ≠ '\\') {body : List Char} (h : StringBody [quote] body)
    (rest rest' : List Char) :
    lineBody? quote (body ++ quote :: rest) = lineBody? quote (body ++ quote :: rest') := by
  induction h with
  | nil =>
    rw [List.nil_append, List.nil_append, lineBody?.eq_def, lineBody?.eq_def]
    simp only [if_true]
  | @guarded c body _ ih =>
    simp only [List.cons_append, lineBody?, Ne.symm hquote, if_false, if_true, ih]
  | @char c body hc hfree _ ih =>
    have hne : c ≠ quote := by
      rintro rfl
      exact hfree (List.cons_prefix_cons.mpr ⟨rfl, List.nil_prefix⟩)
    rw [List.cons_append, List.cons_append, lineBody?.eq_def, lineBody?.eq_def]
    simp only [hne, hc, if_false, ih]

theorem scanString_append {after : List Char} (ht : IsStringLiteral (quote :: after))
    (hends : EndsBefore (quote :: after) rest) (hends' : EndsBefore (quote :: after) rest') :
    scanString quote (after ++ rest) = scanString quote (after ++ rest') := by
  obtain ⟨_, _, _, hcons, hback, body, hcases⟩ := cases_literal ht
  cases hcons
  rcases hcases with ⟨hbody, rfl⟩ | ⟨hbody, rfl, hline⟩
  · have hopen (rest : List Char) : [quote, quote].isPrefixOf
        ([quote, quote] ++ body ++ [quote, quote, quote] ++ rest) = true := by
      simp
    have hdrop (rest : List Char) :
        ([quote, quote] ++ body ++ [quote, quote, quote] ++ rest).drop 2 =
          body ++ [quote, quote, quote] ++ rest := by
      simp
    simp only [scanString, hopen, if_true, hdrop, blockBody?_of_stringBody hback hbody]
  · simp only [List.append_assoc, List.singleton_append, scanString,
      isPrefixOf_quotes_line hback hbody (hline rest hends),
      isPrefixOf_quotes_line hback hbody (hline rest' hends'), Bool.false_eq_true, if_false,
      lineBody?_append hback hbody rest rest']

theorem lexes_literal_append {t : List Char} (ht : IsStringLiteral t) (hends : EndsBefore t rest)
    (hends' : EndsBefore t rest') {text : String} {tokens tokens' : List Token}
    (h : Lexes (t ++ rest) (.str text :: tokens)) (h' : Lexes rest' tokens') :
    Lexes (t ++ rest') (.str text :: tokens') := by
  obtain ⟨quote, hquote, after, rfl, -⟩ := cases_literal ht
  rw [List.cons_append] at h ⊢
  obtain ⟨lexeme, more, htokens, hscan, -⟩ := lexes_cons_quote hquote h
  obtain ⟨text, rfl⟩ := length_of_scanString ht hends hscan
  cases htokens
  rw [scanString_append ht hends hends', ← scan_quote hquote] at hscan
  refine .token (isSkipped_of_mem_quotes hquote) hscan ?_
  rwa [List.drop_left]

end ComponentMarkup.Lexer
