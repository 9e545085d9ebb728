import ComponentMarkup.Proofs.Expr.Renaming
import ComponentMarkup.Proofs.Expr.Scanning
import ComponentMarkup.Proofs.Position.Boundaries

/-!
# Where syntax errors point

An error in the source of an expression points at the start of a token, at the character with which a
token should begin, or at the end of the source. `Lexer.Visits` says where the lexer looks for a token.
That a reader of tokens points at nothing but the tokens ahead and the end is known from `Parser.Agree`,
for a source that is compared with itself.
-/

namespace ComponentMarkup

variable {lexeme : Lexeme}

/-- All names as they are. -/
def Renaming.same : Renaming where
  names := Eq
  eq_iff := by
    rintro a _ a' _ rfl rfl
    rfl

theorem Token.renamed_same (t : Token) : Token.Renamed .same t t := by
  cases t with
  | name a => exact .name rfl
  | symbol | int | float | str => exact .same fun _ h => nomatch h

/-! ## Where the lexer looks -/

namespace Lexer

open Text (byteLength)

variable {text body : List Char} {quote : Char}

/-- On its way over a text that stands at an offset, the lexer looks for a token at another offset. -/
inductive Visits : Nat → List Char → Nat → Prop where
  | here {o c rest} : isSkipped c = false → Visits o (c :: rest) o
  | skip {o c rest p} : isSkipped c = true → Visits (o + c.utf8Size) rest p → Visits o (c :: rest) p
  | token {o c rest lexeme p} : isSkipped c = false → scan c rest = .ok lexeme →
      Visits (o + byteLength (c :: rest.take lexeme.more)) (rest.drop lexeme.more) p →
      Visits o (c :: rest) p

theorem visits_of_tokensFrom {tokens : List Spanned} (h : tokensFrom o text = .ok tokens) :
    ∀ t ∈ tokens, Visits o text t.span.start := by
  fun_induction tokensFrom o text generalizing tokens with
  | case1 o =>
    cases h
    exact List.forall_mem_nil _
  | case2 o c rest hskip ih => exact fun t ht => .skip hskip (ih h t ht)
  | case3 => cases h
  | case4 => cases h
  | case5 o c rest hskip lexeme hscan stop more hmore =>
    rename_i ih
    cases h
    have hskip : isSkipped c = false := by simpa using hskip
    intro t ht
    obtain rfl | ht := List.mem_cons.mp ht
    · exact .here hskip
    · exact .token hskip hscan (ih hmore t ht)

theorem visits_of_tokensFrom_error {e : SyntaxError} (h : tokensFrom o text = .error e) :
    Visits o text e.offset := by
  fun_induction tokensFrom o text with
  | case1 => cases h
  | case2 o c rest hskip ih => exact .skip hskip (ih h)
  | case3 o c rest hskip fault hscan =>
    cases h
    exact .here (by simpa using hskip)
  | case4 o c rest hskip lexeme hscan stop err hmore ih =>
    cases h
    exact .token (by simpa using hskip) hscan (ih hmore)
  | case5 => cases h

/-- The lexer looks at places between characters. -/
theorem Visits.exists_split (h : Visits o text p) :
    ∃ front back, text = front ++ back ∧ p = o + byteLength front := by
  induction h with
  | here _ => exact ⟨[], _, rfl, rfl⟩
  | @skip o c rest p _ _ ih =>
    obtain ⟨front, back, rfl, rfl⟩ := ih
    exact ⟨c :: front, back, rfl, by rw [Text.byteLength_cons, Nat.add_assoc]⟩
  | @token o c rest lexeme p _ _ _ ih =>
    obtain ⟨front, back, hrest, rfl⟩ := ih
    refine ⟨c :: rest.take lexeme.more ++ front, back, ?_, ?_⟩
    · rw [List.append_assoc, ← hrest, List.cons_append, List.take_append_drop]
    · rw [Text.byteLength_append, Nat.add_assoc]

theorem Visits.le (h : Visits o text p) : o ≤ p := by
  obtain ⟨front, back, -, rfl⟩ := h.exists_split
  exact Nat.le_add_right _ _

theorem Visits.isBoundary (h : Visits 0 text p) : Text.IsBoundary text p := by
  obtain ⟨front, back, rfl, rfl⟩ := h.exists_split
  exact ⟨front, back, rfl, (Nat.zero_add _).symm⟩

/-! ### String literals -/

theorem append_quote_of_lineBody? (h : lineBody? quote text = some body) :
    body ++ [quote] <+: text := by
  fun_induction lineBody? quote text generalizing body with
  | case1 => cases h
  | case2 rest =>
    cases h
    exact List.cons_prefix_cons.mpr ⟨rfl, List.nil_prefix⟩
  | case3 => cases h
  | case4 => cases h
  | case5 => cases h
  | case6 escaped rest _ _ _ ih =>
    obtain ⟨more, hmore, rfl⟩ := Option.map_eq_some_iff.mp h
    exact List.cons_prefix_cons.mpr ⟨rfl, List.cons_prefix_cons.mpr ⟨rfl, ih hmore⟩⟩
  | case7 c rest _ _ _ ih =>
    obtain ⟨more, hmore, rfl⟩ := Option.map_eq_some_iff.mp h
    exact List.cons_prefix_cons.mpr ⟨rfl, ih hmore⟩

theorem append_quotes_of_blockBody? (h : blockBody? quote text = some body) :
    body ++ [quote, quote, quote] <+: text := by
  fun_induction blockBody? quote text generalizing body with
  | case1 => cases h
  | case2 => cases h
  | case3 escaped rest ih =>
    obtain ⟨more, hmore, rfl⟩ := Option.map_eq_some_iff.mp h
    exact List.cons_prefix_cons.mpr ⟨rfl, List.cons_prefix_cons.mpr ⟨rfl, ih hmore⟩⟩
  | case4 c rest _ hclosed =>
    cases h
    simp only [Bool.and_eq_true, decide_eq_true_eq, List.isPrefixOf_iff_prefix] at hclosed
    exact List.cons_prefix_cons.mpr ⟨hclosed.1.symm, hclosed.2⟩
  | case5 c rest _ _ ih =>
    obtain ⟨more, hmore, rfl⟩ := Option.map_eq_some_iff.mp h
    exact List.cons_prefix_cons.mpr ⟨rfl, ih hmore⟩

/-- A string literal ends with its quote. -/
theorem quote_of_scanString {rest : List Char} (h : scanString quote rest = .ok lexeme) :
    ∃ body, body ++ [quote] <+: rest ∧ lexeme.more = body.length + 1 := by
  unfold scanString at h
  dsimp only at h
  split at h
  · next hopen =>
    split at h
    · next body hbody =>
      cases h
      obtain ⟨after, rfl⟩ := List.isPrefixOf_iff_prefix.mp hopen
      obtain ⟨more, hmore⟩ := append_quotes_of_blockBody? hbody
      refine ⟨quote :: quote :: body ++ [quote, quote], ⟨more, ?_⟩, by simp⟩
      simp at hmore ⊢
      exact hmore
    · cases h
  · split at h
    · next body hbody =>
      cases h
      exact ⟨body, append_quote_of_lineBody? hbody, rfl⟩
    · cases h

/-- A token that begins with a mark: a bracket, or a literal that ends with the same quote. -/
theorem of_scan_mark {c : Char} {rest : List Char} (hc : Reader.isMark c = true)
    (h : scan c rest = .ok lexeme) :
    lexeme.more = 0 ∨ ([c] ∈ stringQuotes ∧
      ∃ body, body ++ [c] <+: rest ∧ lexeme.more = body.length + 1) := by
  have hmark := mem_markChars hc
  simp only [markChars, List.mem_cons, List.not_mem_nil, or_false] at hmark
  rcases hmark with rfl | rfl | rfl | rfl | rfl | rfl | rfl | rfl
  case inr.inr.inr.inr.inr.inr.inl => exact .inr ⟨by decide, quote_of_scanString h⟩
  case inr.inr.inr.inr.inr.inr.inr => exact .inr ⟨by decide, quote_of_scanString h⟩
  all_goals
    cases h
    exact .inl rfl

/-! ### Names in parentheses -/

section Enclosed

variable {a b : List Char} {name : String} {o p : Nat}

theorem IsName.plain (hname : IsName name) : Plain name.toList :=
  fun c hc => isMark_of_markFree markFree_isNamePart (hname.isNamePart c hc)

/-- A token before a name in parentheses ends before it or after it. -/
theorem more_of_enclosed {c : Char} (hname : IsName name)
    (h : scan c (a ++ ('(' :: name.toList ++ [')']) ++ b) = .ok lexeme) :
    lexeme.more ≤ a.length ∨ a.length + ('(' :: name.toList ++ [')']).length ≤ lexeme.more := by
  by_cases hc : Reader.isMark c = true
  · obtain hzero | ⟨hquote, body, ⟨after, hafter⟩, hmore⟩ := of_scan_mark hc h
    · left
      omega
    · -- the closing quote is no part of what stands between the parentheses
      refine Classical.byContradiction fun hinside => ?_
      have hat : ('(' :: name.toList ++ [')'])[body.length - a.length]? = some c := by
        have hat : (a ++ ('(' :: name.toList ++ [')']) ++ b)[body.length]? = some c := by
          rw [← hafter]
          simp
        rwa [List.append_assoc, List.getElem?_append_right (by omega),
          List.getElem?_append_left (by omega)] at hat
      have hmem := List.mem_of_getElem? hat
      simp only [List.cons_append, List.mem_cons, List.mem_append, List.not_mem_nil, or_false] at hmem
      obtain rfl | hmem | rfl := hmem
      · exact absurd hquote (by decide)
      · rw [hname.plain c hmem] at hc
        cases hc
      · exact absurd hquote (by decide)
  · -- a token without marks ends before the parenthesis
    left
    obtain ⟨word, ⟨hbegin, hplain⟩, hlength, -⟩ := coversPlain_scan (Bool.eq_false_iff.mpr hc) h
    refine Nat.le_of_not_lt fun hlt => ?_
    have hbegins : a ++ ['('] <+: word := by
      refine List.prefix_of_prefix_length_le ?_ hbegin ?_
      · exact ⟨name.toList ++ [')'] ++ b, by simp⟩
      · rw [List.length_append, hlength]
        exact hlt
    exact absurd (hplain '(' (hbegins.subset (by simp))) (by decide)

/-- In a name before a parenthesis the lexer looks at its start only. -/
theorem Visits.of_name (hname : IsName name) (h : Visits o (name.toList ++ ')' :: b) p) :
    p = o ∨ p = o + byteLength name.toList ∨ o + byteLength name.toList + 1 ≤ p := by
  obtain ⟨c, more, htext, -⟩ := hname.head
  have hstops : Stops (')' :: b) := stops_cons (by decide)
  obtain ⟨hc, hscan⟩ := scan_word htext hname.word hstops
  rw [htext] at h ⊢
  cases h with
  | here _ => exact .inl rfl
  | skip hskip _ =>
    rw [isSkipped_of_isNameStart hc] at hskip
    cases hskip
  | token _ hscan' h =>
    cases hscan.symm.trans hscan'
    change Visits (o + byteLength (c :: (more ++ ')' :: b).take more.length))
      ((more ++ ')' :: b).drop more.length) p at h
    rw [List.take_left, List.drop_left] at h
    cases h with
    | here _ => exact .inr (.inl rfl)
    | skip hskip _ => exact absurd hskip (by decide)
    | token _ hscan' h =>
      cases hscan'
      exact .inr (.inr h.le)

/-- Of a name in parentheses the lexer looks at both parentheses and at the start of the name, and at
nothing else in it. -/
theorem Visits.of_enclosed (hname : IsName name)
    (h : Visits o (a ++ ('(' :: name.toList ++ [')']) ++ b) p) :
    p ≤ o + byteLength a ∨ p = o + byteLength a + 1 ∨
      p = o + byteLength a + 1 + byteLength name.toList ∨
      o + byteLength a + byteLength ('(' :: name.toList ++ [')']) ≤ p := by
  rw [Text.byteLength_enclosed]
  generalize htext : a ++ ('(' :: name.toList ++ [')']) ++ b = text at h
  -- along the way of the lexer, with what is left of `a` before the parenthesis
  induction h generalizing a with
  | here _ =>
    left
    omega
  | @skip o c rest p hskip _ ih =>
    cases a with
    | nil =>
      cases htext
      exact absurd hskip (by decide)
    | cons c' a =>
      simp only [List.cons_append, List.append_assoc, List.cons.injEq] at htext
      obtain ⟨rfl, rfl⟩ := htext
      have hvisit := ih (a := a) (by simp)
      rw [Text.byteLength_cons]
      omega
  | @token o c rest lexeme p hskip hscan h ih =>
    cases a with
    | nil =>
      simp only [List.nil_append, List.cons_append, List.append_assoc, List.cons.injEq] at htext
      obtain ⟨rfl, rfl⟩ := htext
      -- the token is the opening parenthesis itself, and the name comes next
      cases hscan
      have hvisit := h.of_name hname
      have hopen : byteLength ['('] = 1 := rfl
      simp only [List.take_zero, hopen] at hvisit
      show p ≤ o + 0 ∨ p = o + 0 + 1 ∨ p = o + 0 + 1 + byteLength name.toList ∨
        o + 0 + (byteLength name.toList + 2) ≤ p
      omega
    | cons c' a =>
      have htext : c' :: (a ++ ('(' :: name.toList ++ [')']) ++ b) = c :: rest := htext
      obtain ⟨rfl, rfl⟩ := List.cons.inj htext
      obtain hmore | hmore := more_of_enclosed hname hscan
      · have hvisit := ih (a := a.drop lexeme.more) (by
          rw [List.append_assoc a, List.drop_append_of_le_length hmore, List.append_assoc])
        have hsum : byteLength (a.take lexeme.more) + byteLength (a.drop lexeme.more) =
            byteLength a := by
          rw [← Text.byteLength_append, List.take_append_drop]
        rw [List.append_assoc a, List.take_append_of_le_length hmore, Text.byteLength_cons] at hvisit
        rw [Text.byteLength_cons]
        omega
      · -- the token covers the parentheses
        have hcovered : a ++ ('(' :: name.toList ++ [')']) <+:
            (a ++ ('(' :: name.toList ++ [')']) ++ b).take lexeme.more := by
          refine List.prefix_take_iff.mpr ⟨List.prefix_append _ _, ?_⟩
          rw [List.length_append]
          exact hmore
        obtain ⟨after, hafter⟩ := hcovered
        have hle := h.le
        rw [← hafter, Text.byteLength_cons, Text.byteLength_append, Text.byteLength_append,
          Text.byteLength_enclosed] at hle
        rw [Text.byteLength_cons]
        omega

end Enclosed

end Lexer

/-- A place that an error may point at: the lexer looks for a token there, or the text ends. -/
def Lexer.Reaches (text : List Char) (p : Nat) : Prop :=
  Lexer.Visits 0 text p ∨ p = Text.byteLength text

theorem Lexer.Reaches.isBoundary (h : Lexer.Reaches text p) : Text.IsBoundary text p := by
  obtain h | rfl := h
  · exact h.isBoundary
  · exact Text.isBoundary_byteLength text

/-- An error in a source points at a place where the lexer looked for a token, or at the end. -/
theorem Expr.reaches_of_parse {source : List Char} {e : SyntaxError}
    (h : Expr.parse source = .error e) : Lexer.Reaches source e.offset := by
  unfold Expr.parse at h
  cases htokens : Lexer.tokenize source with
  | error e' =>
    rw [htokens] at h
    cases h
    exact .inl (Lexer.visits_of_tokensFrom_error htokens)
  | ok tokens =>
    have hstarts : ParserInput.Renamed .same (Lexer.Reaches source) ⟨tokens, Text.byteLength source⟩
        ⟨tokens, Text.byteLength source⟩ :=
      ⟨List.forall₂_same.mpr fun t ht =>
        ⟨t.token.renamed_same, .inl (Lexer.visits_of_tokensFrom htokens t ht)⟩, .inr rfl⟩
    have hagree := Parser.blind_expressionList _ _ (Parser.depthFor tokens.length) hstarts
    rw [htokens] at h
    simp only [bind, Except.bind, StateT.run] at h
    cases hrun : Parser.expressionList (Parser.depthFor tokens.length)
        ⟨tokens, Text.byteLength source⟩ with
    | error e' =>
      rw [hrun] at hagree
      simp only [hrun] at h
      cases h
      cases hagree with
      | error hpoint => exact hpoint
    | ok result =>
      obtain ⟨value, rest, stop⟩ := result
      rw [hrun] at hagree
      cases rest with
      | nil => simp [hrun, pure, Except.pure] at h
      | cons t ts =>
        -- what is left over is an error at its first token
        simp only [hrun] at h
        cases h
        cases hagree with
        | ok hout => exact (List.forall₂_cons.mp hout.tokens).1.2

end ComponentMarkup
