import ComponentMarkup.Proofs.Expr.Faults
import ComponentMarkup.Proofs.Expr.Locality
import ComponentMarkup.Proofs.Template.Joining

/-!
# Tokens of dedented texts

Dedenting takes blanks away at the starts of lines. Only a string literal may cover a newline, so such
blanks stand between tokens unless a literal goes over several lines, and the newline before them keeps
the tokens on its two sides apart. Blanks that the lexer does not pass over begin no token, so there are
none between the tokens of a text that is read. Main statement: a text whose literals stand on one line
each has the same tokens after dedenting.
-/

namespace ComponentMarkup

open Text (byteLength)
open Lexer

namespace Lexer

variable {quote c : Char} {text text' body rest : List Char} {lexeme : Lexeme}

/-! ## String literals -/

/-- The body of a literal on one line is read up to its quote, whatever follows. -/
theorem lineBody?_of_isPrefix (h : lineBody? quote text = some body)
    (hbegins : body ++ [quote] <+: text') : lineBody? quote text' = some body := by
  fun_induction lineBody? quote text generalizing body text' with
  | case1 => cases h
  | case2 rest =>
    cases h
    obtain ⟨more, rfl⟩ := hbegins
    rw [List.nil_append, List.singleton_append, lineBody?.eq_def]
    simp only [if_true]
  | case3 => cases h
  | case4 => cases h
  | case5 => cases h
  | case6 escaped rest hquote hline hescaped ih =>
    obtain ⟨body, hbody, rfl⟩ := Option.map_eq_some_iff.mp h
    obtain ⟨more, rfl⟩ := hbegins
    have hrest := ih hbody (List.prefix_append _ more)
    simp only [List.cons_append, lineBody?, hquote, hline, hescaped, if_false, if_true, hrest,
      Option.map_some]
  | case7 c rest hquote hline hback ih =>
    obtain ⟨body, hbody, rfl⟩ := Option.map_eq_some_iff.mp h
    obtain ⟨more, rfl⟩ := hbegins
    have hrest := ih hbody (List.prefix_append _ more)
    rw [List.cons_append, List.cons_append, lineBody?.eq_def]
    simp only [hquote, hline, hback, if_false, hrest, Option.map_some]

/-- The body of a literal between triple quotes is read up to them, whatever follows. -/
theorem blockBody?_of_prefix (h : blockBody? quote text = some body)
    (hbegins : body ++ [quote, quote, quote] <+: text') : blockBody? quote text' = some body := by
  fun_induction blockBody? quote text generalizing body text' with
  | case1 => cases h
  | case2 => cases h
  | case3 escaped rest ih =>
    obtain ⟨body, hbody, rfl⟩ := Option.map_eq_some_iff.mp h
    obtain ⟨more, rfl⟩ := hbegins
    have hrest := ih hbody (List.prefix_append _ more)
    simp only [List.cons_append, blockBody?, if_true, hrest, Option.map_some]
  | case4 c rest hback hclosed =>
    cases h
    obtain ⟨more, rfl⟩ := hbegins
    simp only [Bool.and_eq_true, decide_eq_true_eq] at hclosed
    obtain rfl := hclosed.1
    simp [blockBody?, hback]
  | case5 c rest hback hopen ih =>
    obtain ⟨body, hbody, rfl⟩ := Option.map_eq_some_iff.mp h
    obtain ⟨more, rfl⟩ := hbegins
    have hrest := ih hbody (List.prefix_append _ more)
    -- the next two characters are those of the body and its quotes in both texts
    have hopen' : ¬(c = quote &&
        [quote, quote].isPrefixOf (body ++ [quote, quote, quote] ++ more)) = true := by
      intro hclosed
      apply hopen
      simp only [Bool.and_eq_true, decide_eq_true_eq, List.isPrefixOf_iff_prefix] at hclosed ⊢
      have hquotes : [quote, quote] <+: body ++ [quote, quote, quote] :=
        List.prefix_of_prefix_length_le hclosed.2 (List.prefix_append _ _) (by simp)
      exact ⟨hclosed.1, hquotes.trans (append_quotes_of_blockBody? hbody)⟩
    rw [List.cons_append, List.cons_append, blockBody?.eq_def]
    simp only [hback, if_false, hopen', hrest, Option.map_some]
    rfl

/-- A string literal depends on its own characters and on the one that follows. -/
theorem scanString_of_take {rest' : List Char} (h : scanString quote rest = .ok lexeme)
    (htake : rest'.take (lexeme.more + 1) = rest.take (lexeme.more + 1)) :
    scanString quote rest' = .ok lexeme := by
  have hbegins : ∀ word, word.length ≤ lexeme.more + 1 → (word <+: rest' ↔ word <+: rest) := by
    intro word hlength
    have htake' := congrArg (List.take word.length) htake
    rw [List.take_take, List.take_take, Nat.min_eq_left hlength] at htake'
    rw [List.prefix_iff_eq_take, List.prefix_iff_eq_take, htake']
  have hopen : 1 ≤ lexeme.more →
      [quote, quote].isPrefixOf rest' = [quote, quote].isPrefixOf rest := by
    intro hmore
    rw [Bool.eq_iff_iff, List.isPrefixOf_iff_prefix, List.isPrefixOf_iff_prefix]
    exact hbegins _ (by simpa using hmore)
  unfold scanString at h ⊢
  dsimp only at h ⊢
  split at h
  · next hquotes =>
    split at h
    · next body hbody =>
      cases h
      rw [hopen (by simp), if_pos hquotes]
      obtain ⟨after, rfl⟩ := List.isPrefixOf_iff_prefix.mp hquotes
      obtain ⟨more, hmore⟩ := append_quotes_of_blockBody? hbody
      -- the literal as a whole stands in the other text too
      have hliteral : [quote, quote] ++ (body ++ [quote, quote, quote]) <+: rest' := by
        refine (hbegins _ (by simp)).mpr ?_
        exact (List.prefix_append_right_inj _).mpr ⟨more, hmore⟩
      obtain ⟨more', rfl⟩ := hliteral
      have hbody' := blockBody?_of_prefix hbody (List.prefix_append _ more')
      simp only [List.append_assoc, List.cons_append, List.nil_append, List.drop_succ_cons,
        List.drop_zero] at hbody' ⊢
      rw [hbody']
    · cases h
  · next hquotes =>
    split at h
    · next body hbody =>
      cases h
      rw [hopen (by simp), if_neg hquotes]
      have hliteral : body ++ [quote] <+: rest' :=
        (hbegins _ (by simp)).mpr (append_quote_of_lineBody? hbody)
      rw [lineBody?_of_isPrefix hbody hliteral]
    · cases h

/-! ## Blanks -/

/-- A blank begins no token. -/
theorem isBlank_of_scan (h : scan c rest = .ok lexeme) : Text.isBlank c = false := by
  unfold scan at h
  split at h
  · next hname =>
    apply isBlank_of_isNamePart
    simp only [isNameStart, isNamePart, Char.isAlphanum, Bool.or_eq_true] at hname ⊢
    exact hname.imp_left .inl
  split at h
  · next hdigit =>
    apply isBlank_of_isNamePart
    simp only [isNamePart, Char.isAlphanum, Bool.or_eq_true]
    exact .inl (.inr hdigit)
  split at h
  · next hquote =>
    simp only [Bool.or_eq_true, decide_eq_true_eq] at hquote
    rcases hquote with rfl | rfl <;> rfl
  split at h
  · rfl
  · split at h
    · next hsymbol =>
      unfold scanSymbol? at hsymbol
      dsimp only at hsymbol
      split at hsymbol <;> first | rfl | cases hsymbol
    · cases h

theorem more_le_length (h : scan c rest = .ok lexeme) : lexeme.more ≤ rest.length := by
  cases hc : Reader.isMark c with
  | true =>
    obtain hzero | ⟨-, body, hbody, hmore⟩ := of_scan_mark hc h
    · omega
    · have hlength := hbody.length_le
      rw [List.length_append, List.length_singleton] at hlength
      omega
  | false =>
    obtain ⟨word, ⟨hword, -⟩, hmore, -⟩ := coversPlain_scan hc h
    rw [← hmore]
    exact hword.length_le

end Lexer

/-! ## Lines -/

section

variable {b b' : Bool} {text text' word rest : List Char} {c : Char} {lexeme : Lexeme}

/-- The characters of a text, as cells without gaps. -/
abbrev ownCells (text : List Char) : List (Cell Char String) :=
  text.map .own

/-- Away from the start of a line, what stands before the next newline is kept. -/
theorem Dedents.of_line (hword : '\n' ∉ word)
    (h : Dedents false (ownCells (word ++ rest)) (ownCells text') b') :
    ∃ rest', text' = word ++ rest' ∧ Dedents false (ownCells rest) (ownCells rest') b' := by
  induction word generalizing text' with
  | nil => exact ⟨text', rfl, h⟩
  | cons c word ih =>
    simp only [List.mem_cons, not_or] at hword
    obtain ⟨after, hafter, hrest⟩ := h.of_cons_false
    obtain ⟨d, text', rfl, hd, rfl⟩ := List.map_eq_cons_iff.mp hafter
    cases hd
    rw [beq_false_of_ne (Ne.symm hword.1)] at hrest
    obtain ⟨rest', rfl, hrest'⟩ := ih hword.2 hrest
    exact ⟨rest', rfl, hrest'⟩

theorem Dedents.head?_own (h : Dedents false (ownCells text) (ownCells text') b') :
    text'.head? = text.head? := by
  have hcells := h.head?_of_false
  rw [List.head?_map, List.head?_map] at hcells
  exact Option.map_injective (fun _ _ heq => Cell.own.inj heq) hcells

theorem exists_line (text : List Char) :
    ∃ line rest, text = line ++ rest ∧ '\n' ∉ line ∧ ∀ c ∈ rest.head?, c = '\n' := by
  induction text with
  | nil => exact ⟨[], [], rfl, List.not_mem_nil, fun c hc => by cases hc⟩
  | cons c text ih =>
    by_cases hc : c = '\n'
    · refine ⟨[], c :: text, rfl, List.not_mem_nil, ?_⟩
      intro d hd
      cases hd
      exact hc
    · obtain ⟨line, rest, rfl, hline, hrest⟩ := ih
      refine ⟨c :: line, rest, rfl, ?_, hrest⟩
      exact List.not_mem_cons_of_ne_of_not_mem (Ne.symm hc) hline

/-- A token that covers no newline is the same after blanks were taken away, and so is what it covers.
A string literal must be known to cover none. -/
theorem Dedents.of_scan (h : scan c rest = .ok lexeme)
    (hstring : c ∈ quotes → '\n' ∉ rest.take lexeme.more)
    (hdedents : Dedents false (ownCells rest) (ownCells text') b') :
    scan c text' = .ok lexeme ∧
      Dedents false (ownCells (rest.drop lexeme.more)) (ownCells (text'.drop lexeme.more)) b' := by
  -- what stands before the next newline is common to both texts
  obtain ⟨line, tail, rfl, hline, htail⟩ := exists_line rest
  obtain ⟨tail', rfl, htails⟩ := hdedents.of_line hline
  have hbreak : ∀ text : List Char, text.head? = tail.head? → AtBreak text := by
    intro text htext d hd
    rw [htext] at hd
    rw [htail d hd]
    decide
  have hword : '\n' ∉ (line ++ tail).take lexeme.more := by
    by_cases hquote : c ∈ quotes
    · exact hstring hquote
    · rw [scan_append (hbreak tail rfl) hquote] at h
      rw [List.take_append_of_le_length (more_le_length h)]
      exact fun hmem => hline (List.mem_of_mem_take hmem)
  -- and so is what the token covers, with the character after it
  have hlength : ((line ++ tail).take lexeme.more).length = lexeme.more :=
    List.length_take_of_le (more_le_length h)
  have hsplit : line ++ tail = (line ++ tail).take lexeme.more ++ (line ++ tail).drop lexeme.more :=
    (List.take_append_drop lexeme.more _).symm
  generalize (line ++ tail).take lexeme.more = word at hword hlength hsplit
  generalize (line ++ tail).drop lexeme.more = rest at hsplit ⊢
  rw [hsplit] at hdedents
  obtain ⟨rest', hsplit', hrest⟩ := hdedents.of_line hword
  have hdrop : (line ++ tail').drop lexeme.more = rest' := by
    rw [hsplit', ← hlength, List.drop_left]
  refine ⟨?_, hdrop ▸ hrest⟩
  by_cases hquote : c ∈ quotes
  · rw [scan_quote hquote] at h ⊢
    apply scanString_of_take h
    rw [hsplit, hsplit', ← hlength, List.take_length_add_append, List.take_length_add_append,
      List.take_one, List.take_one, hrest.head?_own]
  · rw [← h, scan_append (hbreak tail rfl) hquote, scan_append (hbreak tail' htails.head?_own) hquote]

/-! ## Tokens -/

/-- String literals stand on one line each. -/
def OnLines (text : List Char) (tokens : List Spanned) : Prop :=
  ∀ t ∈ tokens, ∀ s, t.token = .str s → '\n' ∉ t.span.slice text

theorem str_of_scan (hc : c ∈ quotes) (h : scan c rest = .ok lexeme) :
    ∃ s, lexeme.token = .str s := by
  rw [scan_quote hc] at h
  unfold scanString at h
  dsimp only at h
  split at h <;> split at h <;> cases h <;> exact ⟨_, rfl⟩

/-- Taking away blanks at the starts of lines leaves the tokens as they are. The text goes on after
`front`, which was dealt with before. -/
theorem lexes_of_dedents {whole front : List Char} {tokens : List Spanned}
    (h : tokensFrom (byteLength front) text = .ok tokens) (hwhole : whole = front ++ text)
    (hlines : OnLines whole tokens) (hdedents : Dedents b (ownCells text) (ownCells text') b') :
    Lexes text' (tokens.map (·.token)) := by
  generalize ho : byteLength front = o at h
  fun_induction tokensFrom o text generalizing front tokens text' b with
  | case1 o =>
    cases h
    have hnil : ownCells text' = [] := hdedents.of_nil.1
    rw [List.map_eq_nil_iff.mp hnil]
    exact .nil
  | case2 o c rest hskip ih =>
    have hfront : byteLength (front ++ [c]) = o + c.utf8Size := by
      rw [Text.byteLength_append, ho]
      rfl
    have hwhole' : whole = front ++ [c] ++ rest := by rw [hwhole]; simp
    generalize hcells : ownCells text' = cells at hdedents
    cases hdedents with
    | keep hrest =>
      obtain ⟨d, text', rfl, hd, rfl⟩ := List.map_eq_cons_iff.mp hcells
      cases hd
      exact .skip hskip (ih hwhole' hlines hrest hfront h)
    | cut _ hrest =>
      rw [← hcells] at hrest
      exact ih hwhole' hlines hrest hfront h
  | case3 => cases h
  | case4 => cases h
  | case5 o c rest hskip lexeme hscan stop more hmore =>
    rename_i ih
    cases h
    have hskip : isSkipped c = false := by simpa using hskip
    have hnewline : (c == '\n') = false := by
      apply beq_false_of_ne
      rintro rfl
      cases hskip
    obtain ⟨cells, hcells, hrest⟩ := hdedents.of_cons (isBlank_of_scan hscan)
    obtain ⟨d, text', rfl, hd, rfl⟩ := List.map_eq_cons_iff.mp hcells
    cases hd
    rw [hnewline] at hrest
    obtain ⟨hfirst, hlater⟩ := List.forall_mem_cons.mp hlines
    -- the span of the token covers what the lexeme says
    have hwhole' : whole = front ++ c :: rest.take lexeme.more ++ rest.drop lexeme.more := by
      rw [hwhole]
      simp
    have hstring : c ∈ quotes → '\n' ∉ rest.take lexeme.more := by
      intro hquote hmem
      obtain ⟨s, hs⟩ := str_of_scan hquote hscan
      refine hfirst s hs ?_
      have hslice := Span.slice_over front (c :: rest.take lexeme.more) (rest.drop lexeme.more)
      rw [← hwhole', ho] at hslice
      exact hslice ▸ List.mem_cons_of_mem c hmem
    obtain ⟨hscan', hdedents'⟩ := Dedents.of_scan hscan hstring hrest
    refine .token hskip hscan' (ih hwhole' hlater hdedents' ?_ hmore)
    rw [Text.byteLength_append, ho]

end

theorem dedents_apply (text : List Char) :
    ∃ b, Dedents true (ownCells text) (ownCells (Dedent.apply text)) b := by
  have hcuts := (Dedent.cuts_spec text).2
  have htext : text = [] ++ cellsText (ownCells text) := by rw [cellsText_own]; rfl
  obtain ⟨b, hdedents⟩ := dedents_uncutCells hcuts [] htext fun _ => rfl
  have hcells : uncutCells (Dedent.cuts text) 0 (ownCells text ++ []) = _ :=
    uncutCells_own_append (Dedent.cuts text) 0 text []
  rw [List.append_nil] at hcells
  rw [Text.byteLength_nil, hcells, ← Dedent.apply_eq_uncut] at hdedents
  exact ⟨b, by simpa [uncutCells] using hdedents⟩

/-- Dedenting does not change the tokens of a text that is read, if no string literal in it goes over a
newline. -/
theorem tokens_apply_dedent {text : List Char} {tokens : List Spanned}
    (h : tokenize text = .ok tokens)
    (hlines : ∀ t ∈ tokens, ∀ s, t.token = .str s → '\n' ∉ t.span.slice text) :
    ∃ tokens', tokenize (Dedent.apply text) = .ok tokens' ∧
      tokens'.map (·.token) = tokens.map (·.token) := by
  obtain ⟨b, hdedents⟩ := dedents_apply text
  have hfront : tokensFrom (byteLength []) text = .ok tokens := h
  exact tokenize_eq_ok_iff.mpr
    (lexes_of_dedents hfront (List.nil_append text).symm hlines hdedents)

/-- Two blank lines in front and a margin of a tab and a space are cut out. -/
theorem tokens_apply_dedent_of_sum :
    let text := "\n  \n\t a +\n\t   'b  c'\n".toList
    let tokens := [⟨.name "a", ⟨6, 7⟩⟩, ⟨.symbol .plus, ⟨8, 9⟩⟩, ⟨.str "b  c", ⟨14, 20⟩⟩]
    tokenize text = .ok tokens ∧
      (∀ t ∈ tokens, ∀ s, t.token = .str s → '\n' ∉ t.span.slice text) ∧
      Dedent.apply text = "a +\n  'b  c'\n".toList ∧
      ∃ tokens', tokenize (Dedent.apply text) = .ok tokens' ∧
        tokens'.map (·.token) = tokens.map (·.token) := by
  have htokens : tokenize "\n  \n\t a +\n\t   'b  c'\n".toList =
      .ok [⟨.name "a", ⟨6, 7⟩⟩, ⟨.symbol .plus, ⟨8, 9⟩⟩, ⟨.str "b  c", ⟨14, 20⟩⟩] := by
    cbv
  have hlines : ∀ t ∈ [⟨.name "a", ⟨6, 7⟩⟩, ⟨.symbol .plus, ⟨8, 9⟩⟩, ⟨.str "b  c", ⟨14, 20⟩⟩],
      ∀ s, Spanned.token t = .str s →
        '\n' ∉ t.span.slice "\n  \n\t a +\n\t   'b  c'\n".toList := by
    have hfree : ∀ span ∈ ([⟨6, 7⟩, ⟨8, 9⟩, ⟨14, 20⟩] : List Span),
        '\n' ∉ span.slice "\n  \n\t a +\n\t   'b  c'\n".toList := by decide
    intro t ht s _
    refine hfree t.span ?_
    simpa using List.mem_map_of_mem (f := Spanned.span) ht
  exact ⟨htokens, hlines, by cbv, tokens_apply_dedent htokens hlines⟩

end ComponentMarkup
