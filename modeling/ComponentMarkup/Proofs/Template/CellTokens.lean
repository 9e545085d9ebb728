import ComponentMarkup.Proofs.Expr.Brackets
import ComponentMarkup.Proofs.Template.Splicing

/-!
# Tokens of texts with gaps

The tokens of a balanced text with gaps. No token reaches from a character of the text into a gap or
across one, so a gap is read as its placeholder between parentheses, whatever stands around it. All
other tokens come from the text itself; `TokensOf` says which characters a token comes from, as far as
names are concerned. The brackets among the tokens match.
-/

namespace ComponentMarkup

open Lexer

variable {cells : List (Cell Char String)} {t tail : List Char}

/-- The tokens of a cell: its own, or the placeholder between parentheses. -/
def Cell.tokens : Cell Token String → List Token
  | .own t => [t]
  | .gap name => [.symbol .lparen, .name name, .symbol .rparen]

/-- The tokens of cells. -/
def cellsTokens (marked : List (Cell Token String)) : List Token :=
  marked.flatMap Cell.tokens

@[simp]
theorem cellsTokens_cons (cell : Cell Token String) (rest : List (Cell Token String)) :
    cellsTokens (cell :: rest) = cell.tokens ++ cellsTokens rest := rfl

@[simp]
theorem cellsTokens_append (marked more : List (Cell Token String)) :
    cellsTokens (marked ++ more) = cellsTokens marked ++ cellsTokens more :=
  List.flatMap_append

/-- The characters of a text with gaps make up tokens; the characters of a name stand next to each
other. -/
inductive TokensOf : List (Cell Char String) → List (Cell Token String) → Prop where
  | nil : TokensOf [] []
  | skip {c rest marked} : TokensOf rest marked → TokensOf (.own c :: rest) marked
  | token {word token rest marked} : word ≠ [] → (∀ n, token = .name n → n.toList = word) →
      TokensOf rest marked → TokensOf (word.map .own ++ rest) (.own token :: marked)
  | gap {name rest marked} : TokensOf rest marked →
      TokensOf (.gap name :: rest) (.gap name :: marked)

theorem TokensOf.append {more : List (Cell Char String)}
    {marked marked' : List (Cell Token String)} (h : TokensOf cells marked)
    (h' : TokensOf more marked') : TokensOf (cells ++ more) (marked ++ marked') := by
  induction h with
  | nil => exact h'
  | skip _ ih => exact .skip ih
  | token hword hname _ ih =>
    rw [List.append_assoc]
    exact .token hword hname ih
  | gap _ ih => exact .gap ih

/-- A single character as a token. -/
theorem TokensOf.symbol {c : Char} {s : Symbol} {rest : List (Cell Char String)}
    {marked : List (Cell Token String)} (h : TokensOf rest marked) :
    TokensOf (.own c :: rest) (.own (.symbol s) :: marked) := by
  have hname : ∀ n, Token.symbol s = .name n → n.toList = [c] := by
    intro n hn
    cases hn
  exact TokensOf.token (List.cons_ne_nil c []) hname h

/-! ## Where cells end -/

/-- A text is empty or begins with a closing bracket. -/
def Closes (tail : List Char) : Prop :=
  ∀ c ∈ tail.head?, Reader.isCloser c = true

theorem isMark_of_isCloser {c : Char} (h : Reader.isCloser c = true) : Reader.isMark c = true := by
  simp [Reader.isMark, h]

theorem isMark_of_mem_groups {rule : Rule} {opening closing : Char}
    (h : (rule, opening, closing) ∈ groups) :
    Reader.isMark opening = true ∧ Reader.isCloser closing = true := by
  simp only [groups, List.mem_cons, Prod.mk.injEq, List.not_mem_nil, or_false] at h
  rcases h with ⟨-, rfl, rfl⟩ | ⟨-, rfl, rfl⟩ | ⟨-, rfl, rfl⟩ <;> exact ⟨rfl, rfl⟩

/-- A string literal begins with a quote. -/
theorem IsStringLiteral.head (ht : IsStringLiteral t) :
    ∃ quote rest, t = quote :: rest ∧ Reader.isMark quote = true := by
  obtain ⟨quotes, hquotes, body, -, rfl⟩ := ht
  simp only [stringQuotes, List.mem_cons, List.not_mem_nil, or_false] at hquotes
  rcases hquotes with rfl | rfl | rfl | rfl <;> exact ⟨_, _, rfl, rfl⟩

/-- Plain text at the start of balanced cells is made of their first characters. -/
theorem Balanced.of_begins (hcells : Balanced cells) {word : List Char} (htail : Closes tail)
    (h : Begins word (cellsText cells ++ tail)) :
    ∃ rest, cells = word.map .own ++ rest ∧ Balanced rest := by
  induction word generalizing cells with
  | nil => exact ⟨cells, rfl, hcells⟩
  | cons c word ih =>
    obtain ⟨hbegins, hplain⟩ := h
    obtain ⟨hc, hplain⟩ := plain_cons.mp hplain
    -- anything but a plain character would put a mark first
    have hfirst : ∀ {d more}, cellsText cells ++ tail = d :: more → Reader.isMark d = false := by
      intro d more htext
      rw [htext, List.cons_prefix_cons] at hbegins
      rwa [← hbegins.1]
    cases hcells with
    | nil =>
      cases tail with
      | nil => cases List.prefix_nil.mp hbegins
      | cons d tail =>
        have hmark := isMark_of_isCloser (htail d rfl)
        rw [hfirst rfl] at hmark
        cases hmark
    | plain _ hrest =>
      rw [cellsText_cons, Cell.text, List.singleton_append, List.cons_append,
        List.cons_prefix_cons] at hbegins
      obtain ⟨rfl, hbegins⟩ := hbegins
      obtain ⟨rest', rfl, hrest'⟩ := ih hrest ⟨hbegins, hplain⟩
      exact ⟨rest', rfl, hrest'⟩
    | string ht _ _ =>
      obtain ⟨quote, more, rfl, hmark⟩ := ht.head
      rw [cellsText_append, cellsText_own] at hfirst
      rw [hfirst rfl] at hmark
      cases hmark
    | gap _ =>
      have hmark : Reader.isMark '(' = false := hfirst rfl
      cases hmark
    | group hgroup _ _ =>
      have hmark := (isMark_of_mem_groups hgroup).1
      rw [hfirst rfl] at hmark
      cases hmark

/-- What follows a string literal among cells does not make it longer. -/
theorem EndsBeforeCells.endsBefore {rest : List (Cell Char String)} (h : EndsBeforeCells t rest)
    (htail : Closes tail) : EndsBefore t (cellsText rest ++ tail) := by
  intro quote hquote htwo hhead
  have hmark : quote ≠ '(' ∧ Reader.isCloser quote = false := by
    simp only [stringQuotes, List.mem_cons, List.cons.injEq, List.not_mem_nil, or_false, and_true,
      reduceCtorEq, and_false, false_or] at hquote
    rcases hquote with rfl | rfl <;> exact ⟨by decide, rfl⟩
  cases rest with
  | nil =>
    have hcloser := htail quote hhead
    rw [hmark.2] at hcloser
    cases hcloser
  | cons cell rest =>
    cases cell with
    | own c =>
      cases hhead
      exact h quote hquote htwo rfl
    | gap name =>
      cases hhead
      exact hmark.1 rfl

/-! ## The tokens of balanced cells -/

/-- The tokens of balanced cells and of the text behind them. -/
theorem tokensOf_of_lexes (hcells : Balanced cells)
    (hnames : ∀ name, .gap name ∈ cells → IsName name) (htail : Closes tail) {tokens : List Token}
    (h : Lexes (cellsText cells ++ tail) tokens) :
    ∃ marked rest, tokens = cellsTokens marked ++ rest ∧ TokensOf cells marked ∧
      BalancedTokens (cellsTokens marked) ∧ Lexes tail rest := by
  -- a token may cover several cells, so the induction is on their number
  generalize hlen : cells.length = size
  induction size using Nat.strongRecOn generalizing cells tail tokens with
  | ind size ih =>
  subst hlen
  cases hcells with
  | nil => exact ⟨[], tokens, rfl, .nil, .nil, h⟩
  | @plain c rest hc hrest =>
    rw [cellsText_cons, Cell.text, List.singleton_append, List.cons_append] at h
    cases h with
    | skip _ h =>
      obtain ⟨marked, more, htokens, hof, hbalanced, hmore⟩ := ih rest.length (by simp) hrest
        (fun name hname => hnames name (List.mem_cons_of_mem _ hname)) htail h rfl
      exact ⟨marked, more, htokens, .skip hof, hbalanced, hmore⟩
    | @token _ _ lexeme tokens _ hscan h =>
      obtain ⟨word, hbegins, hlen, hbracket, hname⟩ := coversPlain_scan hc hscan
      obtain ⟨rest', rfl, hrest'⟩ := hrest.of_begins htail hbegins
      rw [cellsText_append, cellsText_own, ← hlen, List.append_assoc, List.drop_left] at h
      obtain ⟨marked, more, htokens, hof, hbalanced, hmore⟩ := ih rest'.length
        (by simp only [List.length_cons, List.length_append]; omega) hrest'
        (fun name hname => hnames name (by simp [hname])) htail h rfl
      refine ⟨.own lexeme.token :: marked, more, by rw [htokens]; rfl, ?_, .other hbracket hbalanced,
        hmore⟩
      exact TokensOf.token (List.cons_ne_nil c word) hname hof
  | @string t rest ht hends hrest =>
    rw [cellsText_append, cellsText_own, List.append_assoc] at h
    obtain ⟨text, tokens', rfl, h'⟩ := lexes_literal ht (hends.endsBefore htail) h
    have hlt : rest.length < (t.map Cell.own ++ rest).length := by
      obtain ⟨quote, body, rfl, -⟩ := ht.head
      simp only [List.map_cons, List.length_append, List.length_cons]
      omega
    obtain ⟨marked, more, rfl, hof, hbalanced, hmore⟩ := ih rest.length hlt hrest
      (fun name hname => hnames name (by simp [hname])) htail h' rfl
    have hne : t ≠ [] := by
      obtain ⟨quote, body, rfl, -⟩ := ht.head
      exact List.cons_ne_nil quote body
    refine ⟨.own (.str text) :: marked, more, rfl, .token hne ?_ hof, .other rfl hbalanced, hmore⟩
    intro n hn
    cases hn
  | @gap name rest hrest =>
    have hassoc : cellsText (.gap name :: rest) ++ tail =
        '(' :: (name.toList ++ ')' :: (cellsText rest ++ tail)) := by
      simp [Cell.text]
    rw [hassoc] at h
    obtain ⟨tokens₁, rfl, h₁⟩ := lexes_cons_mark (s := .lparen) (by decide) h
    obtain ⟨tokens₂, rfl, h₂⟩ := of_lexes_name (hnames name List.mem_cons_self)
      (stops_cons (by decide)) h₁
    obtain ⟨tokens₃, rfl, h₃⟩ := lexes_cons_mark (s := .rparen) (by decide) h₂
    obtain ⟨marked, more, rfl, hof, hbalanced, hmore⟩ := ih rest.length (by simp) hrest
      (fun name hname => hnames name (List.mem_cons_of_mem _ hname)) htail h₃ rfl
    refine ⟨.gap name :: marked, more, rfl, .gap hof, ?_, hmore⟩
    exact .group (s := .lparen) (by decide) (.other rfl .nil) hbalanced
  | @group rule opening closing inner rest hgroup hinner hrest =>
    obtain ⟨s, s', hs, hopening, hclosing⟩ := scan_group hgroup
    have hassoc : cellsText (.own opening :: inner ++ .own closing :: rest) ++ tail =
        opening :: (cellsText inner ++ closing :: (cellsText rest ++ tail)) := by
      simp [Cell.text]
    rw [hassoc] at h
    obtain ⟨tokens₁, rfl, h₁⟩ := lexes_cons_mark hopening h
    have hcloses : Closes (closing :: (cellsText rest ++ tail)) := by
      intro c hc
      cases hc
      exact (isMark_of_mem_groups hgroup).2
    obtain ⟨marked, more, rfl, hof, hbalanced, hmore⟩ := ih inner.length
      (by simp only [List.length_append, List.length_cons]; omega) hinner
      (fun name hname => hnames name (by simp [hname])) hcloses h₁ rfl
    obtain ⟨tokens₂, rfl, h₂⟩ := lexes_cons_mark hclosing hmore
    obtain ⟨marked', more, rfl, hof', hbalanced', hmore'⟩ := ih rest.length
      (by simp only [List.length_append, List.length_cons]; omega) hrest
      (fun name hname => hnames name (by simp [hname])) htail h₂ rfl
    refine ⟨.own (.symbol s) :: marked ++ .own (.symbol s') :: marked', more, ?_, ?_, ?_, hmore'⟩
    · simp [Cell.tokens]
    · exact .append (.symbol hof) (.symbol hof')
    · rw [cellsTokens_append, cellsTokens_cons, cellsTokens_cons]
      exact .group hs hbalanced hbalanced'

end ComponentMarkup
