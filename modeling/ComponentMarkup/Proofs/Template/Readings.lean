import ComponentMarkup.Proofs.Element.Reducing
import ComponentMarkup.Proofs.Template.CellTokens

/-!
# The tokens of an expression, piece by piece

The tokens that are read for an expression are those of its pieces, one after another. A gap gives its
placeholder between parentheses. A copied text gives tokens whose names were written in it: no name is
put together from two pieces, or across what dedenting takes away.
-/

namespace ComponentMarkup

open Lexer

variable {α : Type} {word t : List Char} {b' b : Bool} {marked : List (Cell Token String)}
  {n name : String} {rest : List (Cell Char String)}

/-! ## Names in copied text -/

/-- Away from the start of a line, the first characters were the first before. -/
theorem Dedents.prefix_own (hword : '\n' ∉ word) {cells out : List (Cell Char α)}
    (h : Dedents false cells out b') (hbegins : word.map .own <+: out) :
    word.map .own <+: cells := by
  induction word generalizing cells out with
  | nil => exact List.nil_prefix
  | cons c word ih =>
    simp only [List.mem_cons, not_or] at hword
    rw [List.map_cons] at hbegins ⊢
    cases h with
    | nil => cases List.prefix_nil.mp hbegins
    | gap _ =>
      obtain ⟨hc, -⟩ := List.cons_prefix_cons.mp hbegins
      cases hc
    | keep hrest =>
      obtain ⟨hc, hmore⟩ := List.cons_prefix_cons.mp hbegins
      cases hc
      rw [beq_false_of_ne (Ne.symm hword.1)] at hrest
      exact List.cons_prefix_cons.mpr ⟨rfl, ih hword.2 hrest hmore⟩

/-- Dedenting does not bring characters of one line together. -/
theorem Dedents.infix_own (hword : '\n' ∉ word) {cells out : List (Cell Char α)}
    (h : Dedents b cells out b') (hwithin : word.map .own <:+: out) : word.map .own <:+: cells := by
  induction h with
  | nil => exact hwithin
  | @keep _ c _ _ _ hrest ih =>
    rcases List.infix_cons_iff.mp hwithin with hbegins | hwithin
    · -- the word begins here, and its characters stay behind the first one
      cases word with
      | nil => exact List.nil_infix
      | cons d word =>
        simp only [List.mem_cons, not_or] at hword
        obtain ⟨hd, hmore⟩ := List.cons_prefix_cons.mp hbegins
        cases hd
        rw [beq_false_of_ne (Ne.symm hword.1)] at hrest
        exact (List.cons_prefix_cons.mpr ⟨rfl, hrest.prefix_own hword.2 hmore⟩).isInfix
    · exact List.infix_cons (ih hwithin)
  | gap _ ih =>
    rcases List.infix_cons_iff.mp hwithin with hbegins | hwithin
    · cases word with
      | nil => exact List.nil_infix
      | cons d word =>
        obtain ⟨hd, -⟩ := List.cons_prefix_cons.mp hbegins
        cases hd
    · exact List.infix_cons (ih hwithin)
  | cut _ _ ih => exact List.infix_cons (ih hwithin)

/-- The characters of a text without gaps are those of its cells. -/
theorem infix_of_infix_own (h : word.map (.own : Char → Cell Char α) <:+: t.map .own) :
    word <:+: t := by
  obtain ⟨front, back, hcells⟩ := h
  obtain ⟨first, after, rfl, hfirst, -⟩ := List.map_eq_append_iff.mp hcells.symm
  obtain ⟨before, word', rfl, -, hword⟩ := List.map_eq_append_iff.mp hfirst
  rw [(List.map_inj_right fun _ _ => Cell.own.inj).mp hword]
  exact ⟨before, after, rfl⟩

/-- The names of a text without gaps stand in it. -/
theorem TokensOf.infix_of_name (h : TokensOf (t.map .own) marked)
    (hn : .name n ∈ cellsTokens marked) : n.toList <:+: t := by
  generalize hcells : t.map Cell.own = cells at h
  induction h generalizing t with
  | nil => cases hn
  | skip _ ih =>
    obtain ⟨c, t, rfl, -, rfl⟩ := List.map_eq_cons_iff.mp hcells
    exact List.infix_cons (ih hn rfl)
  | token _ hname _ ih =>
    obtain ⟨word, rest, rfl, hword, rfl⟩ := List.map_eq_append_iff.mp hcells
    have hword := (List.map_inj_right fun _ _ => Cell.own.inj).mp hword
    rcases List.mem_append.mp hn with hn | hn
    · rw [Cell.tokens, List.mem_singleton] at hn
      rw [hname n hn.symm, ← hword]
      exact ⟨[], rest, rfl⟩
    · exact (ih hn rfl).trans (List.suffix_append word rest).isInfix
  | gap _ _ =>
    obtain ⟨c, t, -, hc, -⟩ := List.map_eq_cons_iff.mp hcells
    cases hc

/-! ## Gaps keep texts apart -/

theorem Dedents.of_gap {a : α} {rest out : List (Cell Char α)}
    (h : Dedents b (.gap a :: rest) out b') :
    ∃ rest', out = .gap a :: rest' ∧ Dedents false rest rest' b' := by
  cases h with
  | gap h => exact ⟨_, rfl, h⟩

theorem Dedents.mem_of_gap {cells out : List (Cell Char α)} (h : Dedents b cells out b') {a : α}
    (ha : .gap a ∈ out) : .gap a ∈ cells := by
  induction h with
  | nil => exact ha
  | keep _ ih =>
    rcases List.mem_cons.mp ha with ha | ha
    · cases ha
    · exact List.mem_cons_of_mem _ (ih ha)
  | gap _ ih =>
    rcases List.mem_cons.mp ha with ha | ha
    · cases ha
      exact List.mem_cons_self
    · exact List.mem_cons_of_mem _ (ih ha)
  | cut _ _ ih => exact List.mem_cons_of_mem _ (ih ha)

theorem Dedents.exists_own {out : List (Cell Char α)} (h : Dedents b (t.map .own) out b') :
    ∃ t' : List Char, out = t'.map .own := by
  induction t generalizing b out with
  | nil => exact ⟨[], h.of_nil.1⟩
  | cons c t ih =>
    cases h with
    | keep h =>
      obtain ⟨t', rfl⟩ := ih h
      exact ⟨c :: t', rfl⟩
    | cut _ h => exact ih h

theorem TokensOf.eq_nil (h : TokensOf [] marked) : marked = [] := by
  generalize hcells : ([] : List (Cell Char String)) = cells at h
  cases h with
  | nil => rfl
  | skip _ => cases hcells
  | token hword _ _ =>
    have hempty := (List.append_eq_nil_iff.mp hcells.symm).1
    exact absurd (List.map_eq_nil_iff.mp hempty) hword
  | gap _ => cases hcells

theorem TokensOf.of_gap (h : TokensOf (.gap name :: rest) marked) :
    ∃ marked', marked = .gap name :: marked' ∧ TokensOf rest marked' := by
  generalize hcells : Cell.gap name :: rest = cells at h
  cases h with
  | nil => cases hcells
  | skip _ => cases hcells
  | @token word _ _ _ hword _ _ =>
    cases word with
    | nil => exact absurd rfl hword
    | cons c word => cases hcells
  | gap h =>
    cases hcells
    exact ⟨_, rfl, h⟩

/-- The tokens in front of a gap come from the text in front of it. -/
theorem TokensOf.of_append_gap (h : TokensOf (t.map .own ++ .gap name :: rest) marked) :
    ∃ front back, marked = front ++ back ∧ TokensOf (t.map .own) front ∧
      TokensOf (.gap name :: rest) back := by
  generalize hcells : t.map Cell.own ++ .gap name :: rest = cells at h
  induction h generalizing t with
  | nil => cases (List.append_eq_nil_iff.mp hcells).2
  | skip h ih =>
    cases t with
    | nil => cases hcells
    | cons c t =>
      obtain ⟨-, hcells⟩ := List.cons.inj hcells
      obtain ⟨front, back, hmarked, hfront, hback⟩ := ih hcells
      exact ⟨front, back, hmarked, .skip hfront, hback⟩
  | @token word token rest' marked hword hname h ih =>
    -- the characters of a token are no gap, so they all stand in front of it
    rcases List.append_eq_append_iff.mp hcells with ⟨mid, hmid, hgap⟩ | ⟨mid, hmid, hrest⟩
    · cases mid with
      | nil =>
        rw [List.append_nil] at hmid
        refine ⟨[.own token], marked, rfl, ?_, hgap ▸ h⟩
        rw [← hmid, ← List.append_nil (List.map Cell.own word)]
        exact .token hword hname .nil
      | cons cell mid =>
        obtain ⟨rfl, -⟩ := List.cons.inj hgap
        have hmem : Cell.gap name ∈ word.map Cell.own := hmid ▸ by simp
        obtain ⟨c, -, hc⟩ := List.mem_map.mp hmem
        cases hc
    · obtain ⟨word', t', rfl, hword', rfl⟩ := List.map_eq_append_iff.mp hmid
      obtain ⟨front, back, hmarked, hfront, hback⟩ := ih hrest.symm
      refine ⟨.own token :: front, back, by rw [hmarked]; rfl, ?_, hback⟩
      rw [List.map_append, hword']
      exact .token hword hname hfront
  | gap h _ =>
    cases t with
    | nil =>
      cases hcells
      exact ⟨[], _, rfl, .nil, .gap h⟩
    | cons c t => cases hcells

/-! ## Pieces and their tokens -/

namespace Lowering

variable {segments : List Segment} {pieces : List Piece}

/-- The piece that a segment becomes. -/
inductive PieceOf : Segment → Piece → Prop where
  | copy (text : List Char) (span : Span) : PieceOf ⟨text, span, none⟩ (.copy text span.start)
  | gap (text : List Char) (span : Span) (e : Element) (name : String) (filling : Expr) :
      PieceOf ⟨text, span, some e⟩ (.gap name span filling)

/-- The tokens that a piece gives. -/
def Piece.Gives : Piece → List Token → Prop
  | .copy text _, part => ∀ n, .name n ∈ part → n.toList <:+: text
  | .gap name _ _, part => part = [.symbol .lparen, .name name, .symbol .rparen]

/-- The tokens of a copied text, with what dedenting leaves of it. -/
theorem gives_copy {text : List Char} {o : Nat}
    (hdedents : Dedents b (text.map (.own : Char → Cell Char String)) (t.map .own) b')
    (htokens : TokensOf (t.map .own) marked)
    (hnames : ∀ n, .name n ∈ cellsTokens marked → '\n' ∉ n.toList) :
    (Piece.copy text o).Gives (cellsTokens marked) := by
  intro n hn
  apply infix_of_infix_own
  exact hdedents.infix_own (hnames n hn) ((htokens.infix_of_name hn).map _)

theorem exists_parts {template : List Char} (halternate : Alternate template segments)
    (hpieces : List.Forall₂ PieceOf segments pieces) {out : List (Cell Char String)}
    (hdedents : Dedents b (pieces.flatMap Piece.cells) out b') (htokens : TokensOf out marked)
    (hnames : ∀ n, .name n ∈ cellsTokens marked → '\n' ∉ n.toList) :
    ∃ parts, List.Forall₂ Piece.Gives pieces parts ∧ cellsTokens marked = parts.flatten := by
  induction halternate generalizing pieces b out marked with
  | nil =>
    cases hpieces
    obtain ⟨rfl, -⟩ := hdedents.of_nil
    rw [htokens.eq_nil]
    exact ⟨[], .nil, rfl⟩
  | run _ =>
    obtain ⟨piece, rest, hpiece, hrest, rfl⟩ := List.forall₂_cons_left_iff.mp hpieces
    cases hrest
    cases hpiece with
    | copy text span =>
      rw [List.flatMap_cons, List.flatMap_nil, List.append_nil, Piece.cells] at hdedents
      obtain ⟨t, rfl⟩ := hdedents.exists_own
      exact ⟨[cellsTokens marked], .cons (gives_copy hdedents htokens hnames) .nil, by simp⟩
  | nested _ ih =>
    obtain ⟨piece, rest, hpiece, hrest, rfl⟩ := List.forall₂_cons_left_iff.mp hpieces
    cases hpiece with
    | gap text span e name filling =>
      rw [List.flatMap_cons, Piece.cells, List.singleton_append] at hdedents
      obtain ⟨out', rfl, hdedents'⟩ := hdedents.of_gap
      obtain ⟨marked', rfl, htokens'⟩ := htokens.of_gap
      obtain ⟨parts, hparts, hflat⟩ := ih hrest hdedents' htokens' (by
        intro n hn
        exact hnames n (List.mem_append_right _ hn))
      refine ⟨_ :: parts, .cons rfl hparts, ?_⟩
      rw [cellsTokens_cons, hflat]
      rfl
  | @runNested run runSpan _ _ _ _ _ _ ih =>
    obtain ⟨first, more, hfirst, hmore, rfl⟩ := List.forall₂_cons_left_iff.mp hpieces
    obtain ⟨second, rest, hsecond, hrest, rfl⟩ := List.forall₂_cons_left_iff.mp hmore
    cases hfirst with
    | copy _ _ =>
      cases hsecond with
      | gap _ _ _ name filling =>
        rw [List.flatMap_cons, List.flatMap_cons, Piece.cells, Piece.cells,
          List.singleton_append] at hdedents
        -- no token reaches into the gap, so the tokens of the run end in front of it
        obtain ⟨front, back, mid, rfl, hfront, hback⟩ := hdedents.of_append
        obtain ⟨t, rfl⟩ := hfront.exists_own
        obtain ⟨back, rfl, hback'⟩ := hback.of_gap
        obtain ⟨front', back', rfl, hfront', hgap⟩ := htokens.of_append_gap
        obtain ⟨marked', rfl, hback''⟩ := hgap.of_gap
        obtain ⟨parts, hparts, hflat⟩ := ih hrest hback' hback'' (by
          intro n hn
          refine hnames n ?_
          rw [cellsTokens_append, cellsTokens_cons]
          exact List.mem_append_right _ (List.mem_append_right _ hn))
        have hcopy : (Piece.copy run runSpan.start).Gives (cellsTokens front') := by
          refine gives_copy hfront hfront' ?_
          intro n hn
          exact hnames n (by rw [cellsTokens_append]; exact List.mem_append_left _ hn)
        refine ⟨_ :: _ :: parts, .cons hcopy (.cons rfl hparts), ?_⟩
        rw [cellsTokens_append, cellsTokens_cons, hflat]
        rfl

/-- The placeholders among pieces. -/
def gapNames (pieces : List Piece) : List String :=
  (pieces.filterMap Piece.filling?).map Prod.fst

theorem mem_gapNames : name ∈ gapNames pieces ↔ .gap name ∈ pieces.flatMap Piece.cells := by
  induction pieces with
  | nil => simp [gapNames]
  | cons piece rest ih =>
    rw [List.flatMap_cons, List.mem_append, ← ih]
    cases piece with
    | copy text start => simp [gapNames, Piece.filling?, Piece.cells]
    | gap name' span filling => simp [gapNames, Piece.filling?, Piece.cells]

/-- The cells of pieces are those of the segments, with placeholders for the nested elements. -/
theorem own?_pieces (h : List.Forall₂ PieceOf segments pieces) :
    (pieces.flatMap Piece.cells).map Cell.own? =
      (segments.flatMap Segment.cells).map Cell.own? := by
  induction h with
  | nil => rfl
  | cons hpiece _ ih =>
    rw [List.flatMap_cons, List.flatMap_cons, List.map_append, List.map_append, ih]
    cases hpiece with
    | copy text span => rw [Piece.cells, Segment.cells, own?_map_own, own?_map_own]
    | gap text span e name filling => rfl

end Lowering

/-- The tokens of an expression of a kind. The items of a list get brackets around them. -/
def FragmentKind.tokens : FragmentKind → List Token → List Token
  | .scalar, ts => ts
  | .list, ts => .symbol .lbracket :: ts ++ [.symbol .rbracket]

theorem newline_not_mem_name (h : IsName n) : '\n' ∉ n.toList := by
  have hword := h.word
  intro hmem
  cases htext : n.toList with
  | nil =>
    rw [htext] at hmem
    cases hmem
  | cons c more =>
    rw [htext, isWord, Bool.and_eq_true, List.all_eq_true] at hword
    rw [htext] at hmem
    rcases List.mem_cons.mp hmem with rfl | hmem
    · exact absurd hword.1 (by decide)
    · exact absurd (hword.2 _ hmem) (by decide)

namespace Lowering

variable {pieces : List Piece}

theorem tokensOf_readCells {segments : List Segment}
    (hbalanced : Balanced (segments.flatMap Segment.cells))
    (hpieces : List.Forall₂ PieceOf segments pieces)
    (hnames : ∀ name ∈ gapNames pieces, IsName name) {tail : List Char} (htail : Closes tail)
    {tokens : List Token} (h : Lexes (cellsText (readCells pieces) ++ tail) tokens) :
    ∃ marked rest, tokens = cellsTokens marked ++ rest ∧ TokensOf (readCells pieces) marked ∧
      BalancedTokens (cellsTokens marked) ∧ Lexes tail rest := by
  obtain ⟨b, hdedents⟩ := dedents_readCells pieces
  have hcells : Balanced (readCells pieces) :=
    (hbalanced.of_own? (own?_pieces hpieces)).dedents hdedents
  refine tokensOf_of_lexes hcells ?_ htail h
  intro name hname
  exact hnames name (mem_gapNames.mpr (hdedents.mem_of_gap hname))

/-- The tokens of an expression are those of its pieces. -/
theorem exists_parts_of_lexes {template : List Char} {source : EmbeddedExpr}
    (hfrom : source.IsFrom template) (hpieces : List.Forall₂ PieceOf source.segments pieces)
    (hnames : ∀ name ∈ gapNames pieces, IsName name) {kind : FragmentKind} {tokens : List Token}
    (h : Lexes (spliceExpr kind pieces).text tokens) :
    ∃ parts, List.Forall₂ Piece.Gives pieces parts ∧ tokens = kind.tokens parts.flatten ∧
      BalancedTokens parts.flatten := by
  obtain ⟨b, hdedents⟩ := dedents_readCells pieces
  have hread := isRead_of_lexes h
  -- the tokens between the brackets, if there are any
  have hparts : ∀ {marked}, TokensOf (readCells pieces) marked →
      (∀ t ∈ cellsTokens marked, t ∈ tokens) →
      ∃ parts, List.Forall₂ Piece.Gives pieces parts ∧ cellsTokens marked = parts.flatten := by
    intro marked hmarked hsub
    refine exists_parts hfrom.alternate hpieces hdedents hmarked ?_
    intro n hn
    exact newline_not_mem_name (hread _ (hsub _ hn))
  rw [text_spliceExpr] at h
  cases kind with
  | scalar =>
    rw [← List.append_nil (cellsText (readCells pieces))] at h
    obtain ⟨marked, rest, htokens, hmarked, hbalanced, hrest⟩ :=
      tokensOf_readCells hfrom.balanced hpieces hnames (by intro c hc; cases hc) h
    cases hrest
    rw [List.append_nil] at htokens
    obtain ⟨parts, hgives, hflat⟩ := hparts hmarked fun t ht => htokens ▸ ht
    exact ⟨parts, hgives, htokens.trans hflat, hflat ▸ hbalanced⟩
  | list =>
    obtain ⟨tokens', rfl, h'⟩ := lexes_cons_mark (s := .lbracket) (by decide) h
    obtain ⟨marked, rest, rfl, hmarked, hbalanced, hrest⟩ :=
      tokensOf_readCells hfrom.balanced hpieces hnames (by intro c hc; cases hc; rfl) h'
    obtain ⟨rest', rfl, hrest'⟩ := lexes_cons_mark (s := .rbracket) (by decide) hrest
    cases hrest'
    obtain ⟨parts, hgives, hflat⟩ := hparts hmarked fun t ht => by simp [ht]
    exact ⟨parts, hgives, by rw [hflat]; rfl, hflat ▸ hbalanced⟩

end Lowering

end ComponentMarkup
