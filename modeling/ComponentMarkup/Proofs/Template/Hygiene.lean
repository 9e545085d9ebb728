import ComponentMarkup.Proofs.Expr.Filling
import ComponentMarkup.Proofs.Expr.Occurrences
import ComponentMarkup.Proofs.Expr.Reading
import ComponentMarkup.Proofs.Template.Numbers

/-!
# Placeholders in readings

What is read for an expression of a template: each placeholder stands among the tokens exactly once, in
the parentheses of its gap, and no name that the template contains equals any placeholder. So a
placeholder occurs in the tree exactly once, as a leaf or as a name that a comprehension binds, and
filling the tree replaces just those leaves.
-/

namespace ComponentMarkup

open Lexer

namespace Lowering

variable {template text : List Char} {n p : String} {pieces : List Piece}
  {segments : List Segment} {start : Nat} {parts : List (List Token)} {ts : List Token}

/-- Pieces as the expressions of a template give them. -/
structure IsReading (template : List Char) (pieces : List Piece) : Prop where
  source : ∃ source : EmbeddedExpr, source.IsFrom template ∧
    List.Forall₂ PieceOf source.segments pieces
  constructions : ∀ part ∈ pieces.filterMap Piece.filling?, part.2.IsConstruction
  names : ∀ p ∈ gapNames pieces, ∃ k, p = numbered (stemFor template) k
  nodup : (gapNames pieces).Nodup

theorem PiecesFrom.isReading {vocabulary : Vocabulary} {source : EmbeddedExpr} {n n' : Nat}
    (h : PiecesFrom (contextFor template vocabulary) source.segments n n' pieces)
    (hfrom : source.IsFrom template) : IsReading template pieces := by
  refine ⟨⟨source, hfrom, h.aligned⟩, h.constructions, ?_, h.nodup⟩
  intro p hp
  obtain ⟨ks, hnames, -, -⟩ := h.numbers
  rw [hnames] at hp
  obtain ⟨k, -, rfl⟩ := List.mem_map.mp hp
  exact ⟨k, rfl⟩

/-! ## Tokens -/

/-- A plain run of a segmented source is a part of the template. -/
theorem infix_of_alternate (h : Alternate template segments) {span : Span}
    (hmem : ⟨text, span, none⟩ ∈ segments) : text <:+: template := by
  induction h with
  | nil => cases hmem
  | run hrun =>
    cases List.mem_singleton.mp hmem
    exact hrun
  | nested _ ih =>
    rcases List.mem_cons.mp hmem with hmem | hmem
    · cases hmem
    · exact ih hmem
  | runNested hrun _ ih =>
    rcases List.mem_cons.mp hmem with hmem | hmem
    · cases hmem
      exact hrun
    rcases List.mem_cons.mp hmem with hmem | hmem
    · cases hmem
    · exact ih hmem

theorem exists_segment_of_copy (h : List.Forall₂ PieceOf segments pieces)
    (hmem : .copy text start ∈ pieces) : ∃ span, ⟨text, span, none⟩ ∈ segments := by
  induction h with
  | nil => cases hmem
  | cons hpiece _ ih =>
    rcases List.mem_cons.mp hmem with rfl | hmem
    · cases hpiece
      exact ⟨_, List.mem_cons_self⟩
    · obtain ⟨span, hspan⟩ := ih hmem
      exact ⟨span, List.mem_cons_of_mem _ hspan⟩

theorem IsReading.infix_of_copy (h : IsReading template pieces) (hmem : .copy text start ∈ pieces) :
    text <:+: template := by
  obtain ⟨source, hfrom, haligned⟩ := h.source
  obtain ⟨span, hspan⟩ := exists_segment_of_copy haligned hmem
  exact infix_of_alternate hfrom.alternate hspan

theorem name_mem_parts (h : List.Forall₂ Piece.Gives pieces parts) (hn : .name n ∈ parts.flatten) :
    n ∈ gapNames pieces ∨ ∃ text start, .copy text start ∈ pieces ∧ n.toList <:+: text := by
  induction h with
  | nil => cases hn
  | @cons piece part pieces parts hpiece _ ih =>
    rw [List.flatten_cons, List.mem_append] at hn
    rcases hn with hn | hn
    · cases piece with
      | copy text start => exact .inr ⟨text, start, List.mem_cons_self, hpiece n hn⟩
      | gap name span filling =>
        have hpart : part = [.symbol .lparen, .name name, .symbol .rparen] := hpiece
        rw [hpart] at hn
        obtain rfl : n = name := by simpa using hn
        exact .inl List.mem_cons_self
    · rcases ih hn with hgap | ⟨text, start, hmem, hwithin⟩
      · left
        rw [gapNames, List.filterMap_cons]
        cases piece with
        | copy text start => exact hgap
        | gap name span filling => exact List.mem_cons_of_mem _ hgap
      · exact .inr ⟨text, start, List.mem_cons_of_mem _ hmem, hwithin⟩

/-- A placeholder that no copied text contains stands among the tokens once. -/
theorem exists_split (h : List.Forall₂ Piece.Gives pieces parts) (hp : p ∈ gapNames pieces)
    (hnodup : (gapNames pieces).Nodup)
    (hcopy : ∀ text start, .copy text start ∈ pieces → ¬ p.toList <:+: text) :
    ∃ ts us, parts.flatten = ts ++ [.symbol .lparen, .name p, .symbol .rparen] ++ us ∧
      .name p ∉ ts ∧ .name p ∉ us := by
  induction h with
  | nil => cases hp
  | @cons piece part pieces parts hpiece hrest ih =>
    have hcopy' : ∀ text start, .copy text start ∈ pieces → ¬ p.toList <:+: text :=
      fun text start hmem => hcopy text start (List.mem_cons_of_mem _ hmem)
    cases piece with
    | copy text start =>
      obtain ⟨ts, us, hflat, hts, hus⟩ := ih hp hnodup hcopy'
      refine ⟨part ++ ts, us, by simp [hflat], ?_, hus⟩
      rw [List.mem_append, not_or]
      exact ⟨fun hn => hcopy text start List.mem_cons_self (hpiece p hn), hts⟩
    | gap name span filling =>
      have hpart : part = [.symbol .lparen, .name name, .symbol .rparen] := hpiece
      have hnames : gapNames (.gap name span filling :: pieces) = name :: gapNames pieces := rfl
      rw [hnames] at hp hnodup
      obtain ⟨hfresh, hnodup'⟩ := List.nodup_cons.mp hnodup
      rcases List.mem_cons.mp hp with rfl | hp'
      · -- later tokens with this name would come from another gap or from a copied text
        refine ⟨[], parts.flatten, by rw [hpart]; rfl, List.not_mem_nil, ?_⟩
        intro hn
        rcases name_mem_parts hrest hn with hgap | ⟨text, start, hmem, hwithin⟩
        · exact hfresh hgap
        · exact hcopy' text start hmem hwithin
      · obtain ⟨ts, us, hflat, hts, hus⟩ := ih hp' hnodup' hcopy'
        refine ⟨part ++ ts, us, by simp [hflat], ?_, hus⟩
        have hne : p ≠ name := by
          rintro rfl
          exact hfresh hp'
        rw [hpart]
        simp [hne, hts]

theorem FragmentKind.exists_split_tokens (kind : FragmentKind) {tokens us : List Token}
    (htokens : tokens = ts ++ [.symbol .lparen, .name p, .symbol .rparen] ++ us)
    (hts : .name p ∉ ts) (hus : .name p ∉ us) :
    ∃ ts' us', kind.tokens tokens = ts' ++ [.symbol .lparen, .name p, .symbol .rparen] ++ us' ∧
      .name p ∉ ts' ∧ .name p ∉ us' := by
  cases kind with
  | scalar => exact ⟨ts, us, htokens, hts, hus⟩
  | list =>
    refine ⟨.symbol .lbracket :: ts, us ++ [.symbol .rbracket], ?_, ?_, ?_⟩
    · rw [FragmentKind.tokens, htokens]
      simp
    · simp [hts]
    · simp [hus]

theorem nameCount_of_not_mem (h : .name p ∉ ts) : nameCount p ts = 0 := by
  refine List.count_eq_zero.mpr fun hmem => ?_
  obtain ⟨t, ht, hname⟩ := List.mem_filterMap.mp hmem
  cases t with
  | name n =>
    cases hname
    exact h ht
  | symbol s => cases hname
  | int i => cases hname
  | float x => cases hname
  | str text => cases hname

theorem mem_gapNames_of_lookup (h : ((pieces.filterMap Piece.filling?).lookup n).isSome) :
    n ∈ gapNames pieces := by
  obtain ⟨filling, hfilling⟩ := Option.isSome_iff_exists.mp h
  exact List.mem_map.mpr ⟨(n, filling), Entries.mem_of_lookup hfilling, rfl⟩

namespace IsReading

variable {template : List Char} {pieces : List Piece} {kind : FragmentKind} {tokens : List Token}
  {e : Expr}

theorem isName (h : IsReading template pieces) : ∀ p ∈ gapNames pieces, IsName p := by
  intro p hp
  obtain ⟨k, rfl⟩ := h.names p hp
  obtain ⟨m, hstem, -, -⟩ := stemFor_spec template
  rw [hstem]
  exact isName_numbered m k

theorem not_infix (h : IsReading template pieces) (hp : p ∈ gapNames pieces) :
    ¬ p.toList <:+: template := by
  intro hwithin
  obtain ⟨k, hk⟩ := h.names p hp
  exact ne_numbered_of_infix hwithin k hk

/-- The tokens of an expression, piece by piece. -/
theorem exists_parts (h : IsReading template pieces)
    (hlexes : Lexes (spliceExpr kind pieces).text tokens) :
    ∃ parts, List.Forall₂ Piece.Gives pieces parts ∧ tokens = kind.tokens parts.flatten ∧
      BalancedTokens parts.flatten := by
  obtain ⟨source, hfrom, haligned⟩ := h.source
  exact exists_parts_of_lexes hfrom haligned h.isName hlexes

/-- A placeholder stands once among the tokens, between parentheses. -/
theorem exists_split (h : IsReading template pieces)
    (hlexes : Lexes (spliceExpr kind pieces).text tokens) (hp : p ∈ gapNames pieces) :
    ∃ ts us, tokens = ts ++ [.symbol .lparen, .name p, .symbol .rparen] ++ us ∧
      .name p ∉ ts ∧ .name p ∉ us := by
  obtain ⟨parts, hparts, rfl, -⟩ := h.exists_parts hlexes
  obtain ⟨ts, us, hflat, hts, hus⟩ := Lowering.exists_split hparts hp h.nodup (by
    intro text start hmem hwithin
    exact h.not_infix hp (hwithin.trans (h.infix_of_copy hmem)))
  exact FragmentKind.exists_split_tokens kind hflat hts hus

/-- A placeholder occurs in the tree once, as a leaf or as a name that is bound. -/
theorem occurs_once (h : IsReading template pieces)
    (hparse : Expr.parse (spliceExpr kind pieces).text = .ok e) (hp : p ∈ gapNames pieces) :
    e.names.count p + e.targets.count p = 1 := by
  obtain ⟨tokens, htokens, hspells⟩ := Expr.spells_of_parse hparse
  obtain ⟨ts, us, hsplit, hts, hus⟩ := h.exists_split (lexes_of_tokensFrom htokens) hp
  have hlabels : ¬ Labels p (tokens.map (·.token)) := by
    rw [hsplit]
    exact not_labels_of_parens hts hus
  have hcount : nameCount p (tokens.map (·.token)) = 1 := by
    rw [hsplit, nameCount_append, nameCount_append, nameCount_of_not_mem hts,
      nameCount_of_not_mem hus, nameCount_cons_symbol, nameCount_cons_name, if_pos rfl]
    rfl
  rw [← hcount]
  exact hspells.occurrences_eq hlabels

/-- Every name of the tree is a placeholder of the expression or stands in the template. -/
theorem name_from (h : IsReading template pieces)
    (hparse : Expr.parse (spliceExpr kind pieces).text = .ok e) (hn : n ∈ e.names ∨ n ∈ e.targets) :
    n ∈ gapNames pieces ∨ n.toList <:+: template := by
  obtain ⟨tokens, htokens, hspells⟩ := Expr.spells_of_parse hparse
  obtain ⟨parts, hparts, hsplit, -⟩ := h.exists_parts (lexes_of_tokensFrom htokens)
  have hmem : .name n ∈ parts.flatten := by
    have hmem := hspells.name_mem hn
    rw [hsplit] at hmem
    cases kind with
    | scalar => exact hmem
    | list => simpa [FragmentKind.tokens] using hmem
  rcases name_mem_parts hparts hmem with hgap | ⟨text, start, hcopy, hwithin⟩
  · exact .inl hgap
  · exact .inr (hwithin.trans (h.infix_of_copy hcopy))

theorem fill_eq (h : IsReading template pieces)
    (hparse : Expr.parse (spliceExpr kind pieces).text = .ok e) :
    (e.fill.run (pieces.filterMap Piece.filling?)).1 =
      e.substitute fun n => (pieces.filterMap Piece.filling?).lookup n := by
  refine Expr.fill_eq_substitute ?_
  intro n hn
  have honce := h.occurs_once hparse (mem_gapNames_of_lookup hn)
  omega

end IsReading

end Lowering

end ComponentMarkup
