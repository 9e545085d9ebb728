import ComponentMarkup.Proofs.Template.Meaning
import ComponentMarkup.Proofs.Template.Success

/-!
# Brackets keep their kinds

Markup is scanned for brackets before the expressions between them are read, and an expression is read
with its brackets put back around it. Both scans take the same brackets for counterparts, so what is
read between brackets is a list, and what is read between the braces of a key and a value is a dict:
nothing can end the brackets early and go on after them.
-/

namespace ComponentMarkup

open Lexer Lowering

variable {template : List Char} {pieces : List Piece} {e : Expr} {vocabulary : Vocabulary}
  {f : Fragment}

/-! ## Displays and comprehensions -/

/-- The display of a list, or a comprehension that makes one. -/
inductive Expr.MakesList : Expr → Prop where
  | display (items : List Expr) : MakesList (.list items)
  | comprehension (element : Expr) (clauses : List Clause) : MakesList (.listComp element clauses)

/-- The display of a dict, or a comprehension that makes one. -/
inductive Expr.MakesDict : Expr → Prop where
  | display (entries : List (Expr × Expr)) : MakesDict (.dict entries)
  | comprehension (key value : Expr) (clauses : List Clause) :
      MakesDict (.dictComp key value clauses)

/-- An expression between brackets is read as a list, whatever its placeholders are filled with. -/
theorem makesList_of_isReading (hreading : IsReading template pieces)
    (hparse : Expr.parse (spliceExpr .list pieces).text = .ok e) (f : String → Option Expr) :
    (e.substitute f).MakesList := by
  obtain ⟨tokens, htokens, hspells⟩ := Expr.spells_of_parse hparse
  obtain ⟨parts, -, hsplit, hbalanced⟩ := hreading.exists_parts (lexes_of_tokensFrom htokens)
  rw [hsplit] at hspells
  rcases hspells.isList_of_brackets hbalanced with ⟨items, rfl⟩ | ⟨element, clauses, rfl⟩
  · exact .display _
  · exact .comprehension _ _

/-- What is read of cells with braces around them begins and ends with the braces, which belong
together. -/
theorem exists_tokens_of_braced (hnames : ∀ p ∈ gapNames pieces, IsName p)
    (hbraced : Braced (pieces.flatMap Piece.cells)) {tokens : List Token}
    (h : Lexes (spliceExpr .scalar pieces).text tokens) :
    ∃ ts, tokens = .symbol .lbrace :: ts ++ [.symbol .rbrace] ∧ BalancedTokens ts := by
  obtain ⟨b, hdedents⟩ := dedents_readCells pieces
  obtain ⟨inner, hinner, hcells⟩ := hbraced.dedents hdedents
  have hgaps : ∀ name, .gap name ∈ inner → IsName name := by
    intro name hname
    refine hnames name (mem_gapNames.mpr (hdedents.mem_of_gap ?_))
    rw [hcells]
    simp [hname]
  have htext : (spliceExpr .scalar pieces).text = '\x7b' :: (cellsText inner ++ ['\x7d']) := by
    rw [text_spliceExpr, hcells]
    simp [Cell.text]
  rw [htext] at h
  obtain ⟨more, rfl, h₁⟩ := lexes_cons_mark (s := .lbrace) (by decide) h
  obtain ⟨marked, last, rfl, -, hbalanced, h₂⟩ :=
    tokensOf_of_lexes hinner hgaps (by intro c hc; cases hc; rfl) h₁
  obtain ⟨none, rfl, h₃⟩ := lexes_cons_mark (s := .rbrace) (by decide) h₂
  cases h₃
  exact ⟨cellsTokens marked, rfl, hbalanced⟩

/-- An expression with braces around it is read as a dict, whatever its placeholders are filled
with. -/
theorem makesDict_of_isReading (hreading : IsReading template pieces)
    (hbraced : Braced (pieces.flatMap Piece.cells))
    (hparse : Expr.parse (spliceExpr .scalar pieces).text = .ok e) (f : String → Option Expr) :
    (e.substitute f).MakesDict := by
  obtain ⟨tokens, htokens, hspells⟩ := Expr.spells_of_parse hparse
  obtain ⟨ts, hts, hbalanced⟩ :=
    exists_tokens_of_braced hreading.isName hbraced (lexes_of_tokensFrom htokens)
  rw [hts] at hspells
  rcases hspells.isDict_of_braces hbalanced with ⟨entries, rfl⟩ | ⟨key, value, clauses, rfl⟩
  · exact .display _
  · exact .comprehension _ _ _

/-! ## Lowering one expression -/

/-- The expression was read from its pieces, and its placeholders were replaced. -/
theorem exists_reading_of_exec {kind : FragmentKind} {source : EmbeddedExpr}
    (hfrom : source.IsFrom template) {n n' : Nat}
    (h : Numbering.exec (Lowering.expression (contextFor template vocabulary) kind source) n =
      (.ok f, n')) :
    ∃ pieces e, IsReading template pieces ∧ List.Forall₂ PieceOf source.segments pieces ∧
      Expr.parse (spliceExpr kind pieces).text = .ok e ∧
      f = ⟨kind, e.substitute fun n => (pieces.filterMap Piece.filling?).lookup n⟩ := by
  obtain ⟨span, segments⟩ := source
  rw [Lowering.expression] at h
  split at h
  · cases h
  · obtain ⟨pieces, n₁, hpieces, hread⟩ := Numbering.exec_bind_eq_ok h
    have hpieces := piecesFrom_of_exec hpieces
    have hreading : IsReading template pieces := hpieces.isReading hfrom
    have hread : readPieces kind span pieces = .ok f := congrArg Prod.fst hread
    obtain ⟨e, hparse, rfl⟩ := readPieces_eq_ok hread
    exact ⟨pieces, e, hreading, hpieces.aligned, hparse, by rw [hreading.fill_eq hparse]⟩

/-! ## Compiled templates -/

/-- Evaluating the expression gives a list or fails, in every scope and whatever native functions do.
To give up sorting items whose order contradicts itself is a failure, too. -/
def Expr.EvaluatesToList (e : Expr) : Prop :=
  ∀ [Natives] (scope : Scope) (next : Identity), (∃ error, (e.eval scope).run next = .error error) ∨
    ∃ items next', (e.eval scope).run next = .ok (.list items, next')

theorem evaluatesToList_of_isListed (hkind : f.kind = .list) (h : ∀ [Natives], f.IsListed) :
    f.node.EvaluatesToList := by
  intro _ scope next
  obtain ⟨items, hitems⟩ := h hkind scope
  rw [show f.node.eval scope = _ from hitems, StateT.run_bind]
  cases items.run next with
  | error error => exact .inl ⟨error, rfl⟩
  | ok result => exact .inr ⟨result.1, result.2, rfl⟩

/-- An expression and the node that holds it: the expression is lowered, and whatever number lowering
starts from, it becomes what the brackets of the node say. -/
structure Holder.KeepsBrackets (ctx : LoweringContext) (holder : Holder) (embedding : Embedding) :
    Prop where
  span : embedding.source.span = holder.node.span
  kind : embedding.kind = holder.rule.fragmentKind
  lowered : embedding.IsLowered ctx
  /-- Brackets, in content or as the value of an attribute. -/
  list : holder.rule = .contentExprList ∨ holder.rule = .exprListValue → ∀ n f n',
    Numbering.exec (Lowering.expression ctx embedding.kind embedding.source) n = (.ok f, n') →
      f.node.MakesList ∧ f.node.EvaluatesToList
  /-- A key and a value between braces. -/
  dict : holder.rule = .dictShorthand → ∀ n f n',
    Numbering.exec (Lowering.expression ctx embedding.kind embedding.source) n = (.ok f, n') →
      f.node.MakesDict

theorem Holder.Fits.keepsBrackets {holder : Holder} {embedding : Embedding}
    (h : holder.Fits embedding) (hfrom : embedding.source.IsFrom template)
    (hof : embedding.source.IsOf holder.node)
    (hlowered : embedding.IsLowered (contextFor template vocabulary)) :
    holder.KeepsBrackets (contextFor template vocabulary) embedding where
  span := hof.span
  kind := h.kind
  lowered := hlowered
  list hrule n f n' hrun := by
    have hkind : embedding.kind = .list := by
      rw [h.kind]
      rcases hrule with hrule | hrule <;> rw [hrule] <;> rfl
    rw [hkind] at hrun
    obtain ⟨pieces, e, hreading, -, hparse, rfl⟩ := exists_reading_of_exec hfrom hrun
    exact ⟨makesList_of_isReading hreading hparse _,
      evaluatesToList_of_isListed rfl (isListed_of_isReading hreading hparse _)⟩
  dict hrule n f n' hrun := by
    have hkind : embedding.kind = .scalar := by rw [h.kind, hrule]; rfl
    rw [hkind] at hrun
    obtain ⟨pieces, e, hreading, haligned, hparse, rfl⟩ := exists_reading_of_exec hfrom hrun
    exact makesDict_of_isReading hreading ((h.braced hrule).of_own? (own?_pieces haligned)) hparse _

/-- The expressions of an element are those that the nodes of its tree hold. -/
theorem Element.fits_holders {tree : Node} {root : Element}
    (hparse : Node.parse template = .ok tree) (hroot : Element.ofNode template tree = .ok root) :
    List.Forall₂ Holder.Fits tree.holders root.embeddings := by
  obtain ⟨v, t, v', node, e, rfl, -, -, rfl, hnode⟩ := Node.parse_eq_ok_iff.mp hparse
  obtain ⟨x, hx, hplain⟩ := Element.ofNode_of_recognizes (.over 0 (v ++ t ++ v')) hnode
  obtain rfl : x = root := Except.ok.inj (hx.symm.trans hroot)
  have hfits : List.Forall₂ Holder.Fits node.holders e.embeddings := hnode.fits
  have hembeddings : x.unplaced.embeddings = x.embeddings.map Embedding.unplaced :=
    (Element.Part.element x).embeddings_unplaced
  rw [← hplain, hembeddings, List.forall₂_map_right_iff] at hfits
  rw [Node.holders_of_embeds rfl, Node.holdersInAll_singleton]
  exact hfits.imp fun _ _ h => h.of_unplaced

/-- In a template that compiles, every expression between brackets becomes a list, by a display or a
comprehension at its root, and evaluates to a list or fails. Every key and value between braces become
a dict, by a display or a comprehension at its root. -/
theorem Template.brackets_keep_kinds {vocabulary : Vocabulary} {text : List Char} {t : Template}
    (h : Template.compile vocabulary text = .ok t) :
    ∃ tree root, Node.parse text = .ok tree ∧ Element.ofNode text tree = .ok root ∧
      root.lower text vocabulary = .ok t.expr ∧
      List.Forall₂ (Holder.KeepsBrackets (contextFor text vocabulary)) tree.holders
        root.embeddings := by
  obtain ⟨tree, root, hparse, hroot, hfrom, hlower⟩ := Template.exists_of_compile h
  refine ⟨tree, root, hparse, hroot, hlower, ?_⟩
  have hlowered := ((exactAt_root vocabulary (fun _ _ => Iff.rfl) hparse hroot).result
    (Prod.ext hlower rfl)).embeddings
  have hsources : root.embeddings.map Embedding.source = root.sources :=
    (Element.Part.element root).map_source_embeddings
  have hfits := Element.fits_holders hparse hroot
  rw [← hsources, ← tree.map_node_holders, AllFrom, List.forall₂_map_left_iff,
    List.forall₂_map_right_iff] at hfrom
  refine List.forall₂_iff_zip.mpr ⟨hfits.length_eq, fun {holder embedding} hmem => ?_⟩
  obtain ⟨hsource, hof⟩ := (List.forall₂_iff_zip.mp (List.Forall₂.flip hfrom)).2 hmem
  have hfit := (List.forall₂_iff_zip.mp hfits).2 hmem
  exact hfit.keepsBrackets hsource hof (hlowered embedding (List.of_mem_zip hmem).2)

/-- Brackets in an element between the braces of a value, and brackets in content. -/
theorem Template.brackets_keep_kinds_of_nested :
    ∃ (t : Template) (tree : Node) (root : Element),
      Template.compile .shared "<p a=\x7bk: (<b x=[y]/>)\x7d>[c for c in d]</p>".toList = .ok t ∧
      Node.parse "<p a=\x7bk: (<b x=[y]/>)\x7d>[c for c in d]</p>".toList = .ok tree ∧
      tree.holders.map Holder.rule = [.dictShorthand, .exprListValue, .contentExprList] ∧
      t.source = "html.P(children=[c for c in d], a=\x7bk: html.B(children=[], x=[y])\x7d)" ∧
      List.Forall₂ (Holder.KeepsBrackets
        (contextFor "<p a=\x7bk: (<b x=[y]/>)\x7d>[c for c in d]</p>".toList .shared)) tree.holders
        root.embeddings := by
  have hread : ∃ tree root,
      Node.parse "<p a=\x7bk: (<b x=[y]/>)\x7d>[c for c in d]</p>".toList = .ok tree ∧
      Element.ofNode "<p a=\x7bk: (<b x=[y]/>)\x7d>[c for c in d]</p>".toList tree = .ok root ∧
      ((root.lower "<p a=\x7bk: (<b x=[y]/>)\x7d>[c for c in d]</p>".toList .shared).toOption.map
        Expr.source) =
          some "html.P(children=[c for c in d], a=\x7bk: html.B(children=[], x=[y])\x7d)" ∧
      tree.holders.map Holder.rule = [.dictShorthand, .exprListValue, .contentExprList] := by
    refine ⟨?tree, ?root, ?parse, ?reduce, ?lower, ?holders⟩
    case parse => set_option maxRecDepth 2000 in cbv; rfl
    case reduce => cbv; rfl
    case lower => decide +kernel
    case holders => rfl
  obtain ⟨tree, root, hparse, hroot, hlower, hholders⟩ := hread
  obtain ⟨t, ht, hsource⟩ := Template.exists_of_lower hparse hroot hlower
  obtain ⟨tree', root', hparse', -, -, hkeeps⟩ := Template.brackets_keep_kinds ht
  cases hparse.symm.trans hparse'
  exact ⟨t, tree, root', ht, hparse, hholders, hsource, hkeeps⟩

end ComponentMarkup
