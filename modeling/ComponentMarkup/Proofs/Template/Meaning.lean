import ComponentMarkup.Proofs.Eval.Holes
import ComponentMarkup.Proofs.Template.Fragments
import ComponentMarkup.Proofs.Template.Hygiene
import ComponentMarkup.Proofs.Template.Stages

/-!
# The meaning of templates

What an element means, said without the expression that it is lowered to: the value of its constructor
called with its children and its attributes. An embedded expression is evaluated with the meanings of
the elements nested in it at their places. A compiled template evaluates to what its root element means,
and fails with the same error.
-/

namespace ComponentMarkup

open Lexer Lowering

variable {args : List (String × Expr)} {name : String} {fragments : List Fragment}
  {pieces : List Piece} {e : Expr} {holes : List (PieceWith Meaning)} {template : List Char}

/-! ## Keyword arguments -/

theorem Arguments.addKeyword_of_fresh {args : Arguments}
    (h : Entries.contains args.keywords name = false) (v : Value) :
    args.addKeyword name v = .ok { args with keywords := args.keywords ++ [(name, v)] } := by
  rw [addKeyword, h]
  rfl

theorem contains_append_of_ne {entries : Entries String Value} {other : String}
    (h : Entries.contains entries name = false) (hne : name ≠ other) (v : Value) :
    Entries.contains (entries ++ [(other, v)]) name = false := by
  unfold Entries.contains at h ⊢
  have hnone : List.lookup name entries = none := by simpa using h
  simp [List.lookup_append, hnone, List.lookup_cons, beq_false_of_ne hne]

section

variable [Natives]

theorem evalAll_keywords (hnodup : (args.map Prod.fst).Nodup) {done : Arguments}
    (hfresh : ∀ name ∈ args.map Prod.fst, Entries.contains done.keywords name = false)
    (scope : Scope) :
    Argument.evalAll (args.map fun arg => .keyword arg.1 arg.2) scope done = (do
      let named ← Meaning.allNamed (args.map fun arg => (arg.1, arg.2.eval)) scope
      return { done with keywords := done.keywords ++ named }) := by
  induction args generalizing done with
  | nil =>
    show pure done = (pure [] : Eval (Entries String Value)) >>= _
    rw [pure_bind, List.append_nil]
  | cons arg rest ih =>
    obtain ⟨name, e⟩ := arg
    obtain ⟨hnew, hnodup⟩ := List.nodup_cons.mp hnodup
    rw [List.map_cons, List.map_cons, Argument.evalAll, Meaning.allNamed, bind_assoc]
    refine bind_congr fun v => ?_
    -- the name is new, so adding it cannot fail
    rw [Arguments.addKeyword_of_fresh (hfresh name List.mem_cons_self)]
    show Argument.evalAll _ scope _ = _
    rw [ih hnodup, bind_assoc]
    · simp only [pure_bind, List.append_assoc, List.singleton_append]
    · intro other hother
      refine contains_append_of_ne (hfresh other (List.mem_cons_of_mem _ hother)) ?_ v
      rintro rfl
      exact hnew hother

theorem eval_call {path : ConstructorPath} (hlisted : ∀ f ∈ fragments, f.IsListed)
    (hnodup : ("children" :: args.map Prod.fst).Nodup) :
    (Expr.call path.callee (.keyword "children" (Fragment.merge fragments).node ::
        args.map fun arg => .keyword arg.1 arg.2)).eval =
      Meaning.call path (fragments.map Fragment.item) (args.map fun arg => (arg.1, arg.2.eval)) := by
  funext scope
  -- the children are the first of the keyword arguments
  have hargs := @evalAll_keywords (("children", (Fragment.merge fragments).node) :: args) _ hnodup
    .empty (fun _ _ => rfl) scope
  rw [List.map_cons] at hargs
  rw [Expr.eval, Meaning.call]
  refine bind_congr fun function => ?_
  rw [hargs, List.map_cons, Meaning.allNamed, Fragment.lists_merge hlisted]
  simp only [bind_assoc, pure_bind]
  rfl

end

/-! ## Embedded expressions -/

/-- The piece that is read for a piece, whatever the pass makes of the element in its gap. -/
def PieceWith.blank {α : Type} : PieceWith α → Piece
  | .copy text start => .copy text start
  | .gap name span _ => .gap name span (.name name)

/-- Read an expression from its pieces and leave its placeholders where they are. -/
def readTree (kind : FragmentKind) (span : Span) (pieces : List Piece) : Except CompileError Expr :=
  let spliced := spliceExpr kind pieces
  match Expr.parse spliced.text with
  | .ok e => .ok e
  | .error e => .error ⟨.invalidExpression e.fault, errorSpan spliced.map span e.offset⟩

theorem readPieces_eq_map (kind : FragmentKind) (span : Span) (pieces : List Piece) :
    readPieces kind span pieces = (readTree kind span pieces).map fun e =>
      ⟨kind, (e.fill.run (pieces.filterMap Piece.filling?)).1⟩ := by
  unfold readPieces readTree
  dsimp only
  cases Expr.parse (spliceExpr kind pieces).text <;> rfl

theorem parse_of_readTree {kind : FragmentKind} {span : Span}
    (h : readTree kind span pieces = .ok e) : Expr.parse (spliceExpr kind pieces).text = .ok e := by
  unfold readTree at h
  dsimp only at h
  split at h
  · rename_i e' he
    cases h
    exact he
  · cases h

section

variable {α : Type} {R : FragmentKind → Expr → α → Prop} {pieces : List Piece}
  {holes : List (PieceWith α)}

theorem flatMap_text_blank (h : List.Forall₂ (PieceRel R) pieces holes) :
    pieces.flatMap Piece.text = (holes.map PieceWith.blank).flatMap Piece.text := by
  induction h with
  | nil => rfl
  | cons hpiece _ ih =>
    rw [List.map_cons, List.flatMap_cons, List.flatMap_cons, ih]
    cases hpiece <;> rfl

theorem splicePieces_blank (h : List.Forall₂ (PieceRel R) pieces holes) (cuts : List Span)
    (offset : Nat) (s : Splice) :
    splicePieces cuts offset s pieces = splicePieces cuts offset s (holes.map PieceWith.blank) := by
  induction h generalizing offset s with
  | nil => rfl
  | cons hpiece _ ih =>
    cases hpiece with
    | copy text start => exact ih _ _
    | gap name span _ => exact ih _ _

/-- What is read does not depend on what fills the gaps. -/
theorem spliceExpr_blank (h : List.Forall₂ (PieceRel R) pieces holes) (kind : FragmentKind) :
    spliceExpr kind pieces = spliceExpr kind (holes.map PieceWith.blank) := by
  unfold spliceExpr
  rw [flatMap_text_blank h]
  cases kind with
  | scalar => exact splicePieces_blank h _ _ _
  | list =>
    dsimp only
    rw [splicePieces_blank h]

theorem readTree_blank (h : List.Forall₂ (PieceRel R) pieces holes) (kind : FragmentKind)
    (span : Span) : readTree kind span pieces = readTree kind span (holes.map PieceWith.blank) := by
  unfold readTree
  rw [spliceExpr_blank h]

end

/-! ## The pass -/

theorem Numbering.ofExcept_map {σ α β : Type} (r : Except CompileError α) (f : α → β) :
    (Numbering.ofExcept (r.map f) : Numbering σ β) =
      Numbering.ofExcept r >>= fun a => pure (f a) := by
  cases r <;> rfl

theorem isSlice_of_isConstruction (h : e.IsConstruction) : e.isSlice = false := by
  obtain ⟨path, children, args, rfl⟩ := h
  rfl

section

variable [Natives]

/-- What elements mean. -/
def Pass.meaning (ctx : LoweringContext) : Pass Nat Meaning where
  literal text := fun _ => return .str text
  call := Meaning.call
  placeholder := Lowering.placeholder ctx
  read kind span holes := do
    let e ← Numbering.ofExcept (readTree kind span (holes.map PieceWith.blank))
    return fun scope => e.eval (scope.fill fun n => (PieceWith.gaps holes).lookup n)

/-- What an element of a template means. It means nothing if an expression in it cannot be read, a tag
has no constructor or an argument is given twice. -/
def Element.meaning (template : List Char) (vocabulary : Vocabulary) (e : Element) :
    Except CompileError Meaning :=
  let ctx := contextFor template vocabulary
  (((Pass.meaning ctx).element ctx e).exec 0).1

/-- An expression evaluates to a meaning. -/
def Means (kind : FragmentKind) (e : Expr) (m : Meaning) : Prop :=
  e.eval = m ∧ Fragment.IsListed ⟨kind, e⟩

theorem means_scalar {m : Meaning} (h : e.eval = m) : Means .scalar e m :=
  ⟨h, fun hkind => nomatch hkind⟩

theorem map_item_of_itemRel {items : List (FragmentKind × Meaning)}
    (h : List.Forall₂ (ItemRel Means) fragments items) :
    fragments.map Fragment.item = items ∧ ∀ f ∈ fragments, f.IsListed := by
  induction h with
  | nil => exact ⟨rfl, fun _ hf => absurd hf List.not_mem_nil⟩
  | @cons f item fragments items hitem _ ih =>
    obtain ⟨hkind, heval, hlisted⟩ := hitem
    obtain ⟨ih, ihlisted⟩ := ih
    refine ⟨?_, List.forall_mem_cons.mpr ⟨?_, ihlisted⟩⟩
    · rw [List.map_cons, ih, Fragment.item, hkind, heval]
    · rw [← hkind] at hlisted
      exact hlisted

theorem exists_args_of_argumentRel {args : List Argument} {pairs : List (String × Meaning)}
    (h : List.Forall₂ (ArgumentRel Means) args pairs) :
    ∃ es : List (String × Expr), args = (es.map fun arg => .keyword arg.1 arg.2) ∧
      pairs = es.map fun arg => (arg.1, arg.2.eval) := by
  induction h with
  | nil => exact ⟨[], rfl, rfl⟩
  | @cons arg pair args pairs harg _ ih =>
    obtain ⟨name, m⟩ := pair
    obtain ⟨kind, value, rfl, hvalue, -⟩ := harg
    obtain rfl : value.eval = m := hvalue
    obtain ⟨es, rfl, rfl⟩ := ih
    exact ⟨(name, value) :: es, rfl, rfl⟩

/-- The meanings of what fills the gaps. -/
theorem meanings_fillings (h : List.Forall₂ (PieceRel Means) pieces holes) :
    meanings (fun n => (pieces.filterMap Piece.filling?).lookup n) =
      fun n => (PieceWith.gaps holes).lookup n := by
  funext n
  induction h with
  | nil => rfl
  | cons hpiece _ ih =>
    cases hpiece with
    | copy text start => exact ih
    | @gap name span e m hfilling =>
      obtain ⟨rfl, -⟩ := hfilling
      show (((name, e) :: List.filterMap Piece.filling? _).lookup n).map Expr.eval =
        ((name, e.eval) :: PieceWith.gaps _).lookup n
      rw [List.lookup_cons, List.lookup_cons]
      cases n == name with
      | true => rfl
      | false => exact ih

/-- An expression in brackets has a list as its value, whatever its placeholders are filled with. -/
theorem isListed_of_isReading {kind : FragmentKind} (hreading : IsReading template pieces)
    (hparse : Expr.parse (spliceExpr kind pieces).text = .ok e) (f : String → Option Expr) :
    Fragment.IsListed ⟨kind, e.substitute f⟩ := by
  intro hkind scope
  obtain rfl : kind = .list := hkind
  obtain ⟨tokens, htokens, hspells⟩ := Expr.spells_of_parse hparse
  obtain ⟨parts, -, hsplit, hbalanced⟩ := hreading.exists_parts (lexes_of_tokensFrom htokens)
  rw [hsplit] at hspells
  -- the brackets belong together, so a display or a comprehension was read between them
  rcases hspells.isList_of_brackets hbalanced with ⟨items, rfl⟩ | ⟨element, clauses, rfl⟩
  · exact ⟨_, rfl⟩
  · refine ⟨do
      let out ← Clause.run (Expr.substituteClauses f clauses)
        (fun scope => do return (.none, ← (element.substitute f).eval scope)) scope [] []
      return out.2.reverse.map Prod.snd, ?_⟩
    show (Expr.listComp (element.substitute f) (Expr.substituteClauses f clauses)).eval scope = _
    rw [Expr.eval, bind_assoc]
    rfl

/-- An expression that was read means what it evaluates to with the nested elements in their places. -/
theorem means_reading {kind : FragmentKind} (hreading : IsReading template pieces)
    (hpieces : List.Forall₂ (PieceRel Means) pieces holes)
    (hparse : Expr.parse (spliceExpr kind pieces).text = .ok e) :
    Means kind (e.fill.run (pieces.filterMap Piece.filling?)).1
      (fun scope => e.eval (scope.fill fun n => (PieceWith.gaps holes).lookup n)) := by
  rw [hreading.fill_eq hparse]
  refine ⟨?_, isListed_of_isReading hreading hparse _⟩
  funext scope
  rw [← meanings_fillings hpieces]
  refine Expr.eval_substitute ?_ e scope
  -- gaps are filled with calls, never with slices
  intro n c hc
  exact isSlice_of_isConstruction (hreading.constructions (n, c) (Entries.mem_of_lookup hc))

/-- Lowering keeps meanings. -/
theorem Pass.simulates_meaning (template : List Char) (vocabulary : Vocabulary) :
    (Pass.meaning (contextFor template vocabulary)).Simulates Means (fun n s => n = s)
      (contextFor template vocabulary) (fun source => source.IsFrom template) where
  literal text := means_scalar rfl
  call := by
    intro tag path fragments items args pairs _ hitems hargs hnodup
    obtain ⟨rfl, hlisted⟩ := map_item_of_itemRel hitems
    obtain ⟨es, rfl, rfl⟩ := exists_args_of_argumentRel hargs
    refine means_scalar (eval_call hlisted ?_)
    rwa [List.map_map] at hnodup
  placeholder n := by
    rintro _ rfl
    exact ⟨rfl, rfl⟩
  read := by
    intro kind source n n' pieces holes hfrom hrun hpieces
    have hreading := (piecesFrom_of_exec hrun).isReading hfrom
    unfold Pass.meaning
    dsimp only
    rw [readPieces_eq_map, Numbering.ofExcept_map, ← readTree_blank hpieces]
    refine SimAt.map (SimAt.ofExcept _) ?_
    rintro e _ ⟨rfl, hread⟩
    exact ⟨rfl, means_reading hreading hpieces (parse_of_readTree hread)⟩

/-- What an element is lowered to evaluates to what the element means, in every scope. -/
theorem Element.eval_lower {vocabulary : Vocabulary} {e : Element} {x : Expr}
    (hsources : ∀ source ∈ e.sources, source.IsFrom template)
    (h : e.lower template vocabulary = .ok x) : e.meaning template vocabulary = .ok x.eval := by
  obtain ⟨m, s', hrun, heval, -⟩ :=
    (Pass.simulates_meaning template vocabulary).exists_of_lower rfl hsources h
  rw [heval]
  exact congrArg Prod.fst hrun

end

/-! ## Calls of passes -/

/-- How many children an item of content stands for. -/
def ContentItem.kind : ContentItem → FragmentKind
  | .spread _ => .list
  | _ => .scalar

section

variable {σ α : Type} {pass : Pass σ α} {ctx : LoweringContext} {s s' : σ}

theorem map_fst_of_contentItems {content : List ContentItem} {items : List (FragmentKind × α)}
    (h : (pass.contentItems ctx content).exec s = (.ok items, s')) :
    items.map Prod.fst = content.map ContentItem.kind := by
  induction content generalizing items s with
  | nil =>
    cases h
    rfl
  | cons item rest ih =>
    rw [Pass.contentItems] at h
    obtain ⟨first, _, hfirst, h₁⟩ := Numbering.exec_bind_eq_ok h
    obtain ⟨more, _, hmore, h₂⟩ := Numbering.exec_bind_eq_ok h₁
    cases h₂
    rw [List.map_cons, List.map_cons, ih hmore]
    cases item with
    | literal text =>
      cases hfirst
      rfl
    | element _ | expr _ | spread _ =>
      rw [Pass.contentItem] at hfirst
      obtain ⟨_, _, -, hpair⟩ := Numbering.exec_bind_eq_ok hfirst
      cases hpair
      rfl

theorem map_fst_of_attributes {tag : String} {seen : List String} {attrs : List Attribute}
    {args : List (String × α)} (h : (pass.attributes ctx tag seen attrs).exec s = (.ok args, s')) :
    args.map Prod.fst = attrs.map fun attr => ctx.vocabulary.arguments.argumentFor attr.name := by
  induction attrs generalizing args s seen with
  | nil =>
    cases h
    rfl
  | cons attr rest ih =>
    obtain ⟨name, value, span⟩ := attr
    rw [Pass.attributes] at h
    split at h
    · cases h
    · obtain ⟨_, _, -, h₁⟩ := Numbering.exec_bind_eq_ok h
      obtain ⟨more, _, hmore, h₂⟩ := Numbering.exec_bind_eq_ok h₁
      cases h₂
      rw [List.map_cons, List.map_cons, ih hmore]

/-- An element becomes a call of the constructor for its tag, with an item for each item of content and
an argument for each attribute. -/
theorem exists_call_of_element {e : Element} {a : α}
    (h : (pass.element ctx e).exec s = (.ok a, s')) :
    ∃ path items args, ctx.vocabulary.chain.resolve? e.tag = some path ∧
      items.map Prod.fst = e.children.map ContentItem.kind ∧
      args.map Prod.fst = e.attrs.map (fun attr => ctx.vocabulary.arguments.argumentFor attr.name) ∧
      a = pass.call path items args := by
  obtain ⟨tag, attrs, content, span⟩ := e
  rw [Pass.element] at h
  split at h
  · cases h
  · obtain ⟨path, _, hpath, h₁⟩ := Numbering.exec_bind_eq_ok h
    obtain ⟨items, _, hitems, h₂⟩ := Numbering.exec_bind_eq_ok h₁
    obtain ⟨args, _, hargs, h₃⟩ := Numbering.exec_bind_eq_ok h₂
    cases h₃
    rw [Numbering.exec_ofExcept] at hpath
    refine ⟨path, items, args, resolve_eq_ok (congrArg Prod.fst hpath), ?_,
      map_fst_of_attributes hargs, rfl⟩
    cases content with
    | none =>
      cases hitems
      rfl
    | some content => exact map_fst_of_contentItems hitems

end

/-- A template that compiles means the call of the constructor for its root element, with its content
as the children and its attributes as further arguments. Under all layers of bindings the template
evaluates to that, or fails as that does. -/
theorem Template.evaluate_eq_meaning [Natives] {vocabulary : Vocabulary} {text : List Char}
    {t : Template} (h : Template.compile vocabulary text = .ok t) :
    ∃ tree root meaning, Node.parse text = .ok tree ∧ Element.ofNode text tree = .ok root ∧
      root.meaning text vocabulary = .ok meaning ∧
      (∃ path items args, vocabulary.chain.resolve? root.tag = some path ∧
        items.map Prod.fst = root.children.map ContentItem.kind ∧
        args.map Prod.fst =
          root.attrs.map (fun attr => vocabulary.arguments.argumentFor attr.name) ∧
        meaning = Meaning.call path items args) ∧
      ∀ layers next, t.evaluate layers next = (meaning (.ofLayers layers)).run next := by
  obtain ⟨tree, root, hparse, hroot, hfrom, hlower⟩ := Template.exists_of_compile h
  have hmeaning := Element.eval_lower hfrom.isFrom hlower
  refine ⟨tree, root, t.expr.eval, hparse, hroot, hmeaning, ?_, fun _ _ => rfl⟩
  exact exists_call_of_element (Prod.ext hmeaning rfl)

/-- A value and a list among the children, and an attribute. -/
theorem Template.evaluate_eq_meaning_of_list :
    ∃ (t : Template) (root : Element) (meaning : Meaning),
      Template.compile .shared "<ul id='a'>\x7bn\x7d[(<li>\x7bx\x7d</li>) for x in xs]</ul>".toList =
        .ok t ∧
      root.meaning "<ul id='a'>\x7bn\x7d[(<li>\x7bx\x7d</li>) for x in xs]</ul>".toList .shared =
        .ok meaning ∧
      (∀ layers next, t.evaluate layers next = (meaning (.ofLayers layers)).run next) ∧
      ((meaning (.ofLayers [[("n", .int 1), ("xs", .list [.int 2, .int 3]), ("html", .module 0 "html"
        [("Ul", .constructor 1 "html" "Ul"), ("Li", .constructor 2 "html" "Li")])]])).run
          3).toOption.map (fun r => String.ofList r.1.repr) =
        some "html.Ul(children=[1, html.Li(children=[2]), html.Li(children=[3])], id='a')" := by
  have hread : ∃ tree root,
      Node.parse "<ul id='a'>\x7bn\x7d[(<li>\x7bx\x7d</li>) for x in xs]</ul>".toList = .ok tree ∧
      Element.ofNode "<ul id='a'>\x7bn\x7d[(<li>\x7bx\x7d</li>) for x in xs]</ul>".toList tree =
        .ok root ∧
      ((root.lower "<ul id='a'>\x7bn\x7d[(<li>\x7bx\x7d</li>) for x in xs]</ul>".toList
        .shared).toOption.map fun x => (x.evaluate [[("n", .int 1), ("xs", .list [.int 2, .int 3]),
          ("html", .module 0 "html" [("Ul", .constructor 1 "html" "Ul"),
            ("Li", .constructor 2 "html" "Li")])]] 3).toOption.map
              fun r => String.ofList r.1.repr) =
        some (some "html.Ul(children=[1, html.Li(children=[2]), html.Li(children=[3])], id='a')") := by
    refine ⟨?tree, ?root, ?parse, ?reduce, ?lower⟩
    case parse => set_option maxRecDepth 2000 in cbv; rfl
    case reduce => cbv; rfl
    case lower => decide +kernel
  obtain ⟨tree, root, hparse, hroot, hlower⟩ := hread
  obtain ⟨t, ht, hvalue⟩ := Template.exists_of_lower hparse hroot hlower
  obtain ⟨-, root', meaning, -, -, hmeaning, -, heval⟩ := Template.evaluate_eq_meaning ht
  refine ⟨t, root', meaning, ht, hmeaning, heval, ?_⟩
  rw [← heval]
  exact hvalue

end ComponentMarkup
