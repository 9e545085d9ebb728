import ComponentMarkup.Proofs.Decimal.Reading
import ComponentMarkup.Proofs.Expr.RoundTrip
import ComponentMarkup.Proofs.Template.Fragments
import ComponentMarkup.Proofs.Template.Hygiene
import ComponentMarkup.Proofs.Template.Stages

/-!
# The source of a compiled template

The expression that a template compiles to is put together from expressions that were read, calls of
constructors and lists of children. What was read has a printed form, and so has what is put together
from printed forms, as long as the arguments of calls have names that are names of the language. Then
the source of the template is read as its expression.
-/

namespace ComponentMarkup

open Lexer (IsName)
open Lowering

variable {e : Expr} {path : ConstructorPath} {tag : String} {items : List Expr}
  {fragments : List Fragment} {pairs : List (String × Expr)}

/-! ## What can be written -/

instance (name : String) : Decidable (IsName name) :=
  decidable_of_iff (Lexer.isWord name.toList = true ∧ Symbol.ofWord? name = none)
    ⟨fun h => ⟨h.1, h.2⟩, fun h => ⟨h.word, h.free⟩⟩

/-- If the argument has a keyword, it is a name. -/
def Argument.isNamed : Argument → Bool
  | .keyword n _ => decide (IsName n)
  | _ => true

/-- The text of an expression with the same parts would be read as such an expression: a float is
written with a point, an attribute is not taken of an integer constant, and keywords are names. -/
def Expr.isWritable : Expr → Bool
  | .constant (.float x) => Decimal.isPointed x
  | .attribute (.constant (.int _)) _ => false
  | .call _ args => args.all Argument.isNamed
  | _ => true

theorem Expr.IsPrintable.of_isWritable (h : e.isWritable = true) : e.IsPrintable := by
  unfold Expr.IsPrintable
  split
  · exact Decimal.read?_marked h
  · cases h
  · trivial

/-- The expression has a printed form, if all of it can be written. -/
def Expr.Writes (e : Expr) : Prop :=
  (∀ s ∈ e.subterms, s.isWritable = true) → ∃ ts, Printed (.expr e) ts

/-! ## Constructors -/

/-- A constructor is found under names. -/
structure ConstructorPath.IsNamed (path : ConstructorPath) : Prop where
  owner : ∀ o ∈ path.owner, IsName o
  name : IsName path.name

theorem ConstructorPath.IsNamed.exists_printed (h : path.IsNamed) :
    ∃ ts, Printed (.expr path.callee) ts := by
  obtain ⟨_ | o, name⟩ := path
  · exact ⟨_, .name h.name⟩
  · exact ⟨_, .member (.name (h.owner o rfl)) h.name (by simp)⟩

theorem Library.isName_htmlName : ∀ title ∈ Library.htmlElements, IsName (Provider.htmlName title) := by
  decide +kernel

theorem Library.isName_coreComponents : ∀ name ∈ Library.coreComponents, IsName name := by
  decide +kernel

theorem Provider.isNamed_exactly {names : List String} {module : String} (hmodule : IsName module)
    (hnames : ∀ name ∈ names, IsName name) (h : Provider.exactly names module tag = some path) :
    path.IsNamed := by
  unfold Provider.exactly at h
  split at h
  · rename_i hmem
    cases h
    exact ⟨by rintro _ ⟨⟩; exact hmodule, hnames tag (by simpa using hmem)⟩
  · cases h

theorem Provider.isNamed_dash {provider : Provider} (hprovider : provider ∈ Provider.dash)
    (h : provider.resolve? tag = some path) : path.IsNamed := by
  simp only [Provider.dash, List.mem_cons, List.not_mem_nil, or_false] at hprovider
  obtain rfl | rfl | rfl := hprovider
  · simp only [Provider.resolve?] at h
    split at h
    · rename_i hmem
      cases h
      exact ⟨by rintro _ ⟨⟩; decide, Library.isName_htmlName _ (by simpa using hmem)⟩
    · cases h
  · exact Provider.isNamed_exactly (by decide) Library.isName_coreComponents h
  · exact Provider.isNamed_exactly (by decide) (by decide) h

/-- The shared vocabulary finds all constructors under names. -/
theorem Vocabulary.isNamed_shared (h : Vocabulary.shared.chain.resolve? tag = some path) :
    path.IsNamed := by
  have hproviders : Vocabulary.shared.chain.providers = Provider.dash.map Provider.resolve? := rfl
  unfold ProviderChain.resolve? at h
  rw [hproviders, List.findSome?_map] at h
  obtain ⟨provider, hprovider, hpath⟩ := List.exists_of_findSome?_eq_some h
  exact Provider.isNamed_dash hprovider hpath

/-! ## Putting expressions together -/

theorem Expr.Writes.of_items (h : ∀ e ∈ items, e.Writes)
    (hwritable : ∀ s ∈ Expr.subtermsOfItems items, s.isWritable = true) :
    ∃ ts, Printed (.items items) ts := by
  induction items with
  | nil => exact ⟨_, .itemsNil⟩
  | cons e items ih =>
    rw [Expr.subtermsOfItems, List.forall_mem_append] at hwritable
    obtain ⟨us, hus⟩ := h e List.mem_cons_self hwritable.1
    obtain ⟨vs, hvs⟩ := ih (fun e' he => h e' (List.mem_cons_of_mem _ he)) hwritable.2
    exact ⟨_, .itemsCons hus hvs⟩

theorem Expr.Writes.list (h : ∀ e ∈ items, e.Writes) : (Expr.list items).Writes := by
  intro hwritable
  rw [Expr.subterms, List.forall_mem_cons] at hwritable
  obtain ⟨ts, hts⟩ := Expr.Writes.of_items h hwritable.2
  exact ⟨_, .list hts⟩

theorem Expr.Writes.add {left right : Expr} (hleft : left.Writes) (hright : right.Writes) :
    (Expr.binary .add left right).Writes := by
  intro hwritable
  rw [Expr.subterms, List.forall_mem_cons, List.forall_mem_append] at hwritable
  obtain ⟨us, hus⟩ := hleft hwritable.2.1
  obtain ⟨vs, hvs⟩ := hright hwritable.2.2
  exact ⟨_, .binary .add hus hvs⟩

theorem Fragment.writes_concat {es : List Expr} (h : ∀ e ∈ es, e.Writes) :
    (Fragment.concat es).Writes := by
  cases es with
  | nil => exact .list (by simp)
  | cons first rest =>
    rw [List.forall_mem_cons] at h
    obtain ⟨hfirst, hrest⟩ := h
    unfold Fragment.concat
    induction rest generalizing first with
    | nil => exact hfirst
    | cons e rest ih =>
      rw [List.forall_mem_cons] at hrest
      exact ih (.binary .add first e) (hfirst.add hrest.1) hrest.2

theorem Fragment.writes_merge (h : ∀ f ∈ fragments, f.node.Writes) :
    (Fragment.merge fragments).node.Writes := by
  refine Fragment.writes_concat (List.forall_mem_map.mpr fun run hrun => ?_)
  obtain ⟨kind, nodes⟩ := run
  have hnodes : ∀ node ∈ nodes, node.Writes := by
    intro node hnode
    have hmem : Fragment.mk kind node ∈ fragments := by
      rw [← Fragment.flatMap_runs fragments]
      exact List.mem_flatMap.mpr ⟨_, hrun, List.mem_map.mpr ⟨node, hnode, rfl⟩⟩
    exact h _ hmem
  cases kind with
  | scalar => exact .list hnodes
  | list => exact Fragment.writes_concat hnodes

theorem Expr.Writes.of_keywords (h : ∀ pair ∈ pairs, pair.2.Writes)
    (hnamed : ∀ pair ∈ pairs, IsName pair.1)
    (hwritable : ∀ s ∈ Expr.subtermsOfArguments (pairs.map fun pair => .keyword pair.1 pair.2),
      s.isWritable = true) :
    ∃ ts, Printed (.arguments (pairs.map fun pair => .keyword pair.1 pair.2)) ts := by
  induction pairs with
  | nil => exact ⟨_, .argumentsNil⟩
  | cons pair pairs ih =>
    rw [List.map_cons, Expr.subtermsOfArguments, Argument.subterms, List.forall_mem_append] at hwritable
    rw [List.forall_mem_cons] at h hnamed
    obtain ⟨us, hus⟩ := h.1 hwritable.1
    obtain ⟨vs, hvs⟩ := ih h.2 hnamed.2 hwritable.2
    exact ⟨_, .argumentsCons (.keyword hus hnamed.1) hvs⟩

theorem keywords_map (pairs : List (String × Expr)) :
    (pairs.map fun pair => Argument.keyword pair.1 pair.2).filterMap Argument.keyword? =
      pairs.map Prod.fst := by
  induction pairs with
  | nil => rfl
  | cons pair pairs ih => rw [List.map_cons, List.map_cons, ← ih]; rfl

/-- A call of a constructor with different keywords. -/
theorem ConstructorPath.IsNamed.writes_call (hpath : path.IsNamed)
    (h : ∀ pair ∈ pairs, pair.2.Writes) (hnodup : (pairs.map Prod.fst).Nodup) :
    (Expr.call path.callee (pairs.map fun pair => .keyword pair.1 pair.2)).Writes := by
  intro hwritable
  rw [Expr.subterms, List.forall_mem_cons, List.forall_mem_append] at hwritable
  obtain ⟨hcall, -, hargs⟩ := hwritable
  have hnamed : ∀ pair ∈ pairs, IsName pair.1 := by
    intro pair hpair
    have hall := List.all_eq_true.mp hcall _ (List.mem_map_of_mem hpair)
    exact of_decide_eq_true hall
  obtain ⟨us, hus⟩ := hpath.exists_printed
  obtain ⟨vs, hvs⟩ := Expr.Writes.of_keywords h hnamed hargs
  exact ⟨_, .call hus hvs (by rwa [keywords_map])⟩

/-! ## Lowering -/

/-- The same expression, which has a printed form if all of it can be written. -/
def WrittenExpr (kind : FragmentKind) (e e' : Expr) : Prop :=
  SameExpr kind e e' ∧ e.Writes

theorem ItemRel.same {f : Fragment} {item : FragmentKind × Expr} (h : ItemRel WrittenExpr f item) :
    ItemRel SameExpr f item :=
  ⟨h.1, h.2.1⟩

theorem ArgumentRel.same {arg : Argument} {pair : String × Expr} (h : ArgumentRel WrittenExpr arg pair) :
    ArgumentRel SameExpr arg pair := by
  obtain ⟨kind, value, rfl, hvalue⟩ := h
  exact ⟨kind, value, rfl, hvalue.1⟩

theorem PieceRel.same {piece : Piece} {hole : PieceWith Expr} (h : PieceRel WrittenExpr piece hole) :
    PieceRel SameExpr piece hole := by
  cases h with
  | copy text start => exact .copy text start
  | gap name span hfilling => exact .gap name span hfilling.1

theorem writes_of_itemRel {items : List (FragmentKind × Expr)}
    (h : List.Forall₂ (ItemRel WrittenExpr) fragments items) : ∀ f ∈ fragments, f.node.Writes := by
  induction h with
  | nil => simp
  | cons hitem _ ih => exact List.forall_mem_cons.mpr ⟨hitem.2.2, ih⟩

theorem writes_of_argumentRel {args : List Argument}
    (h : List.Forall₂ (ArgumentRel WrittenExpr) args pairs) : ∀ pair ∈ pairs, pair.2.Writes := by
  induction h with
  | nil => simp
  | cons harg _ ih =>
    obtain ⟨kind, value, -, rfl, hvalue⟩ := harg
    exact List.forall_mem_cons.mpr ⟨hvalue, ih⟩

theorem writes_of_lookup {pieces : List Piece} {holes : List (PieceWith Expr)}
    (h : List.Forall₂ (PieceRel WrittenExpr) pieces holes) {n : String}
    (hn : (pieces.filterMap Piece.filling?).lookup n = some e) : e.Writes := by
  induction h with
  | nil => cases hn
  | cons hpiece _ ih =>
    cases hpiece with
    | copy text start => exact ih hn
    | gap name span hfilling =>
      change List.lookup n ((name, _) :: _) = some e at hn
      rw [List.lookup_cons] at hn
      split at hn
      · cases hn
        exact hfilling.2
      · exact ih hn

/-- What is read from pieces has a printed form, if all of it can be written. -/
theorem Pass.simulates_written (template : List Char) {vocabulary : Vocabulary}
    (hvocabulary : ∀ {tag path}, vocabulary.chain.resolve? tag = some path → path.IsNamed) :
    (Pass.lowering (contextFor template vocabulary)).Simulates WrittenExpr (fun n s => n = s)
      (contextFor template vocabulary) (fun source => source.IsFrom template) where
  literal text := ⟨rfl, fun _ => ⟨_, .str text⟩⟩
  call := by
    intro tag path fragments items args pairs hpath hitems hargs hnodup
    refine ⟨SameExpr.call (hitems.imp fun _ _ h => h.same) (hargs.imp fun _ _ h => h.same), ?_⟩
    have hvalues : ∀ pair ∈ ("children", (Fragment.merge fragments).node) :: pairs, pair.2.Writes :=
      List.forall_mem_cons.mpr
        ⟨Fragment.writes_merge (writes_of_itemRel hitems), writes_of_argumentRel hargs⟩
    rw [← map_keyword_of_argumentRel (hargs.imp fun _ _ h => h.same)]
    exact (hvocabulary hpath).writes_call hvalues hnodup
  placeholder n := by
    rintro _ rfl
    exact ⟨rfl, rfl⟩
  read := by
    intro kind source n n' pieces holes hfrom hrun hpieces
    unfold Pass.lowering
    dsimp only
    rw [map_piece_of_pieceRel (hpieces.imp fun _ _ h => h.same)]
    refine SimAt.map_right (SimAt.ofExcept _) ?_
    rintro f _ ⟨rfl, hread⟩
    obtain ⟨e, hparse, rfl⟩ := readPieces_eq_ok hread
    have hreading := (piecesFrom_of_exec hrun).isReading hfrom
    refine ⟨rfl, rfl, fun hwritable => ?_⟩
    dsimp only at hwritable ⊢
    rw [hreading.fill_eq hparse] at hwritable ⊢
    obtain ⟨tokens, htokens, hspells⟩ := Expr.spells_of_parse hparse
    have hlex := Lexer.tokenize_eq_ok_iff.mp ⟨tokens, htokens, rfl⟩
    obtain ⟨us, hus⟩ := exists_printed_of_spells hspells (Lexer.isRead_of_lexes hlex)
      (fun _ => Expr.IsPrintable.of_isWritable) (fun _ _ hn => writes_of_lookup hpieces hn) hwritable
    cases hus with
    | source hprinted => exact ⟨_, hprinted⟩

/-- The source of a compiled template is read as its expression, if its floats are written with a point, it
takes no attribute of an integer constant and all keywords are names. -/
theorem Template.parse_source_eq_expr {text : List Char} {t : Template}
    (h : Template.compile .shared text = .ok t)
    (hwritable : ∀ s ∈ t.expr.subterms, s.isWritable = true) :
    Expr.parse t.source.toList = .ok t.expr := by
  obtain ⟨tree, root, -, -, hfrom, hlower⟩ := Template.exists_of_compile h
  obtain ⟨e, -, -, -, hwrites⟩ :=
    (Pass.simulates_written text Vocabulary.isNamed_shared).exists_of_lower rfl hfrom.isFrom hlower
  obtain ⟨ts, hprinted⟩ := hwrites hwritable
  rw [Template.source, Expr.source, String.toList_ofList]
  exact Expr.parse_print_of_printed hprinted

/-- A float and a keyword beside a nested element. -/
theorem Template.parse_source_of_float :
    ∃ t : Template,
      Template.compile .shared "<p title=\"a\">\x7b0.5 + f((<b/>), k=x.y)\x7d</p>".toList = .ok t ∧
      t.source = "html.P(children=[(0.5 + f(html.B(children=[]), k=x.y))], title='a')" ∧
      (∀ s ∈ t.expr.subterms, s.isWritable = true) ∧ Expr.parse t.source.toList = .ok t.expr := by
  have hread : ∃ tree root,
      Node.parse "<p title=\"a\">\x7b0.5 + f((<b/>), k=x.y)\x7d</p>".toList = .ok tree ∧
      Element.ofNode "<p title=\"a\">\x7b0.5 + f((<b/>), k=x.y)\x7d</p>".toList tree = .ok root ∧
      ((root.lower "<p title=\"a\">\x7b0.5 + f((<b/>), k=x.y)\x7d</p>".toList .shared).toOption.map
        fun e => (e.source, e.subterms.all Expr.isWritable)) =
          some ("html.P(children=[(0.5 + f(html.B(children=[]), k=x.y))], title='a')", true) := by
    refine ⟨?tree, ?root, ?parse, ?reduce, ?lower⟩
    case parse => set_option maxRecDepth 2000 in cbv; rfl
    case reduce => cbv; rfl
    case lower => decide +kernel
  obtain ⟨tree, root, hparse, hroot, hlower⟩ := hread
  obtain ⟨t, ht, hfacts⟩ := Template.exists_of_lower hparse hroot hlower
  obtain ⟨hsource, hall⟩ := Prod.mk.inj hfacts
  have hwritable := List.all_eq_true.mp hall
  exact ⟨t, ht, hsource, hwritable, Template.parse_source_eq_expr ht hwritable⟩

/-- Attributes may have names that are no names of the language. The source is then no expression. -/
theorem Template.source_unread_of_dashed_attribute :
    ∃ t : Template, Template.compile .shared "<div data-x=\"1\"/>".toList = .ok t ∧
      t.source = "html.Div(children=[], data-x='1')" ∧
      ∀ e, Expr.parse t.source.toList ≠ .ok e := by
  have hread : ∃ tree root,
      Node.parse "<div data-x=\"1\"/>".toList = .ok tree ∧
      Element.ofNode "<div data-x=\"1\"/>".toList tree = .ok root ∧
      ((root.lower "<div data-x=\"1\"/>".toList .shared).toOption.map Expr.source) =
        some "html.Div(children=[], data-x='1')" := by
    refine ⟨?tree, ?root, ?parse, ?reduce, ?lower⟩
    case parse => cbv; rfl
    case reduce => cbv; rfl
    case lower => decide +kernel
  obtain ⟨tree, root, hparse, hroot, hlower⟩ := hread
  obtain ⟨t, ht, hsource⟩ := Template.exists_of_lower hparse hroot hlower
  have hunread : (Expr.parse "html.Div(children=[], data-x='1')".toList).toOption.isNone := by cbv
  refine ⟨t, ht, hsource, fun e he => ?_⟩
  rw [show t.source = _ from hsource] at he
  rw [he] at hunread
  cases hunread

end ComponentMarkup
