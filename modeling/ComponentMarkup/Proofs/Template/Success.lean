import ComponentMarkup.Proofs.Element.Elements
import ComponentMarkup.Proofs.Template.Embeddings
import ComponentMarkup.Proofs.Template.Naming
import ComponentMarkup.Proofs.Template.Stages

/-!
# When lowering succeeds

Lowering stops at the first error it finds, and the names that stand for nested elements depend on
the numbers given out before. Neither matters to whether it succeeds: it does exactly where every
element meets conditions of its own, which say nothing of an order or of numbers.

`ExactAt` says under which condition a computation succeeds and what its results are then. It goes
through the parts of a computation one by one, so each function of lowering has its own condition.
-/

namespace ComponentMarkup

open Lexer Lowering

variable {ctx : LoweringContext} {n n' : Nat}

/-! ## Computations that succeed exactly under a condition -/

/-- From a number, a computation succeeds exactly under a condition, and its results have a
property. -/
structure ExactAt {α : Type} (n : Nat) (x : Lowering α) (P : Prop) (Q : α → Prop) : Prop where
  succeeds : (∃ a n', Numbering.exec x n = (.ok a, n')) ↔ P
  result : ∀ {a n'}, Numbering.exec x n = (.ok a, n') → Q a

namespace ExactAt

variable {α β : Type} {n : Nat} {x : Lowering α} {P P' : Prop} {Q : α → Prop} {Q' : β → Prop}

theorem congr (h : ExactAt n x P Q) (hiff : P ↔ P') : ExactAt n x P' Q :=
  ⟨h.succeeds.trans hiff, h.result⟩

theorem pure {a : α} (hP : P) (hQ : Q a) : ExactAt n (pure a) P Q := by
  refine ⟨iff_of_true ⟨a, n, rfl⟩ hP, fun hrun => ?_⟩
  cases hrun
  exact hQ

theorem ofExcept {r : Except CompileError α} (hP : (∃ a, r = .ok a) ↔ P)
    (hQ : ∀ a, r = .ok a → Q a) : ExactAt n (Numbering.ofExcept r) P Q := by
  refine ⟨Iff.trans ⟨?_, ?_⟩ hP, fun hrun => hQ _ (congrArg Prod.fst hrun)⟩
  · rintro ⟨a, n', hrun⟩
    exact ⟨a, congrArg Prod.fst hrun⟩
  · rintro ⟨a, rfl⟩
    exact ⟨a, n, rfl⟩

/-- One after the other. The later computations start from what the first of them left. -/
theorem bind {f : α → Lowering β} (hx : ExactAt n x P Q)
    (hf : ∀ a n', Numbering.exec x n = (.ok a, n') → Q a → ExactAt n' (f a) P' Q') :
    ExactAt n (x >>= f) (P ∧ P') Q' := by
  refine ⟨⟨?_, ?_⟩, ?_⟩
  · rintro ⟨b, n', hrun⟩
    obtain ⟨a, n₁, ha, hb⟩ := Numbering.exec_bind_eq_ok hrun
    exact ⟨hx.succeeds.mp ⟨a, n₁, ha⟩, (hf a n₁ ha (hx.result ha)).succeeds.mp ⟨b, n', hb⟩⟩
  · rintro ⟨hP, hP'⟩
    obtain ⟨a, n₁, ha⟩ := hx.succeeds.mpr hP
    rw [Numbering.exec_bind, ha]
    exact (hf a n₁ ha (hx.result ha)).succeeds.mpr hP'
  · intro b n' hrun
    obtain ⟨a, n₁, ha, hb⟩ := Numbering.exec_bind_eq_ok hrun
    exact (hf a n₁ ha (hx.result ha)).result hb

theorem map {f : α → β} (hx : ExactAt n x P Q) (hf : ∀ a, Q a → Q' (f a)) :
    ExactAt n (x >>= fun a => Pure.pure (f a)) P Q' :=
  (hx.bind fun a _ _ ha => .pure trivial (hf a ha)).congr (iff_of_eq (and_true P))

/-- A check that comes first. -/
theorem check {c : Prop} [Decidable c] (e : CompileError) {f : PUnit → Lowering α}
    (h : ¬ c → ExactAt n (f ()) P Q) :
    ExactAt n (if c then (throw e : Lowering PUnit) >>= f else f ()) (¬ c ∧ P) Q := by
  by_cases hc : c
  · rw [if_pos hc]
    refine ⟨iff_of_false ?_ fun h => h.1 hc, fun hrun => ?_⟩
    · rintro ⟨a, n', hrun⟩
      cases hrun
    · cases hrun
  · rw [if_neg hc]
    exact (h hc).congr (and_iff_right hc).symm

end ExactAt

/-! ## Names for gaps -/

/-- Names that may stand for the elements nested in an expression, one for each. -/
structure EmbeddedExpr.NamesFor (template : List Char) (source : EmbeddedExpr)
    (names : List String) : Prop where
  fresh : FreshNames template names
  length : names.length = source.nested.length

/-- The expression can be read with some names for the elements in it. -/
def Embedding.ReadWithSome (template : List Char) (embedding : Embedding) : Prop :=
  ∃ names, embedding.source.NamesFor template names ∧
    Expr.Readable (embedding.source.reading embedding.kind names)

/-- The expression can be read with whatever names for the elements in it. -/
def Embedding.ReadWithAll (template : List Char) (embedding : Embedding) : Prop :=
  ∀ names, embedding.source.NamesFor template names →
    Expr.Readable (embedding.source.reading embedding.kind names)

theorem freshNames_numbered (template : List Char) {ks : List Nat} (hks : ks.Nodup) :
    FreshNames template (ks.map (numbered (stemFor template))) where
  isName name hname := by
    obtain ⟨k, -, rfl⟩ := List.mem_map.mp hname
    obtain ⟨m, hstem, -, -⟩ := stemFor_spec template
    rw [hstem]
    exact isName_numbered m k
  nodup := hks.map fun _ _ => numbered_inj
  apart name hname := by
    obtain ⟨k, -, rfl⟩ := List.mem_map.mp hname
    intro hwithin
    exact ne_numbered_of_infix hwithin k rfl

/-- Every expression can have names for the elements nested in it. -/
theorem EmbeddedExpr.exists_namesFor (template : List Char) (source : EmbeddedExpr) :
    ∃ names, source.NamesFor template names := by
  refine ⟨_, freshNames_numbered template (List.nodup_range (n := source.nested.length)), ?_⟩
  rw [List.length_map, List.length_range]

section

variable {template : List Char} {vocabulary : Vocabulary} {embedding : Embedding}
  {source : EmbeddedExpr} {pieces : List Piece}

/-- All names are as good as others. -/
theorem Embedding.readWithSome_iff {names : List String}
    (hfrom : embedding.source.IsFrom template) (h : embedding.source.NamesFor template names) :
    embedding.ReadWithSome template ↔
      Expr.Readable (embedding.source.reading embedding.kind names) := by
  refine ⟨?_, fun hread => ⟨names, h, hread⟩⟩
  rintro ⟨others, hothers, hread⟩
  exact EmbeddedExpr.readable_of_fresh hfrom hothers.fresh h.fresh hothers.length h.length hread

theorem Embedding.readWithAll_iff (hfrom : embedding.source.IsFrom template) :
    embedding.ReadWithAll template ↔ embedding.ReadWithSome template := by
  refine ⟨fun h => ?_, fun h names hnames => (readWithSome_iff hfrom hnames).mp h⟩
  obtain ⟨names, hnames⟩ := embedding.source.exists_namesFor template
  exact ⟨names, hnames, h names hnames⟩

theorem EmbeddedExpr.length_nestedOfAll (source : EmbeddedExpr) :
    (Segment.nestedOfAll source.segments).length = source.nested.length := by
  rw [Segment.nestedOfAll, nested]
  induction source.segments with
  | nil => rfl
  | cons segment rest ih =>
    obtain ⟨text, span, _ | e⟩ := segment
    · exact ih
    · exact congrArg (· + 1) ih

/-- Another way to say that an expression can be read with names for the elements in it. -/
def Decides (template : List Char) (Accepts : Embedding → Prop) : Prop :=
  ∀ embedding : Embedding, embedding.source.IsFrom template →
    (embedding.ReadWithSome template ↔ Accepts embedding)

/-- The placeholders of an expression are names for the elements in it. -/
theorem Lowering.PiecesFrom.namesFor
    (h : PiecesFrom (contextFor template vocabulary) source.segments n n' pieces) :
    source.NamesFor template (gapNames pieces) where
  fresh := by
    obtain ⟨ks, hnames, hsorted, -⟩ := h.numbers
    rw [hnames]
    exact freshNames_numbered template (hsorted.imp Nat.ne_of_lt)
  length := by
    rw [length_gapNames h.aligned, source.length_nestedOfAll]

theorem exists_readPieces_iff (kind : FragmentKind) (span : Span) (hfrom : source.IsFrom template)
    (h : PiecesFrom (contextFor template vocabulary) source.segments n n' pieces) :
    (∃ f, readPieces kind span pieces = .ok f) ↔
      Embedding.ReadWithSome template ⟨kind, source⟩ := by
  have htext := text_spliceExpr_eq_joined kind h.aligned fun name hname =>
    (h.namesFor.fresh.isName name hname).isBlank
  rw [Embedding.readWithSome_iff hfrom h.namesFor, EmbeddedExpr.reading, ← htext, Expr.Readable]
  constructor
  · rintro ⟨f, hf⟩
    obtain ⟨e, he, -⟩ := readPieces_eq_ok hf
    exact ⟨e, he⟩
  · rintro ⟨e, he⟩
    refine ⟨⟨kind, (e.fill.run (pieces.filterMap Piece.filling?)).1⟩, ?_⟩
    rw [readPieces, he]

end

/-! ## Conditions on elements -/

/-- The expression that an item of content is. -/
def ContentItem.ownEmbeddings : ContentItem → List Embedding
  | .element _ | .literal _ => []
  | .expr source => [⟨.scalar, source⟩]
  | .spread source => [⟨.list, source⟩]

/-- The expression that the value of an attribute is. -/
def AttributeValue.ownEmbeddings : AttributeValue → List Embedding
  | .literal _ => []
  | .expr source => [⟨.scalar, source⟩]
  | .spread source => [⟨.list, source⟩]

/-- The arguments that attributes are passed as. -/
def Vocabulary.argumentsFor (vocabulary : Vocabulary) (attrs : List Attribute) : List String :=
  attrs.map fun attr => vocabulary.arguments.argumentFor attr.name

namespace Element

/-- The expressions of an element itself: those in its content, then those of its attributes. -/
def ownEmbeddings (x : Element) : List Embedding :=
  x.children.flatMap ContentItem.ownEmbeddings ++ x.attrs.flatMap (·.value.ownEmbeddings)

/-- What lowering asks of an element itself. -/
structure Meets (vocabulary : Vocabulary) (Accepts : Embedding → Prop) (x : Element) : Prop where
  resolved : ∃ path, vocabulary.chain.resolve? x.tag = some path
  distinct : (vocabulary.argumentsFor x.attrs).Nodup
  free : "children" ∉ vocabulary.argumentsFor x.attrs
  accepted : ∀ embedding ∈ x.ownEmbeddings, Accepts embedding

/-- The call is one of the constructor for the tag of an element. Its arguments are keywords:
`children` comes first, then the attributes follow, and no two have the same name. -/
def IsMadeInto (vocabulary : Vocabulary) (x : Element) (call : Expr) : Prop :=
  ∃ path args, vocabulary.chain.resolve? x.tag = some path ∧ call = .call path.callee args ∧
    args.map Argument.keyword? = ("children" :: vocabulary.argumentsFor x.attrs).map some ∧
    ("children" :: vocabulary.argumentsFor x.attrs).Nodup

end Element

/-- All elements and expressions in a part of a template are what lowering asks for. -/
structure Sound (vocabulary : Vocabulary) (Accepts : Embedding → Prop) (elements : List Element)
    (embeddings : List Embedding) : Prop where
  elements : ∀ x ∈ elements, x.tag.isEmpty = false ∧ x.Meets vocabulary Accepts
  embeddings : ∀ embedding ∈ embeddings, Accepts embedding

/-- Lowering the element from some number succeeds. -/
def Element.IsLowered (ctx : LoweringContext) (x : Element) : Prop :=
  ∃ n call n', Numbering.exec (Lowering.element ctx x) n = (.ok call, n')

/-- Lowering the expression from some number succeeds. -/
def Embedding.IsLowered (ctx : LoweringContext) (embedding : Embedding) : Prop :=
  ∃ n f n', Numbering.exec (Lowering.expression ctx embedding.kind embedding.source) n = (.ok f, n')

/-- All elements and expressions in a part of a template are lowered. -/
structure Lowered (ctx : LoweringContext) (elements : List Element) (embeddings : List Embedding) :
    Prop where
  elements : ∀ x ∈ elements, x.IsLowered ctx
  embeddings : ∀ embedding ∈ embeddings, embedding.IsLowered ctx

theorem lowered_nil : Lowered ctx [] [] :=
  ⟨List.forall_mem_nil _, List.forall_mem_nil _⟩

theorem Lowered.append {elements elements' : List Element}
    {embeddings embeddings' : List Embedding} (h : Lowered ctx elements embeddings)
    (h' : Lowered ctx elements' embeddings') :
    Lowered ctx (elements ++ elements') (embeddings ++ embeddings') :=
  ⟨List.forall_mem_append.mpr ⟨h.elements, h'.elements⟩,
    List.forall_mem_append.mpr ⟨h.embeddings, h'.embeddings⟩⟩

section

variable {vocabulary : Vocabulary} {Accepts : Embedding → Prop}
  {elements elements' : List Element}

theorem sound_nil : Sound vocabulary Accepts [] [] :=
  ⟨List.forall_mem_nil _, List.forall_mem_nil _⟩

theorem sound_append (embeddings embeddings' : List Embedding) :
    Sound vocabulary Accepts (elements ++ elements') (embeddings ++ embeddings') ↔
      Sound vocabulary Accepts elements embeddings ∧
        Sound vocabulary Accepts elements' embeddings' := by
  constructor
  · rintro ⟨helements, hembeddings⟩
    rw [List.forall_mem_append] at helements hembeddings
    exact ⟨⟨helements.1, hembeddings.1⟩, helements.2, hembeddings.2⟩
  · rintro ⟨h, h'⟩
    exact ⟨List.forall_mem_append.mpr ⟨h.elements, h'.elements⟩,
      List.forall_mem_append.mpr ⟨h.embeddings, h'.embeddings⟩⟩

/-- A name that was not seen before, and then others that are not it. -/
theorem sound_append_nodup {embeddings embeddings' : List Embedding} {name : String}
    {names seen : List String} :
    (¬ seen.contains name = true ∧ Sound vocabulary Accepts elements embeddings ∧
        Sound vocabulary Accepts elements' embeddings' ∧ (names ++ name :: seen).Nodup) ↔
      Sound vocabulary Accepts (elements ++ elements') (embeddings ++ embeddings') ∧
        (name :: names ++ seen).Nodup := by
  rw [sound_append, List.nodup_middle, List.cons_append, and_assoc]
  refine and_iff_right_of_imp fun h hseen => ?_
  have hname := (List.nodup_cons.mp h.2.2).1
  exact hname (List.mem_append_right _ (List.contains_iff_mem.mp hseen))

/-- An element itself, and all elements in it. -/
theorem sound_element {tag : String} {attrs : List Attribute} {content : Option (List ContentItem)}
    {span : Span} :
    (¬ tag.isEmpty = true ∧ (∃ path, vocabulary.chain.resolve? tag = some path) ∧
        Sound vocabulary Accepts (ContentItem.elementsOfOptional content)
          ((content.getD []).flatMap ContentItem.ownEmbeddings) ∧
        Sound vocabulary Accepts (Attribute.elementsOfAll attrs)
          (attrs.flatMap (·.value.ownEmbeddings)) ∧
        (vocabulary.argumentsFor attrs ++ ["children"]).Nodup) ↔
      Sound vocabulary Accepts (Element.elements ⟨tag, attrs, content, span⟩) [] := by
  rw [← and_assoc (a := Sound ..), ← sound_append, List.nodup_middle, List.append_nil,
    List.nodup_cons]
  constructor
  · rintro ⟨htag, hpath, ⟨helements, hembeddings⟩, hfree, hdistinct⟩
    refine ⟨List.forall_mem_cons.mpr ⟨⟨Bool.not_eq_true _ ▸ htag, ?_⟩, helements⟩,
      List.forall_mem_nil _⟩
    exact ⟨hpath, hdistinct, hfree, hembeddings⟩
  · rintro ⟨helements, -⟩
    obtain ⟨⟨htag, hmeets⟩, helements⟩ := List.forall_mem_cons.mp helements
    exact ⟨Bool.not_eq_true _ ▸ htag, hmeets.resolved, ⟨helements, hmeets.accepted⟩,
      hmeets.free, hmeets.distinct⟩

theorem sound_singleton {embedding : Embedding} :
    Sound vocabulary Accepts elements [embedding] ↔
      Sound vocabulary Accepts elements [] ∧ Accepts embedding := by
  constructor
  · rintro ⟨helements, hembeddings⟩
    exact ⟨⟨helements, List.forall_mem_nil _⟩, hembeddings embedding List.mem_cons_self⟩
  · rintro ⟨h, hread⟩
    exact ⟨h.elements, List.forall_mem_singleton.mpr hread⟩

end

/-! ## What elements become -/

/-- Every attribute becomes one argument, under a name that the call does not have yet. -/
theorem keywords_of_exec {tag : String} {seen : List String} {attrs : List Attribute}
    {args : List Argument}
    (h : Numbering.exec (Lowering.attributes ctx tag seen attrs) n = (.ok args, n'))
    (hseen : seen.Nodup) :
    args.map Argument.keyword? = (ctx.vocabulary.argumentsFor attrs).map some ∧
      (ctx.vocabulary.argumentsFor attrs ++ seen).Nodup := by
  induction attrs generalizing seen n args with
  | nil =>
    cases h
    exact ⟨rfl, hseen⟩
  | cons attr rest ih =>
    obtain ⟨name, value, span⟩ := attr
    rw [Lowering.attributes] at h
    split at h
    · cases h
    · rename_i hfree
      obtain ⟨x, _, -, h₁⟩ := Numbering.exec_bind_eq_ok h
      obtain ⟨more, _, hmore, h₂⟩ := Numbering.exec_bind_eq_ok h₁
      cases h₂
      rw [List.contains_iff_mem] at hfree
      obtain ⟨hkeywords, hnodup⟩ := ih hmore (List.nodup_cons.mpr ⟨hfree, hseen⟩)
      exact ⟨congrArg (some _ :: ·) hkeywords, List.nodup_middle.mp hnodup⟩

theorem isMadeInto_of_exec {x : Element} {call : Expr}
    (h : Numbering.exec (Lowering.element ctx x) n = (.ok call, n')) :
    x.IsMadeInto ctx.vocabulary call := by
  obtain ⟨tag, attrs, content, span⟩ := x
  rw [Lowering.element] at h
  split at h
  · cases h
  · obtain ⟨path, _, hpath, h₁⟩ := Numbering.exec_bind_eq_ok h
    obtain ⟨children, _, -, h₂⟩ := Numbering.exec_bind_eq_ok h₁
    obtain ⟨args, _, hargs, h₃⟩ := Numbering.exec_bind_eq_ok h₂
    cases h₃
    obtain ⟨hkeywords, hnodup⟩ := keywords_of_exec hargs (List.nodup_singleton _)
    refine ⟨path, _, resolve_eq_ok (congrArg Prod.fst hpath), rfl, ?_, ?_⟩
    · exact congrArg (some _ :: ·) hkeywords
    · rwa [List.nodup_middle, List.append_nil] at hnodup

/-! ## Conditions of lowering -/

section

variable {template : List Char} {vocabulary : Vocabulary} {Accepts : Embedding → Prop}
  {tree : Node} {root : Element}

theorem exactAt_placeholder (ctx : LoweringContext) (n : Nat) :
    ExactAt n (placeholder ctx) True fun _ => True :=
  ⟨iff_of_true ⟨_, _, exec_placeholder ctx n⟩ trivial, fun _ => trivial⟩

theorem exists_resolve_iff {tag : String} {span : Span} :
    (∃ path, resolve ctx tag span = .ok path) ↔
      ∃ path, ctx.vocabulary.chain.resolve? tag = some path := by
  constructor
  · rintro ⟨path, hpath⟩
    exact ⟨path, resolve_eq_ok hpath⟩
  · rintro ⟨path, hpath⟩
    refine ⟨path, ?_⟩
    rw [resolve, hpath]

/-- The expressions of a part that are not in an element nested in it. -/
def Element.Part.ownEmbeddings : Part → List Embedding
  | .attributes attrs => attrs.flatMap (·.value.ownEmbeddings)
  | .value v => v.ownEmbeddings
  | .content items? => (items?.getD []).flatMap ContentItem.ownEmbeddings
  | .items is => is.flatMap ContentItem.ownEmbeddings
  | .item i => i.ownEmbeddings
  | .source kind inner => [⟨kind, inner⟩]
  | .element _ | .segments _ => []

/-- What lowering asks of a part. Attributes need arguments that the call does not have yet. -/
def Element.Part.Accepted (vocabulary : Vocabulary) (Accepts : Embedding → Prop) (seen : List String)
    (part : Part) : Prop :=
  match part with
  | .attributes attrs => Sound vocabulary Accepts part.elements part.ownEmbeddings ∧
      (vocabulary.argumentsFor attrs ++ seen).Nodup
  | _ => Sound vocabulary Accepts part.elements part.ownEmbeddings

/-- A part is lowered exactly where all elements and expressions in it are sound, and all of them are
lowered then. -/
theorem exactAt_lower (h : Decides template Accepts) (part : Element.Part) (tag : String)
    (seen : List String) (hseen : seen.Nodup)
    (hfrom : ∀ source ∈ part.sources, source.IsFrom template) (n : Nat) :
    ExactAt n (part.lower (contextFor template vocabulary) tag seen)
      (part.Accepted vocabulary Accepts seen)
      fun _ => Lowered (contextFor template vocabulary) part.elements part.embeddings := by
  induction part generalizing tag seen n with
  | element name attrs content span ih₁ ih₂ =>
    have hfrom := List.forall_mem_append.mp hfrom
    have hexact : ExactAt n
        (Lowering.element (contextFor template vocabulary) ⟨name, attrs, content, span⟩)
        (Sound vocabulary Accepts (Element.elements ⟨name, attrs, content, span⟩) [])
        fun _ => Lowered (contextFor template vocabulary)
          (ContentItem.elementsOfOptional content ++ Attribute.elementsOfAll attrs)
          (Attribute.embeddingsOfAll attrs ++ ContentItem.embeddingsOfOptional content) := by
      rw [Lowering.element]
      refine ExactAt.congr (ExactAt.check _ fun _ => ?_) sound_element
      refine (ExactAt.ofExcept exists_resolve_iff fun _ _ => trivial).bind fun path n₁ _ _ => ?_
      refine (ih₂ name _ hseen hfrom.2 n₁).bind fun children n₂ _ hchildren => ?_
      refine (ih₁ name _ (List.nodup_singleton _) hfrom.1 n₂).map fun args hargs => ?_
      exact ⟨(hchildren.append hargs).elements, (hargs.append hchildren).embeddings⟩
    -- the run at hand is the one that lowers the element itself
    refine ⟨hexact.succeeds, fun hrun => ⟨?_, (hexact.result hrun).embeddings⟩⟩
    exact List.forall_mem_cons.mpr ⟨⟨n, _, _, hrun⟩, (hexact.result hrun).elements⟩
  | moreAttributes name value span rest ih₁ ih₂ =>
    have hfrom := List.forall_mem_append.mp hfrom
    rw [Element.Part.lower, Lowering.attributes]
    refine ExactAt.congr (ExactAt.check _ fun hfree => ?_) sound_append_nodup
    have hseen' : (vocabulary.arguments.argumentFor name :: seen).Nodup :=
      List.nodup_cons.mpr ⟨fun hmem => hfree (List.contains_iff_mem.mpr hmem), hseen⟩
    refine (ih₁ tag seen hseen hfrom.1 n).bind fun x n₁ _ hvalue => ?_
    exact (ih₂ tag _ hseen' hfrom.2 n₁).map fun args hargs => hvalue.append hargs
  | moreItems item rest ih₁ ih₂ =>
    have hfrom := List.forall_mem_append.mp hfrom
    rw [Element.Part.lower, Lowering.contentItems]
    refine ExactAt.congr ?_ (sound_append _ _).symm
    refine (ih₁ tag seen hseen hfrom.1 n).bind fun f n₁ _ hfirst => ?_
    exact (ih₂ tag seen hseen hfrom.2 n₁).map fun fs hrest => hfirst.append hrest
  | source kind span segments ih =>
    have hfrom := List.forall_mem_cons.mp hfrom
    have hne : ¬ segments.isEmpty = true := by simpa using hfrom.1.nonempty
    have hexact : ExactAt n
        (Lowering.expression (contextFor template vocabulary) kind ⟨span, segments⟩)
        (Sound vocabulary Accepts (Segment.elementsOfAll segments) [⟨kind, ⟨span, segments⟩⟩])
        fun _ => Lowered (contextFor template vocabulary) (Segment.elementsOfAll segments)
          (Segment.embeddingsOfAll segments) := by
      rw [Lowering.expression]
      refine ExactAt.congr ?_ ((and_iff_right hne).trans sound_singleton.symm)
      refine ExactAt.check _ fun _ => ?_
      refine (ih tag seen hseen hfrom.2 n).bind fun pieces n₁ hrun hpieces => ?_
      have hreads := exists_readPieces_iff kind span hfrom.1 (piecesFrom_of_exec hrun)
      exact .ofExcept (hreads.trans (h _ hfrom.1)) fun _ _ => hpieces
    refine ⟨hexact.succeeds, fun hrun => ⟨(hexact.result hrun).elements, ?_⟩⟩
    exact List.forall_mem_cons.mpr ⟨⟨n, _, _, hrun⟩, (hexact.result hrun).embeddings⟩
  | nestedSegment text span e rest ih₁ ih₂ =>
    have hfrom := List.forall_mem_append.mp hfrom
    rw [Element.Part.lower, Lowering.pieces]
    refine ExactAt.congr ?_ (sound_append [] []).symm
    refine (ih₁ tag seen hseen hfrom.1 n).bind fun filling n₁ _ hfilling => ?_
    refine ((exactAt_placeholder _ n₁).bind fun name n₂ _ _ => ?_).congr (iff_of_eq (true_and _))
    exact (ih₂ tag seen hseen hfrom.2 n₂).map fun _ hrest => hfilling.append hrest
  | noAttributes => exact .pure ⟨sound_nil, hseen⟩ lowered_nil
  | literalValue | noContent | noItems | literalItem | noSegments =>
    exact .pure sound_nil lowered_nil
  | someContent _ ih | exprItem _ ih | spreadItem _ ih => exact ih tag seen hseen hfrom n
  | exprValue _ ih | spreadValue _ ih | elementItem _ ih | rawSegment _ _ _ ih =>
    exact (ih tag seen hseen hfrom n).map fun _ hlowered => hlowered

/-- The root element of a template is lowered from the first number. -/
theorem exactAt_root (vocabulary : Vocabulary) (h : Decides template Accepts)
    (hparse : Node.parse template = .ok tree) (hroot : Element.ofNode template tree = .ok root) :
    ExactAt 0 (Lowering.element (contextFor template vocabulary) root)
      (Sound vocabulary Accepts root.elements [])
      fun _ => Lowered (contextFor template vocabulary) root.elements root.embeddings := by
  obtain ⟨found, hrun, hfrom⟩ := Element.ofNode_of_parse hparse
  obtain rfl : found = root :=
    Except.ok.inj ((run'_eq_ok.mpr ⟨[], hrun⟩).symm.trans hroot)
  exact exactAt_lower h (.element found) found.tag [] List.nodup_nil hfrom.isFrom 0

/-- An element of a template is lowered exactly where all elements in it meet their conditions, in
any way to say that expressions are accepted. -/
theorem exists_lower_iff (h : Decides template Accepts) (hparse : Node.parse template = .ok tree)
    (hroot : Element.ofNode template tree = .ok root) :
    (∃ call, root.lower template vocabulary = .ok call) ↔
      ∀ x ∈ root.elements, x.Meets vocabulary Accepts := by
  have htagged := Element.tagged_of_parse hparse hroot
  have hexact := exactAt_root vocabulary h hparse hroot
  have hrun : (∃ call, root.lower template vocabulary = .ok call) ↔
      ∃ call n', Numbering.exec (Lowering.element (contextFor template vocabulary) root) 0 =
        (.ok call, n') := by
    constructor
    · rintro ⟨call, hcall⟩
      exact ⟨call, _, Prod.ext hcall rfl⟩
    · rintro ⟨call, n', hcall⟩
      exact ⟨call, congrArg Prod.fst hcall⟩
  rw [hrun, hexact.succeeds]
  constructor
  · exact fun hsound x hx => (hsound.elements x hx).2
  · exact fun hmeets => ⟨fun x hx => ⟨htagged x hx, hmeets x hx⟩, List.forall_mem_nil _⟩

end

/-- An element of a template is lowered exactly where all elements in it, at any depth, meet their
conditions: the tag is resolved, the arguments for the attributes have different names other than
`children`, and every expression can be read with fresh names for the elements nested in it. Which
names these are does not matter. Then every element in it is lowered too, and wherever it is, it
becomes a call with `children` first and with arguments of different names. -/
theorem Element.lower_succeeds_iff (vocabulary : Vocabulary) {template : List Char} {tree : Node}
    {root : Element} (hparse : Node.parse template = .ok tree)
    (hroot : Element.ofNode template tree = .ok root) :
    ((∃ call, root.lower template vocabulary = .ok call) ↔
        ∀ x ∈ root.elements, x.Meets vocabulary (Embedding.ReadWithSome template)) ∧
      ((∃ call, root.lower template vocabulary = .ok call) ↔
        ∀ x ∈ root.elements, x.Meets vocabulary (Embedding.ReadWithAll template)) ∧
      ∀ call, root.lower template vocabulary = .ok call → root.IsMadeInto vocabulary call ∧
        ∀ x ∈ root.elements, x.IsLowered (contextFor template vocabulary) ∧ ∀ n call n',
          Numbering.exec (Lowering.element (contextFor template vocabulary) x) n = (.ok call, n') →
            x.IsMadeInto vocabulary call := by
  have hsome : Decides template (Embedding.ReadWithSome template) := fun _ _ => Iff.rfl
  have hall : Decides template (Embedding.ReadWithAll template) :=
    fun _ hfrom => (Embedding.readWithAll_iff hfrom).symm
  refine ⟨exists_lower_iff hsome hparse hroot, exists_lower_iff hall hparse hroot, ?_⟩
  intro call hlower
  have hrun : Numbering.exec (Lowering.element (contextFor template vocabulary) root) 0 =
      (.ok call, _) := Prod.ext hlower rfl
  have hlowered := (exactAt_root vocabulary hsome hparse hroot).result hrun
  exact ⟨isMadeInto_of_exec hrun, fun x hx => ⟨hlowered.elements x hx, fun _ _ _ => isMadeInto_of_exec⟩⟩

/-- An element in an element in brackets, and one in the value of an attribute. -/
theorem Element.lower_succeeds_iff_of_nested :
    ∃ (tree : Node) (root : Element) (call : Expr),
      Node.parse "<p a=\x7bf((<b/>))\x7d>[(<i>\x7bc\x7d</i>) for c in d]</p>".toList = .ok tree ∧
      Element.ofNode "<p a=\x7bf((<b/>))\x7d>[(<i>\x7bc\x7d</i>) for c in d]</p>".toList tree =
        .ok root ∧
      root.elements.map Element.tag = ["p", "i", "b"] ∧
      root.lower "<p a=\x7bf((<b/>))\x7d>[(<i>\x7bc\x7d</i>) for c in d]</p>".toList .shared =
        .ok call ∧
      root.IsMadeInto .shared call ∧
      ∀ x ∈ root.elements, x.Meets .shared (Embedding.ReadWithAll
        "<p a=\x7bf((<b/>))\x7d>[(<i>\x7bc\x7d</i>) for c in d]</p>".toList) := by
  have hread : ∃ tree root,
      Node.parse "<p a=\x7bf((<b/>))\x7d>[(<i>\x7bc\x7d</i>) for c in d]</p>".toList = .ok tree ∧
      Element.ofNode "<p a=\x7bf((<b/>))\x7d>[(<i>\x7bc\x7d</i>) for c in d]</p>".toList tree =
        .ok root ∧
      root.elements.map Element.tag = ["p", "i", "b"] ∧
      (root.lower "<p a=\x7bf((<b/>))\x7d>[(<i>\x7bc\x7d</i>) for c in d]</p>".toList
        .shared).toOption.isSome = true := by
    refine ⟨?tree, ?root, ?parse, ?reduce, ?tags, ?lower⟩
    case parse => set_option maxRecDepth 2000 in cbv; rfl
    case reduce => cbv; rfl
    case tags => rfl
    case lower => decide +kernel
  obtain ⟨tree, root, hparse, hroot, htags, hsome⟩ := hread
  cases hlower : root.lower "<p a=\x7bf((<b/>))\x7d>[(<i>\x7bc\x7d</i>) for c in d]</p>".toList
    .shared with
  | error e =>
    rw [hlower] at hsome
    cases hsome
  | ok call =>
    obtain ⟨-, hall, hmade⟩ := Element.lower_succeeds_iff .shared hparse hroot
    exact ⟨tree, root, call, hparse, hroot, htags, hlower, (hmade call hlower).1,
      hall.mp ⟨call, hlower⟩⟩

end ComponentMarkup
