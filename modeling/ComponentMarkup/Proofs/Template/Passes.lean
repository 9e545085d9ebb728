import ComponentMarkup.Proofs.Element.Reducing
import ComponentMarkup.Template.Lowering

/-!
# Passes over elements

Lowering goes through an element in a fixed order, makes an expression of every part and puts them
together. A `Pass` goes the same way but makes something else of the parts: it says what becomes of a
literal text, of a call and of the pieces of an expression, and keeps a state of its own.

`Pass.Simulates` compares a pass with lowering: a relation between expressions and what the pass makes
holds for literals, is kept by calls and by reading pieces, and placeholders agree. Then it holds for
every element (`Pass.simAt_element`): both fail with the same error, or both succeed with related
results.
-/

namespace ComponentMarkup

/-! ## Computations that may fail and have a state -/

/-- A computation that may fail, with a state that outlives a failure. -/
abbrev Numbering (σ : Type) := ExceptT CompileError (StateM σ)

namespace Numbering

variable {σ α β : Type}

/-- The outcome of a computation and the state it leaves. -/
def exec (x : Numbering σ α) (s : σ) : Except CompileError α × σ :=
  x.run.run s

/-- Succeed or fail as a result says. -/
def ofExcept (r : Except CompileError α) : Numbering σ α :=
  ExceptT.mk (pure r)

theorem exec_ofExcept (r : Except CompileError α) (s : σ) : exec (ofExcept r) s = (r, s) := rfl

theorem exec_bind (x : Numbering σ α) (f : α → Numbering σ β) (s : σ) :
    exec (x >>= f) s =
      match exec x s with
      | (.ok a, s') => exec (f a) s'
      | (.error e, s') => (.error e, s') := by
  unfold exec
  change (ExceptT.bindCont (fun a => f a) (x.run.run s).1) (x.run.run s).2 = _
  rcases x.run.run s with ⟨_ | _, s'⟩ <;> rfl

end Numbering

/-! ## Lowering parts -/

namespace Element.Part

/-- What lowering makes of a part. -/
def Result : Part → Type
  | .element _ | .value _ => Expr
  | .attributes _ => List Argument
  | .content _ | .items _ => List Fragment
  | .item _ | .source .. => Fragment
  | .segments _ => List Lowering.Piece

/-- Lowering of a part. Attributes belong to an element with a tag, and their call has some arguments
already. -/
def lower (ctx : LoweringContext) (tag : String) (seen : List String) :
    (part : Part) → Lowering part.Result
  | .element e => Lowering.element ctx e
  | .attributes attrs => Lowering.attributes ctx tag seen attrs
  | .value v => Lowering.attributeValue ctx v
  | .content items? => Lowering.optionalContent ctx items?
  | .items is => Lowering.contentItems ctx is
  | .item i => Lowering.contentItem ctx i
  | .source kind inner => Lowering.expression ctx kind inner
  | .segments ss => Lowering.pieces ctx ss

end Element.Part

/-! ## Passes -/

/-- A piece of the source of an expression, with what a pass makes of the element in a gap. -/
inductive PieceWith (α : Type) where
  | copy (text : List Char) (start : Nat)
  | gap (name : String) (span : Span) (filling : α)

/-- The gap of a piece, with what fills it. -/
def PieceWith.gap? {α : Type} : PieceWith α → Option (String × α)
  | .copy .. => none
  | .gap name _ filling => some (name, filling)

/-- What fills the gaps of pieces. -/
def PieceWith.gaps {α : Type} (holes : List (PieceWith α)) : List (String × α) :=
  holes.filterMap PieceWith.gap?

/-- What to make of the parts of an element. -/
structure Pass (σ α : Type) where
  literal : String → α
  /-- A call with content, each item with its kind, and further arguments with their names. -/
  call : ConstructorPath → List (FragmentKind × α) → List (String × α) → α
  placeholder : Numbering σ String
  read : FragmentKind → Span → List (PieceWith α) → Numbering σ α

namespace Pass

variable {σ α : Type}

mutual

/-- What becomes of an element. -/
def element (pass : Pass σ α) (ctx : LoweringContext) (e : Element) : Numbering σ α :=
  match e with
  | ⟨tag, attrs, content, span⟩ => do
    if tag.isEmpty then
      throw ⟨.noTagName, span⟩
    let path ← Numbering.ofExcept (Lowering.resolve ctx tag span)
    let children ← pass.optionalContent ctx content
    let args ← pass.attributes ctx tag ["children"] attrs
    return pass.call path children args

/-- What becomes of content, of which a self-closing element has none. -/
def optionalContent (pass : Pass σ α) (ctx : LoweringContext)
    (content : Option (List ContentItem)) : Numbering σ (List (FragmentKind × α)) :=
  match content with
  | none => return []
  | some items => pass.contentItems ctx items

def contentItems (pass : Pass σ α) (ctx : LoweringContext) (items : List ContentItem) :
    Numbering σ (List (FragmentKind × α)) :=
  match items with
  | [] => return []
  | item :: rest => do
    let first ← pass.contentItem ctx item
    return first :: (← pass.contentItems ctx rest)

def contentItem (pass : Pass σ α) (ctx : LoweringContext) (item : ContentItem) :
    Numbering σ (FragmentKind × α) :=
  match item with
  | .element e => do return (.scalar, ← pass.element ctx e)
  | .literal text => return (.scalar, pass.literal text)
  | .expr source => do return (.scalar, ← pass.expression ctx .scalar source)
  | .spread source => do return (.list, ← pass.expression ctx .list source)

/-- What becomes of attributes. `seen` lists the arguments that the call has already. -/
def attributes (pass : Pass σ α) (ctx : LoweringContext) (tag : String) (seen : List String)
    (attrs : List Attribute) : Numbering σ (List (String × α)) :=
  match attrs with
  | [] => return []
  | ⟨name, value, span⟩ :: rest => do
    let argument := ctx.vocabulary.arguments.argumentFor name
    if seen.contains argument then
      throw ⟨.duplicateArgument tag argument, span⟩
    let value ← pass.attributeValue ctx value
    return (argument, value) :: (← pass.attributes ctx tag (argument :: seen) rest)

def attributeValue (pass : Pass σ α) (ctx : LoweringContext) (value : AttributeValue) :
    Numbering σ α :=
  match value with
  | .literal text => return pass.literal text
  | .expr source => pass.expression ctx .scalar source
  | .spread source => pass.expression ctx .list source

def expression (pass : Pass σ α) (ctx : LoweringContext) (kind : FragmentKind)
    (source : EmbeddedExpr) : Numbering σ α :=
  match source with
  | ⟨span, segments⟩ => do
    if segments.isEmpty then
      throw ⟨.noSegments, span⟩
    let parts ← pass.pieces ctx segments
    pass.read kind span parts

def pieces (pass : Pass σ α) (ctx : LoweringContext) (segments : List Segment) :
    Numbering σ (List (PieceWith α)) :=
  match segments with
  | [] => return []
  | ⟨text, span, none⟩ :: rest => do return .copy text span.start :: (← pass.pieces ctx rest)
  | ⟨_, span, some e⟩ :: rest => do
    let filling ← pass.element ctx e
    let name ← pass.placeholder
    return .gap name span filling :: (← pass.pieces ctx rest)

end

end Pass

/-- What a pass makes of a part. -/
def Element.Part.Made (α : Type) : Part → Type
  | .element _ | .value _ | .source .. => α
  | .attributes _ => List (String × α)
  | .content _ | .items _ => List (FragmentKind × α)
  | .item _ => FragmentKind × α
  | .segments _ => List (PieceWith α)

/-- A pass over a part. -/
def Pass.part {σ α : Type} (pass : Pass σ α) (ctx : LoweringContext) (tag : String)
    (seen : List String) : (part : Element.Part) → Numbering σ (part.Made α)
  | .element e => pass.element ctx e
  | .attributes attrs => pass.attributes ctx tag seen attrs
  | .value v => pass.attributeValue ctx v
  | .content items? => pass.optionalContent ctx items?
  | .items is => pass.contentItems ctx is
  | .item i => pass.contentItem ctx i
  | .source kind inner => pass.expression ctx kind inner
  | .segments ss => pass.pieces ctx ss

/-! ## Simulation -/

/-- Both outcomes are failures with the same error, or both are related results. The states that are
left are related in any case. -/
def Agree {σ α β : Type} (S : Nat → σ → Prop) (R : α → β → Prop)
    (x : Except CompileError α × Nat) (y : Except CompileError β × σ) : Prop :=
  S x.2 y.2 ∧
    match x.1, y.1 with
    | .ok a, .ok b => R a b
    | .error e, .error e' => e = e'
    | _, _ => False

/-- From a number and any state related to it, two computations agree. -/
def SimAt {σ α β : Type} (S : Nat → σ → Prop) (R : α → β → Prop) (n : Nat) (x : Lowering α)
    (y : Numbering σ β) : Prop :=
  ∀ s, S n s → Agree S R (Numbering.exec x n) (y.exec s)

namespace SimAt

variable {σ α β α' β' : Type} {S : Nat → σ → Prop} {R : α → β → Prop} {Q : α' → β' → Prop}
  {n : Nat} {x : Lowering α} {y : Numbering σ β} {f : α → α'} {g : β → β'}

theorem pure {a : α} {b : β} (h : R a b) : SimAt S R n (pure a) (pure b) := by
  intro s hs
  exact ⟨hs, h⟩

/-- One after the other. The later computations start from what the first of them left. -/
theorem bind {f : α → Lowering α'} {g : β → Numbering σ β'} (hx : SimAt S R n x y)
    (hf : ∀ a b n', Numbering.exec x n = (.ok a, n') → R a b → SimAt S Q n' (f a) (g b)) :
    SimAt S Q n (x >>= f) (y >>= g) := by
  intro s hs
  have hagree := hx s hs
  rw [Numbering.exec_bind, Numbering.exec_bind]
  rcases hrun : Numbering.exec x n with ⟨r, n'⟩
  rcases hrun' : Numbering.exec y s with ⟨r', s'⟩
  rw [hrun, hrun'] at hagree
  obtain ⟨hs', hresult⟩ := hagree
  cases r with
  | error e =>
    cases r' with
    | error e' => exact ⟨hs', hresult⟩
    | ok b => cases hresult
  | ok a =>
    cases r' with
    | error e' => cases hresult
    | ok b => exact hf a b n' hrun hresult s' hs'

theorem map (hx : SimAt S R n x y) (hf : ∀ a b, R a b → Q (f a) (g b)) :
    SimAt S Q n (x >>= fun a => Pure.pure (f a)) (y >>= fun b => Pure.pure (g b)) :=
  hx.bind fun a b _ _ h => .pure (hf a b h)

/-- A result that a function is applied to on the side of the pass. -/
theorem map_right {Q : α → β' → Prop} (hx : SimAt S R n x y) (hg : ∀ a b, R a b → Q a (g b)) :
    SimAt S Q n x (y >>= fun b => Pure.pure (g b)) := by
  have h : SimAt S Q n (x >>= fun a => Pure.pure a) (y >>= fun b => Pure.pure (g b)) := hx.map hg
  rwa [bind_pure] at h

/-- A result that a function is applied to on the side of lowering. -/
theorem map_left {Q : α' → β → Prop} (hx : SimAt S R n x y) (hf : ∀ a b, R a b → Q (f a) b) :
    SimAt S Q n (x >>= fun a => Pure.pure (f a)) y := by
  have h : SimAt S Q n (x >>= fun a => Pure.pure (f a)) (y >>= fun b => Pure.pure b) := hx.map hf
  rwa [bind_pure] at h

theorem check {c : Prop} [Decidable c] (e : CompileError) {f : PUnit → Lowering α}
    {g : PUnit → Numbering σ β} (h : ¬ c → SimAt S R n (f ()) (g ())) :
    SimAt S R n (if c then (throw e : Lowering PUnit) >>= f else f ())
      (if c then (throw e : Numbering σ PUnit) >>= g else g ()) := by
  intro s hs
  by_cases hc : c
  · rw [if_pos hc, if_pos hc]
    exact ⟨hs, rfl⟩
  · rw [if_neg hc, if_neg hc]
    exact h hc s hs

theorem ofExcept (r : Except CompileError α) :
    SimAt S (fun a b => a = b ∧ r = .ok a) n (Numbering.ofExcept r) (Numbering.ofExcept r) := by
  intro s hs
  cases r with
  | error e => exact ⟨hs, rfl⟩
  | ok a => exact ⟨hs, rfl, rfl⟩

end SimAt

section

variable {σ α : Type} (R : FragmentKind → Expr → α → Prop)

/-- A fragment is related to an item of content. -/
def ItemRel (f : Fragment) (item : FragmentKind × α) : Prop :=
  f.kind = item.1 ∧ R item.1 f.node item.2

/-- An argument is a keyword whose value is related to what a pass makes of it. -/
def ArgumentRel (arg : Argument) (pair : String × α) : Prop :=
  ∃ kind value, arg = .keyword pair.1 value ∧ R kind value pair.2

/-- Pieces differ in what fills their gaps. -/
inductive PieceRel : Lowering.Piece → PieceWith α → Prop where
  | copy (text : List Char) (start : Nat) : PieceRel (.copy text start) (.copy text start)
  | gap (name : String) (span : Span) {e : Expr} {a : α} : R .scalar e a →
      PieceRel (.gap name span e) (.gap name span a)

/-- What a pass has to keep, for the sources in a class. -/
structure Pass.Simulates (S : Nat → σ → Prop) (ctx : LoweringContext) (Good : EmbeddedExpr → Prop)
    (pass : Pass σ α) : Prop where
  literal : ∀ text, R .scalar (.str text) (pass.literal text)
  call : ∀ {tag path fragments items args pairs},
    ctx.vocabulary.chain.resolve? tag = some path → List.Forall₂ (ItemRel R) fragments items →
    List.Forall₂ (ArgumentRel R) args pairs → ("children" :: pairs.map Prod.fst).Nodup →
    R .scalar (.call path.callee (.keyword "children" (Fragment.merge fragments).node :: args))
      (pass.call path items pairs)
  placeholder : ∀ n, SimAt S Eq n (Lowering.placeholder ctx) pass.placeholder
  read : ∀ {kind source n n' pieces holes}, Good source →
    Numbering.exec (Lowering.pieces ctx source.segments) n = (.ok pieces, n') →
    List.Forall₂ (PieceRel R) pieces holes →
    SimAt S (fun f a => f.kind = kind ∧ R kind f.node a) n'
      (Numbering.ofExcept (Lowering.readPieces kind source.span pieces))
      (pass.read kind source.span holes)

/-- What lowering makes of a part is related to what a pass makes of it. The arguments for attributes
are others than the call has already. -/
def Element.Part.Rel (seen : List String) : (part : Part) → part.Result → part.Made α → Prop
  | .element _, e, a => R .scalar e a
  | .attributes _, args, pairs => List.Forall₂ (ArgumentRel R) args pairs ∧
      (pairs.map Prod.fst).Nodup ∧ ∀ name ∈ pairs.map Prod.fst, name ∉ seen
  | .value _, e, a => ∃ kind, R kind e a
  | .content _, fs, is | .items _, fs, is => List.Forall₂ (ItemRel R) fs is
  | .item _, f, i => ItemRel R f i
  | .source kind _, f, a => f.kind = kind ∧ R kind f.node a
  | .segments _, pieces, holes => List.Forall₂ (PieceRel R) pieces holes

end

section

variable {σ α : Type} {R : FragmentKind → Expr → α → Prop} {S : Nat → σ → Prop}
  {ctx : LoweringContext} {Good : EmbeddedExpr → Prop} {pass : Pass σ α}

theorem resolve_eq_ok {tag : String} {span : Span} {path : ConstructorPath}
    (h : Lowering.resolve ctx tag span = .ok path) :
    ctx.vocabulary.chain.resolve? tag = some path := by
  unfold Lowering.resolve at h
  split at h
  · rename_i hpath
    cases h
    exact hpath
  · cases h

theorem Pass.simAt_part (h : pass.Simulates R S ctx Good) (part : Element.Part) (tag : String)
    (seen : List String) (hgood : ∀ source ∈ part.sources, Good source) (n : Nat) :
    SimAt S (part.Rel R seen) n (part.lower ctx tag seen) (pass.part ctx tag seen part) := by
  induction part generalizing tag seen n with
  | element name attrs content span ih₁ ih₂ =>
    have hgood := List.forall_mem_append.mp hgood
    rw [Element.Part.lower, Pass.part, Lowering.element, Pass.element]
    apply SimAt.check
    intro _
    refine (SimAt.ofExcept _).bind fun path path' n₁ _ hpath => ?_
    obtain ⟨rfl, hpath⟩ := hpath
    refine (ih₂ name [] hgood.2 n₁).bind fun fragments items n₂ _ hitems => ?_
    refine (ih₁ name ["children"] hgood.1 n₂).map fun args pairs hargs => ?_
    obtain ⟨hargs, hnodup, hseen⟩ := hargs
    refine h.call (resolve_eq_ok hpath) hitems hargs (List.nodup_cons.mpr ⟨?_, hnodup⟩)
    intro hmem
    exact hseen _ hmem List.mem_cons_self
  | moreAttributes name value span rest ih₁ ih₂ =>
    have hgood := List.forall_mem_append.mp hgood
    rw [Element.Part.lower, Pass.part, Lowering.attributes, Pass.attributes]
    apply SimAt.check
    intro hfree
    refine (ih₁ tag seen hgood.1 n).bind fun e a n₁ _ hvalue => ?_
    refine (ih₂ tag _ hgood.2 n₁).map fun args pairs hargs => ?_
    obtain ⟨hargs, hnodup, hseen⟩ := hargs
    obtain ⟨kind, hvalue⟩ := hvalue
    refine ⟨.cons ⟨kind, e, rfl, hvalue⟩ hargs, List.nodup_cons.mpr ⟨?_, hnodup⟩, ?_⟩
    · intro hmem
      exact hseen _ hmem List.mem_cons_self
    · intro other hother hmem
      rcases List.mem_cons.mp hother with rfl | hother
      · exact hfree (by simpa using hmem)
      · exact hseen other hother (List.mem_cons_of_mem _ hmem)
  | moreItems item rest ih₁ ih₂ =>
    have hgood := List.forall_mem_append.mp hgood
    rw [Element.Part.lower, Pass.part, Lowering.contentItems, Pass.contentItems]
    refine (ih₁ tag seen hgood.1 n).bind fun f first n₁ _ hfirst => ?_
    exact (ih₂ tag seen hgood.2 n₁).map fun fs more hmore => .cons hfirst hmore
  | source kind span segments ih =>
    have hgood := List.forall_mem_cons.mp hgood
    rw [Element.Part.lower, Pass.part, Lowering.expression, Pass.expression]
    apply SimAt.check
    intro _
    refine (ih tag seen hgood.2 n).bind fun pieces holes n₁ hrun hpieces => ?_
    exact h.read hgood.1 hrun hpieces
  | nestedSegment text span e rest ih₁ ih₂ =>
    have hgood := List.forall_mem_append.mp hgood
    rw [Element.Part.lower, Pass.part, Lowering.pieces, Pass.pieces]
    refine (ih₁ tag seen hgood.1 n).bind fun filling filling' n₁ _ hfilling => ?_
    refine (h.placeholder n₁).bind fun name name' n₂ _ hname => ?_
    subst hname
    exact (ih₂ tag seen hgood.2 n₂).map fun _ _ hrest => .cons (.gap name span hfilling) hrest
  | rawSegment text span rest ih =>
    exact (ih tag seen hgood n).map fun _ _ hrest => .cons (.copy text span.start) hrest
  | noAttributes => exact .pure ⟨.nil, .nil, fun _ hname => absurd hname List.not_mem_nil⟩
  | noContent | noItems | noSegments => exact .pure .nil
  | literalValue text => exact .pure ⟨_, h.literal text⟩
  | literalItem text => exact .pure ⟨rfl, h.literal text⟩
  | someContent _ ih => exact ih tag seen hgood n
  | elementItem _ ih => exact (ih tag seen hgood n).map fun _ _ hrel => ⟨rfl, hrel⟩
  | exprItem _ ih | spreadItem _ ih =>
    exact (ih tag seen hgood n).map_right fun _ _ hrel => hrel
  | exprValue _ ih | spreadValue _ ih =>
    exact (ih tag seen hgood n).map_left fun _ _ hrel => ⟨_, hrel.2⟩

theorem Pass.simAt_element (h : pass.Simulates R S ctx Good) (e : Element)
    (hgood : ∀ source ∈ e.sources, Good source) (n : Nat) :
    SimAt S (R .scalar) n (Lowering.element ctx e) (pass.element ctx e) :=
  Pass.simAt_part h (.element e) e.tag [] hgood n

/-- Where an element is lowered, the pass succeeds with what is related to the expression. -/
theorem Pass.Simulates.exists_of_lower {template : List Char} {vocabulary : Vocabulary}
    (h : pass.Simulates R S (Lowering.contextFor template vocabulary) Good) {s : σ} (hs : S 0 s)
    {e : Element} (hgood : ∀ source ∈ e.sources, Good source) {x : Expr}
    (hlower : e.lower template vocabulary = .ok x) :
    ∃ a s', (pass.element (Lowering.contextFor template vocabulary) e).exec s = (.ok a, s') ∧
      R .scalar x a := by
  obtain ⟨-, hresult⟩ := Pass.simAt_element h e hgood 0 s hs
  have hx : (Numbering.exec (Lowering.element (Lowering.contextFor template vocabulary) e) 0).1 =
      .ok x := hlower
  rw [hx] at hresult
  rcases hrun : (pass.element (Lowering.contextFor template vocabulary) e).exec s with ⟨_ | a, s'⟩
  · rw [hrun] at hresult
    exact absurd hresult id
  · rw [hrun] at hresult
    exact ⟨a, s', rfl, hresult⟩

end

end ComponentMarkup
