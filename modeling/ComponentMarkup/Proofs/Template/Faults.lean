import ComponentMarkup.Proofs.Element.Elements
import ComponentMarkup.Proofs.Template.Landing

/-!
# What compile errors point at

Lowering fails because of an element, of an attribute, or of an expression that cannot be read.
`CompileError.Arises` says which errors there are for the elements and expressions of a template, and
each of them points at a whole part of the template, except that an error in an expression takes one
byte at the place it points at, whatever character stands there. Main statement: the span of a compile
error starts at a boundary and stays in the template, and it splits a character exactly if it takes one
byte of a character with several.
-/

namespace ComponentMarkup

open Text (byteLength IsBoundary)
open Lowering (Piece PieceOf gapNames contextFor)

variable {template : List Char} {vocabulary : Vocabulary}

/-! ## Errors of lowering -/

/-- The errors that lowering may find in elements and expressions. -/
inductive CompileError.Arises (ctx : LoweringContext) (elements : List Element)
    (sources : List EmbeddedExpr) : CompileError → Prop where
  | noTagName {x : Element} : x ∈ elements → x.tag.isEmpty = true →
      Arises ctx elements sources ⟨.noTagName, x.span⟩
  | unknownTag {x : Element} : x ∈ elements → ctx.vocabulary.chain.resolve? x.tag = none →
      Arises ctx elements sources ⟨.unknownTag x.tag, x.span⟩
  | duplicateArgument {x : Element} {attr : Attribute} : x ∈ elements → attr ∈ x.attrs →
      Arises ctx elements sources
        ⟨.duplicateArgument x.tag (ctx.vocabulary.arguments.argumentFor attr.name), attr.span⟩
  | noSegments {source : EmbeddedExpr} : source ∈ sources → source.segments.isEmpty = true →
      Arises ctx elements sources ⟨.noSegments, source.span⟩
  | invalidExpression {source : EmbeddedExpr} {kind : FragmentKind} {pieces : List Piece} {n n' : Nat}
      {e : CompileError} : source ∈ sources →
      Numbering.exec (Lowering.pieces ctx source.segments) n = (.ok pieces, n') →
      Lowering.readPieces kind source.span pieces = .error e → Arises ctx elements sources e

/-- From whatever number, a computation fails only with errors that have a property. -/
def FailsAs {α : Type} (P : CompileError → Prop) (x : Lowering α) : Prop :=
  ∀ n e n', Numbering.exec x n = (.error e, n') → P e

namespace FailsAs

variable {α β : Type} {P : CompileError → Prop} {x : Lowering α}

theorem pure {a : α} : FailsAs P (pure a : Lowering α) := by
  intro n e n' hrun
  cases hrun

theorem ofExcept {r : Except CompileError α} (h : ∀ e, r = .error e → P e) :
    FailsAs P (ExceptT.mk (Pure.pure r) : Lowering α) :=
  fun _ e _ hrun => h e (congrArg Prod.fst hrun)

theorem bind {f : α → Lowering β} (hx : FailsAs P x)
    (hf : ∀ n a n', Numbering.exec x n = (.ok a, n') → FailsAs P (f a)) : FailsAs P (x >>= f) := by
  intro n e n' hrun
  rw [Numbering.exec_bind] at hrun
  rcases hexec : Numbering.exec x n with ⟨e' | a, n₁⟩
  · rw [hexec] at hrun
    cases hrun
    exact hx n e n' hexec
  · rw [hexec] at hrun
    exact hf n a n₁ hexec n₁ e n' hrun

/-- A result that a function is applied to. -/
theorem map {f : α → β} (hx : FailsAs P x) : FailsAs P (x >>= fun a => Pure.pure (f a)) :=
  hx.bind fun _ _ _ _ => pure

/-- A check that comes first. -/
theorem check {c : Prop} [Decidable c] {e : CompileError} {f : PUnit → Lowering α} (he : c → P e)
    (h : FailsAs P (f ())) :
    FailsAs P (if c then (throw e : Lowering PUnit) >>= f else f ()) := by
  split
  · next hc =>
    intro n e' n' hrun
    cases hrun
    exact he hc
  · exact h

end FailsAs

section

variable {ctx : LoweringContext} {elements : List Element} {sources : List EmbeddedExpr}

theorem failsAs_placeholder {P : CompileError → Prop} : FailsAs P (Lowering.placeholder ctx) := by
  intro n e n' hrun
  cases hrun

/-- Attributes are those of an element with the tag. -/
def Element.Part.BelongsTo (elements : List Element) (tag : String) : Part → Prop
  | .attributes attrs => ∃ x ∈ elements, x.tag = tag ∧ ∀ attr ∈ attrs, attr ∈ x.attrs
  | _ => True

theorem failsAs_lower (part : Element.Part) (tag : String) (seen : List String)
    (helements : ∀ x ∈ part.elements, x ∈ elements) (hsources : ∀ x ∈ part.sources, x ∈ sources)
    (htag : part.BelongsTo elements tag) :
    FailsAs (CompileError.Arises ctx elements sources) (part.lower ctx tag seen) := by
  induction part generalizing tag seen with
  | element name attrs content span ih₁ ih₂ =>
    obtain ⟨hself, hinner⟩ := List.forall_mem_cons.mp helements
    have hinner := List.forall_mem_append.mp hinner
    have hsources := List.forall_mem_append.mp hsources
    rw [Element.Part.lower, Lowering.element]
    refine FailsAs.check (fun htag => .noTagName hself htag) ?_
    refine (FailsAs.ofExcept fun err herr => ?_).bind fun _ path _ _ => ?_
    · unfold Lowering.resolve at herr
      split at herr
      · cases herr
      · next hnone =>
        cases herr
        exact .unknownTag hself hnone
    refine (ih₂ name [] hinner.1 hsources.2 trivial).bind fun _ children _ _ => ?_
    exact (ih₁ name _ hinner.2 hsources.1 ⟨_, hself, rfl, fun _ hattr => hattr⟩).map
  | moreAttributes name value span rest ih₁ ih₂ =>
    obtain ⟨x, hx, rfl, hattrs⟩ := htag
    obtain ⟨hfirst, hrest⟩ := List.forall_mem_cons.mp hattrs
    have helements := List.forall_mem_append.mp helements
    have hsources := List.forall_mem_append.mp hsources
    rw [Element.Part.lower, Lowering.attributes]
    refine FailsAs.check (fun _ => .duplicateArgument hx hfirst) ?_
    refine (ih₁ x.tag [] helements.1 hsources.1 trivial).bind fun _ expr _ _ => ?_
    exact (ih₂ x.tag _ helements.2 hsources.2 ⟨x, hx, rfl, hrest⟩).map
  | moreItems item rest ih₁ ih₂ =>
    have helements := List.forall_mem_append.mp helements
    have hsources := List.forall_mem_append.mp hsources
    rw [Element.Part.lower, Lowering.contentItems]
    refine (ih₁ tag seen helements.1 hsources.1 trivial).bind fun _ fragment _ _ => ?_
    exact (ih₂ tag seen helements.2 hsources.2 trivial).map
  | source kind span segments ih =>
    obtain ⟨hself, hinner⟩ := List.forall_mem_cons.mp hsources
    rw [Element.Part.lower, Lowering.expression]
    refine FailsAs.check (fun hempty => .noSegments hself hempty) ?_
    refine (ih tag seen helements hinner trivial).bind fun n pieces n' hrun => ?_
    exact .ofExcept fun err herr => .invalidExpression hself hrun herr
  | nestedSegment text span e rest ih₁ ih₂ =>
    have helements := List.forall_mem_append.mp helements
    have hsources := List.forall_mem_append.mp hsources
    rw [Element.Part.lower, Lowering.pieces]
    refine (ih₁ tag seen helements.1 hsources.1 trivial).bind fun _ filling _ _ => ?_
    refine failsAs_placeholder.bind fun _ name _ _ => ?_
    exact (ih₂ tag seen helements.2 hsources.2 trivial).map
  | noAttributes | literalValue | noContent | noItems | literalItem | noSegments => exact .pure
  | someContent _ ih | exprItem _ ih | spreadItem _ ih => exact ih tag seen helements hsources trivial
  | exprValue _ ih | spreadValue _ ih | elementItem _ ih | rawSegment _ _ _ ih =>
    exact (ih tag seen helements hsources trivial).map

end

/-! ## Places of errors -/

section

variable {template : List Char} {o stop : Nat} {segments : List Segment}

theorem Laid.isAt_of_mem (h : Laid template o segments stop) :
    ∀ s ∈ segments, IsAt template s.text s.span.start := by
  induction h with
  | nil => exact List.forall_mem_nil _
  | cons hat _ ih => exact List.forall_mem_cons.mpr ⟨hat, ih⟩

/-- The pieces of an expression stand where its segments do. -/
theorem EmbeddedExpr.Stands.pieces {source : EmbeddedExpr} (h : source.Stands template)
    {pieces : List Piece} (hpieces : List.Forall₂ PieceOf source.segments pieces)
    (hnames : ∀ name ∈ gapNames pieces, Lexer.IsName name) :
    ∀ piece ∈ pieces, piece.Stands template := by
  have hat := h.laid.isAt_of_mem
  have henclosed := h.enclosed
  generalize source.segments = segments at hpieces hat henclosed
  induction hpieces with
  | nil => exact List.forall_mem_nil _
  | @cons s piece segments pieces hof _ ih =>
    obtain ⟨hfirst, hrest⟩ := List.forall_mem_cons.mp hat
    cases hof with
    | copy text span =>
      exact List.forall_mem_cons.mpr ⟨hfirst, ih hnames hrest henclosed⟩
    | gap text span e name filling =>
      obtain ⟨hname, hnames⟩ := List.forall_mem_cons.mp hnames
      obtain ⟨hspan, henclosed⟩ := List.forall_mem_cons.mp henclosed
      exact List.forall_mem_cons.mpr ⟨⟨hname, hspan⟩, ih hnames hrest henclosed⟩

end

/-- A compile error points at a whole part of the template, one in an expression at a boundary. -/
def CompileError.Fits (template : List Char) (e : CompileError) : Prop :=
  match e.fault with
  | .invalidExpression _ => e.span.IsPoint template
  | _ => e.span.IsWhole template

theorem CompileError.Arises.fits {elements : List Element} {sources : List EmbeddedExpr}
    {e : CompileError} (h : e.Arises (contextFor template vocabulary) elements sources)
    (helements : AllStand (Span.IsWhole template) elements)
    (hsources : ∀ source ∈ sources, source.Stands template) : e.Fits template := by
  cases h with
  | @noTagName x hx _ => exact (helements x hx).span
  | @unknownTag x hx _ => exact (helements x hx).span
  | @duplicateArgument x attr hx hattr => exact (helements x hx).attrs attr hattr
  | @noSegments source hsource _ => exact (hsources source hsource).span
  | @invalidExpression source kind pieces n n' e hsource hrun hread =>
    have hstands := hsources source hsource
    have hpieces := Lowering.piecesFrom_of_exec hrun
    -- the only error that lowering does not place itself: the source map leads it back
    obtain ⟨⟨fault, hfault⟩, hpoint⟩ := Lowering.isPoint_of_readPieces hstands.span
      (hstands.pieces hpieces.aligned hpieces.isName) hread
    unfold CompileError.Fits
    rw [hfault]
    exact hpoint

/-- Every error of compiling fits, if it is none of markup. -/
theorem Template.exists_of_compile_error {e : TemplateError}
    (h : compile vocabulary template = .error e) (hstage : e.stage = "compile") :
    ∃ err : CompileError, e = .ofCompile template err ∧ err.Fits template := by
  cases hparse : Node.parse template with
  | error err =>
    rw [compile_of_unread vocabulary hparse] at h
    cases h
    exact absurd hstage (show "parse" ≠ "compile" by decide)
  | ok tree =>
    obtain ⟨root, hrun, hlaid⟩ := Element.laid_of_parse hparse
    have hroot : Element.ofNode template tree = .ok root := run'_eq_ok.mpr ⟨[], hrun⟩
    rw [compile_of_reduced vocabulary hparse hroot] at h
    cases hlower : root.lower template vocabulary with
    | ok expr =>
      rw [hlower] at h
      cases h
    | error err =>
      rw [hlower] at h
      cases h
      have harises : err.Arises (contextFor template vocabulary) root.elements root.sources :=
        failsAs_lower (.element root) root.tag [] (fun _ hx => hx) (fun _ hx => hx)
          trivial 0 err _ (Prod.ext hlower rfl)
      exact ⟨err, rfl, harises.fits hlaid.stand hlaid.laid.stands⟩

/-! ## Split characters -/

/-- The error takes the first byte of a character with more bytes. Only errors in expressions can. -/
def TemplateError.SplitsChar (template : List Char) (e : TemplateError) : Prop :=
  (∃ fault, e.fault = .compile (.invalidExpression fault)) ∧ e.span.stop = e.span.start + 1 ∧
    ∃ c, IsAt template [c] e.span.start ∧ 1 < c.utf8Size

section

variable {text : List Char} {o : Nat} {c : Char}

/-- Before the end of a text a character starts at every boundary. -/
theorem Text.IsBoundary.exists_char (h : IsBoundary text o) (hlt : o < byteLength text) :
    ∃ c, IsAt text [c] o := by
  obtain ⟨front, back, rfl, rfl⟩ := h
  cases back with
  | nil =>
    rw [List.append_nil] at hlt
    omega
  | cons c back => exact ⟨c, front, back, by simp, rfl⟩

/-- One byte further is a boundary exactly after a character of one byte. -/
theorem Text.isBoundary_succ_iff (h : IsAt text [c] o) : IsBoundary text (o + 1) ↔ c.utf8Size = 1 := by
  have hpos := c.utf8Size_pos
  have hlen : byteLength [c] = c.utf8Size := by rw [Text.byteLength_cons, Text.byteLength_nil]; rfl
  constructor
  · intro hnext
    obtain ⟨front, back, hfront, hsize⟩ :=
      hnext.sub_of_isAt h (Nat.le_add_right o 1) (by rw [hlen]; omega)
    -- a boundary one byte into `c` has all of `c` before it
    rw [Nat.add_sub_cancel_left] at hsize
    cases front with
    | nil => cases hsize
    | cons d front =>
      obtain ⟨rfl, hrest⟩ := List.cons.inj hfront
      obtain ⟨rfl, -⟩ := List.append_eq_nil_iff.mp hrest.symm
      exact hlen.symm.trans hsize
  · intro hsize
    have hstop := IsBoundary.of_isAt_stop h
    rwa [hlen, hsize] at hstop

theorem Span.IsPoint.isWhole_iff {span : Span} (h : span.IsPoint text) :
    span.IsWhole text ↔
      ¬ (span.stop = span.start + 1 ∧ ∃ c, IsAt text [c] span.start ∧ 1 < c.utf8Size) := by
  constructor
  · rintro hwhole ⟨hstop, c, hat, hsize⟩
    have hone := (Text.isBoundary_succ_iff hat).mp (hstop ▸ hwhole.stop)
    omega
  · intro hwhole
    obtain hstop | ⟨hstop, hlt⟩ := h.stop
    · exact ⟨Nat.le_of_eq hstop.symm, h.start, hstop ▸ h.start⟩
    · obtain ⟨c, hat⟩ := h.start.exists_char hlt
      have hpos := c.utf8Size_pos
      have hone : c.utf8Size = 1 := by
        by_contra hmore
        exact hwhole ⟨hstop, c, hat, by omega⟩
      exact ⟨by omega, h.start, hstop ▸ (Text.isBoundary_succ_iff hat).mpr hone⟩

end

namespace CompileError.Fits

variable {template : List Char} {e : CompileError}

theorem bounds (h : e.Fits template) : e.span.start ≤ e.span.stop ∧
    e.span.stop ≤ byteLength template ∧ IsBoundary template e.span.start := by
  unfold CompileError.Fits at h
  split at h
  · have hle := h.start.le_byteLength
    obtain hstop | ⟨hstop, hlt⟩ := h.stop
    · exact ⟨by omega, by omega, h.start⟩
    · exact ⟨by omega, by omega, h.start⟩
  · exact ⟨h.ordered, h.stop.le_byteLength, h.start⟩

/-- A span that is not whole splits the character that an expression goes wrong at. -/
theorem isWhole_iff (h : e.Fits template) :
    e.span.IsWhole template ↔ ¬ (TemplateError.ofCompile template e).SplitsChar template := by
  unfold CompileError.Fits at h
  split at h
  · next fault hfault =>
    rw [h.isWhole_iff, not_iff_not]
    refine ⟨fun hsplits => ⟨⟨fault, congrArg TemplateFault.compile hfault⟩, hsplits⟩, And.right⟩
  · next hother =>
    refine iff_of_true h ?_
    rintro ⟨⟨fault, hfault⟩, -⟩
    exact hother fault (TemplateFault.compile.inj hfault)

end CompileError.Fits

/-- A fact about the error of a template that is computed from the root element. -/
theorem Template.exists_of_lower_error {text : List Char} {tree : Node} {root : Element}
    {span : Span} (hparse : Node.parse text = .ok tree)
    (hroot : Element.ofNode text tree = .ok root)
    (hlower : (root.lower text vocabulary).casesOn (motive := fun _ => Bool)
      (fun e => e.span == span) (fun _ => false) = true) :
    ∃ e, compile vocabulary text = .error e ∧ e.stage = "compile" ∧ e.span = span := by
  rw [compile_of_reduced vocabulary hparse hroot]
  cases hrun : root.lower text vocabulary with
  | ok expr =>
    rw [hrun] at hlower
    cases hlower
  | error err =>
    rw [hrun] at hlower
    exact ⟨.ofCompile text err, rfl, rfl, beq_iff_eq.mp hlower⟩

/-- A compile error of a template starts at a boundary, does not run backwards and stays in the
template. It also ends at a boundary, and so the template has a text under it, exactly if it does not
take the first byte of a longer character. -/
theorem Template.span_of_compile_error {vocabulary : Vocabulary} {template : List Char}
    {e : TemplateError} (h : Template.compile vocabulary template = .error e)
    (hstage : e.stage = "compile") :
    e.span.start ≤ e.span.stop ∧ e.span.stop ≤ byteLength template ∧
      IsBoundary template e.span.start ∧
      (IsBoundary template e.span.stop ↔ ¬ e.SplitsChar template) ∧
      ((Text.slice? template e.span.start e.span.stop).isSome ↔ ¬ e.SplitsChar template) := by
  obtain ⟨err, rfl, hfits⟩ := Template.exists_of_compile_error h hstage
  obtain ⟨hordered, hinside, hstart⟩ := hfits.bounds
  have hwhole : IsBoundary template err.span.stop ↔ err.span.IsWhole template :=
    ⟨fun hstop => ⟨hordered, hstart, hstop⟩, fun hspan => hspan.stop⟩
  exact ⟨hordered, hinside, hstart, hwhole.trans hfits.isWhole_iff,
    Span.IsWhole.iff_slice?.symm.trans hfits.isWhole_iff⟩

/-- An error at a character of one byte, behind longer ones and a nested element. -/
theorem Template.span_of_compile_error_of_nested :
    ∃ e, Template.compile .shared "<p>é\x7b'é' (<b/>) 1\x7d</p>".toList = .error e ∧
      e.stage = "compile" ∧ e.span = ⟨18, 19⟩ ∧
      Text.slice? "<p>é\x7b'é' (<b/>) 1\x7d</p>".toList 18 19 = some ['1'] ∧
      ¬ e.SplitsChar "<p>é\x7b'é' (<b/>) 1\x7d</p>".toList := by
  have hread : ∃ tree root,
      Node.parse "<p>é\x7b'é' (<b/>) 1\x7d</p>".toList = .ok tree ∧
      Element.ofNode "<p>é\x7b'é' (<b/>) 1\x7d</p>".toList tree = .ok root ∧
      (root.lower "<p>é\x7b'é' (<b/>) 1\x7d</p>".toList .shared).casesOn (motive := fun _ => Bool)
        (fun e => e.span == ⟨18, 19⟩) (fun _ => false) = true := by
    refine ⟨?tree, ?root, ?parse, ?reduce, ?lower⟩
    case parse => cbv; rfl
    case reduce => cbv; rfl
    case lower => decide +kernel
  obtain ⟨tree, root, hparse, hroot, hlower⟩ := hread
  obtain ⟨e, hcompile, hstage, hspan⟩ := Template.exists_of_lower_error hparse hroot hlower
  obtain ⟨-, -, -, -, hslice⟩ := Template.span_of_compile_error hcompile hstage
  refine ⟨e, hcompile, hstage, hspan, by decide, hslice.mp ?_⟩
  rw [hspan]
  decide

/-- An error at a character of two bytes takes the first of them, and there is no text under it. -/
theorem Template.compile_error_splits_char :
    ∃ e, Template.compile .shared "<p>\x7bé\x7d</p>".toList = .error e ∧
      e.stage = "compile" ∧ e.span = ⟨4, 5⟩ ∧ ¬ IsBoundary "<p>\x7bé\x7d</p>".toList 5 ∧
      Text.slice? "<p>\x7bé\x7d</p>".toList 4 5 = none := by
  have hread : ∃ tree root,
      Node.parse "<p>\x7bé\x7d</p>".toList = .ok tree ∧
      Element.ofNode "<p>\x7bé\x7d</p>".toList tree = .ok root ∧
      (root.lower "<p>\x7bé\x7d</p>".toList .shared).casesOn (motive := fun _ => Bool)
        (fun e => e.span == ⟨4, 5⟩) (fun _ => false) = true := by
    refine ⟨?tree, ?root, ?parse, ?reduce, ?lower⟩
    case parse => cbv; rfl
    case reduce => cbv; rfl
    case lower => decide +kernel
  obtain ⟨tree, root, hparse, hroot, hlower⟩ := hread
  obtain ⟨e, hcompile, hstage, hspan⟩ := Template.exists_of_lower_error hparse hroot hlower
  exact ⟨e, hcompile, hstage, hspan, by decide, by decide⟩

end ComponentMarkup
