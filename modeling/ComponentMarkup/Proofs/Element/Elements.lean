import ComponentMarkup.Proofs.Element.Reducing

/-!
# All elements of a template

`Element.elements` lists an element and all elements in it, those nested in expressions too, in the
order in which lowering goes through them. The elements of a template all have a tag.
-/

namespace ComponentMarkup

open Text (byteLength)

/-! ## Elements in an element -/

theorem Element.Part.elements_unplaced (part : Part) :
    part.unplaced.elements = part.elements.map Element.unplaced := by
  induction part with
  | element tag attrs content span ih₁ ih₂ =>
    rw [unplaced, Element.unplaced, elements, elements, Element.elements, Element.elements,
      List.map_cons, List.map_append, Element.unplaced]
    exact congrArg (_ :: ·) (congrArg₂ (· ++ ·) ih₂ ih₁)
  | moreAttributes _ _ _ _ ih₁ ih₂ | moreItems _ _ ih₁ ih₂ | nestedSegment _ _ _ _ ih₁ ih₂ =>
    exact (congrArg₂ (· ++ ·) ih₁ ih₂).trans List.map_append.symm
  | noAttributes | literalValue | noContent | noItems | literalItem | noSegments => rfl
  | exprValue _ ih | spreadValue _ ih | someContent _ ih | elementItem _ ih | exprItem _ ih
  | spreadItem _ ih | source _ _ _ ih | rawSegment _ _ _ ih => exact ih

theorem Element.elements_unplaced (e : Element) :
    e.unplaced.elements = e.elements.map Element.unplaced :=
  (Part.element e).elements_unplaced

/-! ### Of cells -/

/-- All elements in a gap. -/
def SourceCell.elements : SourceCell → List Element
  | .own _ => []
  | .gap (_, e) => e.elements

theorem Segment.collects_elements : Collects elementsOfAll SourceCell.elements :=
  ⟨rfl, fun _ _ _ => rfl, fun _ _ _ _ => rfl, fun _ => rfl⟩

theorem EmbeddedExpr.elements_ofCells (cells : List SourceCell) :
    (ofCells cells).elements = cells.flatMap SourceCell.elements := by
  rw [← Segment.collects_elements.segments_ofCells cells]
  cases ofCells cells
  rfl

/-! ## Elements of recognized texts -/

/-- The elements in a part of a template. -/
def Sense.elements : Sense → List Element
  | .element _ e => e.elements
  | .attributes _ as => Attribute.elementsOfAll as
  | .value _ v => v.elements
  | .items _ contents => ContentItem.elementsOfAll contents
  | .item _ i => i.elements
  | .pieces _ _ cells | .piece _ _ cells => cells.flatMap SourceCell.elements
  | .noNested | .noDict => []

/-- An element that is recognized somewhere in a template. -/
def Element.Recognized (e : Element) : Prop :=
  ∃ node o t rest, Recognizes (.element node e) o t rest

/-- Every element in a part that is recognized is recognized itself. -/
theorem Recognizes.recognized {sense : Sense} {o : Nat} {t rest : List Char}
    (h : Recognizes sense o t rest) : ∀ x ∈ sense.elements, x.Recognized := by
  induction h with
  | selfClosing hw hname hhalts hattrs hw' htext ih =>
    rw [Sense.elements, Element.elements, List.forall_mem_cons]
    exact ⟨⟨_, _, _, _, .selfClosing hw hname hhalts hattrs hw' htext⟩, ih⟩
  | normal hw hname hhalts hattrs hw' hopening hv hbody hitems hu hu' hclosing ih₁ ih₂ =>
    rw [Sense.elements, Element.elements, ContentItem.elementsOfOptional,
      elementsOfAll_trimContent, List.forall_mem_cons, List.forall_mem_append]
    exact ⟨⟨_, _, _, _, .normal hw hname hhalts hattrs hw' hopening hv hbody hitems hu hu' hclosing⟩,
      ih₂, ih₁⟩
  | moreAttributes _ _ _ _ _ _ _ ih₁ ih₂ => exact List.forall_mem_append.mpr ⟨ih₁, ih₂⟩
  | dict _ _ ih₁ ih₂ =>
    rw [Sense.elements, AttributeValue.elements, EmbeddedExpr.elements_ofCells,
      List.cons_append, Segment.collects_elements.flatMap_enclosed, List.flatMap_append]
    exact List.forall_mem_append.mpr ⟨ih₁, ih₂⟩
  | braces _ _ _ ih | brackets _ ih =>
    rw [Sense.elements, AttributeValue.elements, EmbeddedExpr.elements_ofCells]
    exact ih
  | braceItem _ ih | bracketItem _ ih =>
    rw [Sense.elements, ContentItem.elements, EmbeddedExpr.elements_ofCells]
    exact ih
  | elementItem _ ih => exact ih
  | items _ _ ih₁ ih₂ => exact List.forall_mem_append.mpr ⟨ih₁, ih₂⟩
  | pieces _ _ ih₁ ih₂ =>
    rw [Sense.elements, List.flatMap_append]
    exact List.forall_mem_append.mpr ⟨ih₁, ih₂⟩
  | string _ _ | plain _ _ _ =>
    rw [Sense.elements, Segment.collects_elements.flatMap_own]
    exact List.forall_mem_nil _
  | group _ _ _ _ ih =>
    rw [Sense.elements, Segment.collects_elements.flatMap_enclosed]
    exact ih
  | nested _ _ _ _ ih =>
    rw [Sense.elements, List.flatMap_singleton]
    exact ih
  | _ => exact List.forall_mem_nil _

theorem Element.recognized_of_parse {template : List Char} {tree : Node} {root : Element}
    (hparse : Node.parse template = .ok tree) (hroot : Element.ofNode template tree = .ok root) :
    ∀ x ∈ root.elements, x.unplaced.Recognized := by
  obtain ⟨v, t, v', node, e, rfl, -, -, rfl, hnode⟩ := Node.parse_eq_ok_iff.mp hparse
  obtain ⟨found, hfound, hplain⟩ := Element.ofNode_of_recognizes (.over 0 (v ++ t ++ v')) hnode
  obtain rfl : found = root := Except.ok.inj (hfound.symm.trans hroot)
  intro x hx
  refine hnode.recognized _ ?_
  show x.unplaced ∈ e.elements
  rw [← hplain, Element.elements_unplaced]
  exact List.mem_map_of_mem hx

/-! ## Tags -/

theorem IsMarkupName.isEmpty_ofList {name : List Char} (h : IsMarkupName name) :
    (String.ofList name).isEmpty = false := by
  rw [← Bool.not_eq_true, String.isEmpty_iff, String.ofList_eq_empty_iff]
  exact h.ne_nil

theorem Element.Recognized.tagged {e : Element} (h : e.Recognized) : e.tag.isEmpty = false := by
  obtain ⟨node, o, t, rest, hnode⟩ := h
  cases hnode with
  | selfClosing _ hname _ _ _ _ => exact hname.isEmpty_ofList
  | normal _ hname _ _ _ _ _ _ _ _ _ _ => exact hname.isEmpty_ofList

theorem Element.tagged_of_parse {template : List Char} {tree : Node} {root : Element}
    (hparse : Node.parse template = .ok tree) (hroot : Element.ofNode template tree = .ok root) :
    ∀ x ∈ root.elements, x.tag.isEmpty = false := by
  intro x hx
  have htag := (recognized_of_parse hparse hroot x hx).tagged
  obtain ⟨tag, attrs, content, span⟩ := x
  exact htag

end ComponentMarkup
