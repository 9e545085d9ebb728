import ComponentMarkup.Element.Basic
import ComponentMarkup.Template.Fragment

/-!
# Parts of elements

Inside of an element stand attributes, content and expressions, and in these stand elements again. A
fact about all of them is proved by one induction, with a case for each way in which a part is made
up of smaller ones.
-/

namespace ComponentMarkup

/-- An element, or something inside of one. -/
inductive Element.Part where
  | element (e : Element)
  | attributes (attrs : List Attribute)
  | value (value : AttributeValue)
  | content (content : Option (List ContentItem))
  | items (items : List ContentItem)
  | item (item : ContentItem)
  /-- An expression that becomes a fragment of a kind. -/
  | source (kind : FragmentKind) (source : EmbeddedExpr)
  | segments (segments : List Segment)

/-- A size that is larger than those of all parts inside. -/
noncomputable def Element.Part.size : Element.Part → Nat
  | .element p => sizeOf p
  | .attributes p => sizeOf p
  | .value p => sizeOf p
  | .content p => sizeOf p
  | .items p => sizeOf p
  | .item p => sizeOf p
  | .source _ p => sizeOf p
  | .segments p => sizeOf p

namespace Element.Part

section

variable {motive : Part → Prop}
  (element : ∀ tag attrs content span, motive (.attributes attrs) → motive (.content content) →
    motive (.element ⟨tag, attrs, content, span⟩))
  (noAttributes : motive (.attributes []))
  (moreAttributes : ∀ name value span rest, motive (.value value) → motive (.attributes rest) →
    motive (.attributes (⟨name, value, span⟩ :: rest)))
  (literalValue : ∀ text, motive (.value (.literal text)))
  (exprValue : ∀ source, motive (.source .scalar source) → motive (.value (.expr source)))
  (spreadValue : ∀ source, motive (.source .list source) → motive (.value (.spread source)))
  (noContent : motive (.content none))
  (someContent : ∀ items, motive (.items items) → motive (.content (some items)))
  (noItems : motive (.items []))
  (moreItems : ∀ item rest, motive (.item item) → motive (.items rest) →
    motive (.items (item :: rest)))
  (elementItem : ∀ e, motive (.element e) → motive (.item (.element e)))
  (literalItem : ∀ text, motive (.item (.literal text)))
  (exprItem : ∀ source, motive (.source .scalar source) → motive (.item (.expr source)))
  (spreadItem : ∀ source, motive (.source .list source) → motive (.item (.spread source)))
  (source : ∀ kind span segments, motive (.segments segments) →
    motive (.source kind ⟨span, segments⟩))
  (noSegments : motive (.segments []))
  (rawSegment : ∀ text span rest, motive (.segments rest) →
    motive (.segments (⟨text, span, none⟩ :: rest)))
  (nestedSegment : ∀ text span e rest, motive (.element e) → motive (.segments rest) →
    motive (.segments (⟨text, span, some e⟩ :: rest)))

include element noAttributes moreAttributes literalValue exprValue spreadValue noContent someContent
  noItems moreItems elementItem literalItem exprItem spreadItem source noSegments rawSegment
  nestedSegment

/-- A fact holds for a part if it does for all smaller ones it is made up of. -/
@[induction_eliminator]
theorem induction (part : Part) : motive part :=
  match part with
  | .element ⟨_, _, _, _⟩ => element _ _ _ _ (induction _) (induction _)
  | .attributes [] => noAttributes
  | .attributes (⟨_, _, _⟩ :: _) => moreAttributes _ _ _ _ (induction _) (induction _)
  | .value (.literal _) => literalValue _
  | .value (.expr _) => exprValue _ (induction _)
  | .value (.spread _) => spreadValue _ (induction _)
  | .content none => noContent
  | .content (some _) => someContent _ (induction _)
  | .items [] => noItems
  | .items (_ :: _) => moreItems _ _ (induction _) (induction _)
  | .item (.element _) => elementItem _ (induction _)
  | .item (.literal _) => literalItem _
  | .item (.expr _) => exprItem _ (induction _)
  | .item (.spread _) => spreadItem _ (induction _)
  | .source _ ⟨_, _⟩ => source _ _ _ (induction _)
  | .segments [] => noSegments
  | .segments (⟨_, _, none⟩ :: _) => rawSegment _ _ _ (induction _)
  | .segments (⟨_, _, some _⟩ :: _) => nestedSegment _ _ _ _ (induction _) (induction _)
termination_by part.size
decreasing_by all_goals simp only [size]; decreasing_tactic

end

end Element.Part

end ComponentMarkup
