import ComponentMarkup.Proofs.Element.Elements
import ComponentMarkup.Proofs.Element.Writing

/-!
# The texts of content

A text of content goes up to the next element or expression, so no text follows another and none is
empty. Blanks before the first item are not part of the content, and those at the end of the last text
are dropped, with the text if nothing else is in it. `ContentItem.Tidy` says what is left of this in an
element, and `Element.content_tidy_of_parse` that it holds of all content of a template.
-/

namespace ComponentMarkup

open Text (isBlank)

namespace ContentItem

/-- Texts that are told apart by the items between them: none is empty, and none has a character that
begins another item. -/
structure Parted (items : List ContentItem) : Prop where
  full : ∀ text, .literal text ∈ items → text.toList ≠ []
  free : ∀ text, .literal text ∈ items → ∀ c ∈ text.toList, Reader.isContentMark c = false
  apart : items.IsChain fun i j => ∀ text text', ¬ (i = .literal text ∧ j = .literal text')

/-- Content in the form that every element has it in: its texts are told apart, and no blanks stand at
its ends. -/
structure Tidy (items : List ContentItem) : Prop extends Parted items, Separate items

/-! ## Dropping blanks at the end -/

section Trimming

variable {items front : List ContentItem} {last : ContentItem}

theorem trimContent_append (front : List ContentItem) (last : ContentItem) :
    Reduction.trimContent (front ++ [last]) = front ++ Reduction.trimContent [last] := by
  induction front with
  | nil => rfl
  | cons i front ih =>
    have hne : front ++ [last] ≠ [] := by simp
    rw [List.cons_append, Reduction.trimContent_cons hne, ih, List.cons_append]

/-- A text at the end of content loses the blanks at its end. Nothing is left of a text of blanks. -/
theorem trimContent_literal (text : String) :
    Reduction.trimContent [.literal text] = [] ∨
      ∃ kept, kept ≠ [] ∧ kept <+: text.toList ∧
        (∀ c, kept.getLast? = some c → isBlank c = false) ∧
        Reduction.trimContent [.literal text] = [.literal (String.ofList kept)] := by
  have hlast : ∀ c, (text.toList.rdropWhile isBlank).getLast? = some c → isBlank c = false := by
    intro c hc
    obtain ⟨hne, rfl⟩ := List.mem_getLast?_eq_getLast hc
    exact Bool.eq_false_iff.mpr (List.rdropWhile_last_not _ _ hne)
  by_cases hempty : text.toList.rdropWhile isBlank = []
  · left
    exact if_pos (List.isEmpty_iff.mpr hempty)
  · right
    refine ⟨text.toList.rdropWhile isBlank, hempty, List.rdropWhile_prefix _ _, hlast, ?_⟩
    exact if_neg (mt List.isEmpty_iff.mp hempty)

/-- The items before the last are told apart, and none of them runs into a text after them. -/
theorem Parted.init (h : Parted (front ++ [last])) :
    Parted front ∧ ∀ text text', ¬ (front.getLast? = some (.literal text) ∧ last = .literal text') := by
  obtain ⟨hapart, -, hends⟩ := List.isChain_append.mp h.apart
  refine ⟨⟨?_, ?_, hapart⟩, ?_⟩
  · exact fun text hmem => h.full text (List.mem_append_left _ hmem)
  · exact fun text hmem => h.free text (List.mem_append_left _ hmem)
  · rintro text text' ⟨hfront, rfl⟩
    exact hends _ hfront _ rfl text text' ⟨rfl, rfl⟩

/-- A text at the end may be cut short. -/
theorem Parted.shorten {text : String} {kept : List Char} (h : Parted (front ++ [.literal text]))
    (hne : kept ≠ []) (hkept : kept <+: text.toList) :
    Parted (front ++ [.literal (String.ofList kept)]) := by
  obtain ⟨hfront, hends⟩ := h.init
  have hmem : .literal text ∈ front ++ [.literal text] := by simp
  refine ⟨?_, ?_, List.isChain_append.mpr ⟨hfront.apart, List.isChain_singleton _, ?_⟩⟩
  · intro text' hmem'
    obtain hmem' | hmem' := List.mem_append.mp hmem'
    · exact hfront.full text' hmem'
    · obtain rfl : text' = String.ofList kept := by simpa using hmem'
      rwa [String.toList_ofList]
  · intro text' hmem' c hc
    obtain hmem' | hmem' := List.mem_append.mp hmem'
    · exact hfront.free text' hmem' c hc
    · obtain rfl : text' = String.ofList kept := by simpa using hmem'
      rw [String.toList_ofList] at hc
      exact h.free text hmem c (hkept.subset hc)
  · rintro i hi j hj text' text'' ⟨rfl, rfl⟩
    exact hends text' text ⟨hi, rfl⟩

/-- Dropping blanks keeps the texts apart, and leaves no blanks at the end. -/
theorem Parted.trimContent (h : Parted items)
    (hfirst : ∀ text, items.head? = some (.literal text) → Halts isBlank text.toList) :
    Tidy (Reduction.trimContent items) := by
  obtain rfl | ⟨front, last, rfl⟩ := List.eq_nil_or_concat' items
  · exact ⟨h, by simp [Reduction.trimContent], by simp [Reduction.trimContent]⟩
  obtain ⟨hfront, hends⟩ := h.init
  rw [trimContent_append]
  by_cases hliteral : ∃ text, last = .literal text
  · obtain ⟨text, rfl⟩ := hliteral
    obtain hnil | ⟨kept, hne, hkept, hblank, hlast⟩ := trimContent_literal text
    · -- the text is gone, and what stood before it is no text
      rw [hnil, List.append_nil]
      refine ⟨hfront, fun text' hhead => hfirst text' ?_, fun text' c hlast _ => ?_⟩
      · rw [List.head?_append, hhead, Option.some_or]
      · exact absurd ⟨hlast, rfl⟩ (hends text' text)
    · rw [hlast]
      refine ⟨h.shorten hne hkept, fun text' hhead => ?_, fun text' c hlast hc => ?_⟩
      · -- a first text that was cut short still begins with the same character
        cases front with
        | nil =>
          obtain rfl : String.ofList kept = text' := by simpa using hhead
          obtain ⟨after, hafter⟩ := hkept
          have hwhole : Halts isBlank text.toList := hfirst text rfl
          rw [← hafter] at hwhole
          rw [String.toList_ofList]
          exact hwhole.of_append
        | cons i front => exact hfirst text' hhead
      · obtain rfl : String.ofList kept = text' := by simpa using hlast
        rw [String.toList_ofList] at hc
        exact hblank c hc
  · rw [Reduction.trimContent_single fun text heq => hliteral ⟨text, heq⟩]
    refine ⟨h, hfirst, fun text c hlast _ => ?_⟩
    rw [List.getLast?_concat] at hlast
    exact absurd ⟨text, Option.some.inj hlast⟩ hliteral

end Trimming

end ContentItem

/-! ## Content as it is read -/

section Reading

variable {o : Nat} {t rest : List Char} {nodes : List Node} {node : Node}

/-- A text is as long as it can be. -/
theorem Recognizes.literal_spec {text : String} (h : Recognizes (.item node (.literal text)) o t rest) :
    text.toList = t ∧ t ≠ [] ∧ (∀ c ∈ t, Reader.isContentMark c = false) ∧
      Halts (fun c => !Reader.isContentMark c) rest := by
  cases h with
  | text hne hmarks hrest =>
    refine ⟨String.toList_ofList, hne, fun c hc => ?_, hrest⟩
    simpa using hmarks c hc

/-- Content that begins with a text begins with the characters of that text. -/
theorem Recognizes.first_literal {text : String} {more : List ContentItem}
    (h : Recognizes (.items nodes (.literal text :: more)) o t rest) :
    text.toList ≠ [] ∧ text.toList <+: t ∧ ∀ c ∈ text.toList, Reader.isContentMark c = false := by
  cases h with
  | items hitem _ =>
    obtain ⟨htext, hne, hmarks, -⟩ := hitem.literal_spec
    rw [htext]
    exact ⟨hne, List.prefix_append _ _, hmarks⟩

theorem Recognizes.parted {items : List ContentItem} (h : Recognizes (.items nodes items) o t rest) :
    ContentItem.Parted items := by
  induction items generalizing nodes o t with
  | nil => exact ⟨by simp, by simp, List.isChain_nil⟩
  | cons i more ih =>
    cases h with
    | @items _ t _ _ u nodes _ _ hitem hmore =>
      obtain ⟨hfull, hfree, hapart⟩ := ih hmore
      have hfirst : ∀ text, i = .literal text →
          text.toList ≠ [] ∧ ∀ c ∈ text.toList, Reader.isContentMark c = false := by
        rintro text rfl
        obtain ⟨rfl, hne, hmarks, -⟩ := hitem.literal_spec
        exact ⟨hne, hmarks⟩
      refine ⟨?_, ?_, List.isChain_cons.mpr ⟨?_, hapart⟩⟩
      · intro text hmem
        obtain heq | hmem := List.mem_cons.mp hmem
        · exact (hfirst text heq.symm).1
        · exact hfull text hmem
      · intro text hmem
        obtain heq | hmem := List.mem_cons.mp hmem
        · exact (hfirst text heq.symm).2
        · exact hfree text hmem
      · -- a text ends before a mark, and the text after it would begin with one
        rintro j hj text text' ⟨rfl, rfl⟩
        obtain ⟨more, rfl⟩ := List.head?_eq_some_iff.mp hj
        obtain ⟨-, -, -, hends⟩ := hitem.literal_spec
        obtain ⟨hne, hbegin, hmarks⟩ := hmore.first_literal
        obtain ⟨c, cs, htext⟩ := List.exists_cons_of_ne_nil hne
        obtain ⟨after, rfl⟩ := hbegin
        have hmark : (!Reader.isContentMark c) = false := by
          refine hends c ?_
          rw [htext]
          rfl
        have hplain : Reader.isContentMark c = false := hmarks c (by simp [htext])
        simp [hplain] at hmark

end Reading

theorem Element.Recognized.tidy {e : Element} {items : List ContentItem} (h : e.Recognized)
    (hitems : e.content = some items) : ContentItem.Tidy items := by
  obtain ⟨node, o, t, rest, hnode⟩ := h
  cases hnode with
  | selfClosing _ _ _ _ _ _ => cases hitems
  | normal _ _ _ _ _ _ _ hbody hcontents _ _ _ =>
    cases hitems
    refine hcontents.parted.trimContent fun text hhead => ?_
    obtain ⟨more, rfl⟩ := List.head?_eq_some_iff.mp hhead
    obtain ⟨-, ⟨after, rfl⟩, -⟩ := hcontents.first_literal
    exact hbody.of_append

/-! ## Without places -/

namespace ContentItem

variable {items : List ContentItem} {i : ContentItem} {text : String}

theorem unplaced_eq_literal : i.unplaced = .literal text ↔ i = .literal text := by
  cases i <;> simp [unplaced]

theorem unplacedAll_eq_map (items : List ContentItem) : unplacedAll items = items.map unplaced := by
  induction items with
  | nil => rfl
  | cons i items ih => rw [unplacedAll, ih, List.map_cons]

theorem literal_mem_unplacedAll : .literal text ∈ unplacedAll items ↔ .literal text ∈ items := by
  simp [unplacedAll_eq_map, unplaced_eq_literal]

theorem Tidy.of_unplaced (h : Tidy (unplacedAll items)) : Tidy items := by
  have hchain := h.toParted.apart
  rw [unplacedAll_eq_map, List.isChain_map] at hchain
  simp only [unplaced_eq_literal] at hchain
  refine ⟨⟨?_, ?_, hchain⟩, ?_, ?_⟩
  · exact fun text hmem => h.full text (literal_mem_unplacedAll.mpr hmem)
  · exact fun text hmem => h.free text (literal_mem_unplacedAll.mpr hmem)
  · intro text hhead
    refine h.first text ?_
    rw [unplacedAll_eq_map, List.head?_map, hhead, Option.map_some, unplaced]
  · intro text c hlast hc
    refine h.last text c ?_ hc
    rw [unplacedAll_eq_map, List.getLast?_map, hlast, Option.map_some, unplaced]

end ContentItem

/-! ## All content of a template -/

/-- In all content of a template, at every depth, the texts are told apart and no blanks stand at the
ends; and no text is empty or has a character in it that begins an element or an expression. -/
theorem Element.content_tidy_of_parse {template : List Char} {tree : Node} {root : Element}
    (hparse : Node.parse template = .ok tree) (hroot : Element.ofNode template tree = .ok root) :
    ∀ x ∈ root.elements, ∀ items, x.content = some items →
      ContentItem.Separate items ∧ ∀ text, .literal text ∈ items →
        text.toList ≠ [] ∧ '<' ∉ text.toList ∧ '\x7b' ∉ text.toList ∧ '[' ∉ text.toList := by
  intro x hx items hitems
  have htidy : ContentItem.Tidy items := by
    refine ContentItem.Tidy.of_unplaced ((recognized_of_parse hparse hroot x hx).tidy ?_)
    obtain ⟨tag, attrs, content, span⟩ := x
    obtain rfl : content = some items := hitems
    rfl
  refine ⟨htidy.toSeparate, fun text hmem => ⟨htidy.full text hmem, ?_, ?_, ?_⟩⟩
  all_goals
    intro hmark
    exact absurd (htidy.free text hmem _ hmark) (by decide)

/-- The content of an element in an expression, with a text that is dropped after another expression. -/
theorem Element.content_tidy_of_nested :
    ∃ (tree : Node) (root x : Element) (items : List ContentItem),
      Node.parse "<p> a \x7b(<b>\tc [d] \n</b>)\x7d</p>".toList = .ok tree ∧
      Element.ofNode "<p> a \x7b(<b>\tc [d] \n</b>)\x7d</p>".toList tree = .ok root ∧
      x ∈ root.elements ∧ x.tag = "b" ∧ x.content = some items ∧ .literal "c " ∈ items ∧
      items.length = 2 ∧ ContentItem.Separate items := by
  have hread : ∃ (tree : Node) (root x : Element) (items : List ContentItem),
      Node.parse "<p> a \x7b(<b>\tc [d] \n</b>)\x7d</p>".toList = .ok tree ∧
      Element.ofNode "<p> a \x7b(<b>\tc [d] \n</b>)\x7d</p>".toList tree = .ok root ∧
      root.elements[1]? = some x ∧ x.tag = "b" ∧ x.content = some items ∧
      items.head? = some (.literal "c ") ∧ items.length = 2 := by
    refine ⟨?tree, ?root, ?x, ?items, ?parse, ?reduce, ?mem, ?tag, ?content, ?head, ?length⟩
    case parse => set_option maxRecDepth 2000 in cbv; rfl
    case reduce => cbv; rfl
    case mem => rfl
    case tag => rfl
    case content => rfl
    case head => rfl
    case length => rfl
  obtain ⟨tree, root, x, items, hparse, hroot, hx, htag, hitems, hhead, hlength⟩ := hread
  have hmem : x ∈ root.elements := List.mem_of_getElem? hx
  exact ⟨tree, root, x, items, hparse, hroot, hmem, htag, hitems, List.mem_of_head? hhead, hlength,
    (Element.content_tidy_of_parse hparse hroot x hmem items hitems).1⟩

end ComponentMarkup
