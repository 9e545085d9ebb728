import ComponentMarkup.Proofs.Element.Recognition

/-!
# Where markup allows blanks

`Node.blankGaps` lists the places of a tree where blanks may stand: between the parts of a tag, between the
open tag of an element and its content, between the content and the close tag, and around the root.
Expressions have no gaps of this kind.

Here the gaps are located (`Recognizes.gapped`): they lie inside of the part they belong to, and wherever
blanks are put into one, the characters on both sides do not belong together (`Parted`).
-/

namespace ComponentMarkup

open Text (byteLength isBlank)

variable {o : Nat} {b t rest : List Char} {gap : Span}

/-! ## Characters and texts that may be parted -/

/-- Blanks may be put between two characters. -/
structure Parted (p q : Char) : Prop where
  names : Cursor.isNameChar p = true → Cursor.isNameChar q = false
  closing : p = '<' → q ≠ '/'
  ending : p = '/' → q ≠ '>'
  quotes : [p] ∈ stringQuotes → q ≠ p
  guards : p = '\\' → [q] ∉ stringQuotes ∧ q ≠ '\\'

/-- Blanks may be put between two texts. -/
def PartedTexts (x b : List Char) : Prop :=
  ∀ p q, x.getLast? = some p → b.head? = some q → Parted p q

theorem PartedTexts.of_append {y x : List Char} (h : PartedTexts (y ++ x) b) : PartedTexts x b := by
  intro p q hp hq
  refine h p q ?_ hq
  rw [List.getLast?_append, hp]
  rfl

theorem PartedTexts.append {x : List Char} (h : PartedTexts x b) (hx : x ≠ []) (y : List Char) :
    PartedTexts (y ++ x) b := by
  intro p q hp hq
  refine h p q ?_ hq
  rw [List.getLast?_append, List.getLast?_eq_some_getLast hx] at hp
  rw [List.getLast?_eq_some_getLast hx]
  exact hp

/-- A text that ends with one character. -/
theorem partedTexts_last {x : List Char} {p : Char} (h : ∀ q, b.head? = some q → Parted p q) :
    PartedTexts (x ++ [p]) b := by
  intro p' q hp hq
  rw [List.getLast?_append] at hp
  cases hp
  exact h q hq

section Parted

variable {p q : Char}

theorem parted_left (hname : Cursor.isNameChar p = false) (hp : p ∉ ['<', '/', '"', '\'', '\\']) :
    Parted p q := by
  simp only [List.mem_cons, List.not_mem_nil, or_false, not_or] at hp
  refine ⟨fun h => ?_, fun h => absurd h hp.1, fun h => absurd h hp.2.1, fun h => ?_, fun h => ?_⟩
  · rw [hname] at h
    cases h
  · exact absurd (eq_of_stringQuotes h) (not_or.mpr ⟨hp.2.2.1, hp.2.2.2.1⟩)
  · exact absurd h hp.2.2.2.2

theorem parted_right (hname : Cursor.isNameChar q = false) (hq : q ∉ ['/', '>', '"', '\'', '\\']) :
    Parted p q := by
  simp only [List.mem_cons, List.not_mem_nil, or_false, not_or] at hq
  have hquote : [q] ∉ stringQuotes := fun h =>
    absurd (eq_of_stringQuotes h) (not_or.mpr ⟨hq.2.2.1, hq.2.2.2.1⟩)
  refine ⟨fun _ => hname, fun _ => hq.1, fun _ => hq.2.1, ?_, fun _ => ⟨hquote, hq.2.2.2.2⟩⟩
  rintro h rfl
  exact hquote h

/-- A character that may stand in a gap. -/
def IsSpacer (c : Char) : Prop :=
  isBlank c = true ∨ c = '='

theorem IsSpacer.not_mem {c : Char} {l : List Char} (h : IsSpacer c)
    (hl : (l.all fun d => !isBlank d && d != '=') = true) : c ∉ l := by
  intro hc
  have hall := List.all_eq_true.mp hl c hc
  obtain h | rfl := h
  · rw [h] at hall
    cases hall
  · rw [bne_self_eq_false, Bool.and_false] at hall
    cases hall

theorem IsSpacer.isNameChar {c : Char} (h : IsSpacer c) : Cursor.isNameChar c = false := by
  rw [← Bool.not_eq_true]
  intro hname
  obtain h | rfl := h
  · rw [isBlank_of_isNameChar hname] at h
    cases h
  · cases hname

theorem parted_spacer (h : IsSpacer p ∨ IsSpacer q) : Parted p q := by
  obtain h | h := h
  · exact parted_left h.isNameChar (h.not_mem (by decide))
  · exact parted_right h.isNameChar (h.not_mem (by decide))

theorem parted_name (hp : Cursor.isNameChar p = true) (hq : Cursor.isNameChar q = false) :
    Parted p q where
  names := fun _ => hq
  closing := by
    rintro rfl
    exact absurd hp (by decide)
  ending := by
    rintro rfl
    exact absurd hp (by decide)
  quotes := by
    rintro - rfl
    rw [hp] at hq
    cases hq
  guards := by
    rintro rfl
    exact absurd hp (by decide)

/-- After the end of a tag or of a value anything may follow but a quote of the same kind. -/
theorem parted_sign (hp : p ∈ ['>', '\x7d', ']', '"', '\'']) (hq : [p] ∈ stringQuotes → q ≠ p) :
    Parted p q := by
  obtain ⟨hname, hopening, hslash, hguard⟩ :
      Cursor.isNameChar p = false ∧ p ≠ '<' ∧ p ≠ '/' ∧ p ≠ '\\' := by
    simp only [List.mem_cons, List.not_mem_nil, or_false] at hp
    rcases hp with rfl | rfl | rfl | rfl | rfl <;> decide
  refine ⟨fun h => ?_, fun h => absurd h hopening, fun h => absurd h hslash, hq, fun h => absurd h hguard⟩
  rw [hname] at h
  cases h

/-- A name may follow the mark of a tag. -/
theorem parted_mark (hp : p ∈ ['<', '/']) (hq : Cursor.isNameStart q = true) : Parted p q := by
  have hslash : q ≠ '/' := by
    rintro rfl
    cases hq
  have hending : q ≠ '>' := by
    rintro rfl
    cases hq
  obtain ⟨hname, hquote, hguard⟩ :
      Cursor.isNameChar p = false ∧ [p] ∉ stringQuotes ∧ p ≠ '\\' := by
    simp only [List.mem_cons, List.not_mem_nil, or_false] at hp
    rcases hp with rfl | rfl <;> decide
  refine ⟨fun h => ?_, fun _ => hslash, fun _ => hending, fun h => absurd h hquote, fun h => absurd h hguard⟩
  rw [hname] at h
  cases h

end Parted

theorem partedTexts_name {name : List Char} (hname : IsMarkupName name) (hb : Halts Cursor.isNameChar b) :
    PartedTexts name b :=
  fun p q hp hq => parted_name (hname.chars p (List.mem_of_getLast? hp)) (hb q hq)

/-! ## Gaps -/

namespace Node

mutual

/-- The places of a tree where markup allows blanks, as ranges of offsets with both ends. The
expressions of the tree have none. -/
def blankGaps (node : Node) : List Span :=
  match node with
  | ⟨.document, span, children⟩ => blankGapsBetween span.start span.stop children
  | ⟨.selfClosing, span, children⟩ => blankGapsBetween (span.start + 1) (span.stop - 2) children
  | ⟨.normal, _, [opening, body, closing]⟩ =>
    opening.blankGaps ++ ⟨opening.span.stop, body.span.start⟩ :: body.blankGaps ++
      ⟨body.span.stop, closing.span.start⟩ :: closing.blankGaps
  | ⟨.openTag, span, children⟩ => blankGapsBetween (span.start + 1) (span.stop - 1) children
  | ⟨.closeTag, span, children⟩ => blankGapsBetween (span.start + 2) (span.stop - 1) children
  | ⟨.attribute, _, [name, value]⟩ => [⟨name.span.stop, value.span.start⟩]
  | ⟨.content, _, items⟩ => blankGapsOfAll items
  | _ => []

/-- The gaps before, in and after the parts of a tag, from an offset up to another. -/
def blankGapsBetween (start stop : Nat) (nodes : List Node) : List Span :=
  match nodes with
  | [] => [⟨start, stop⟩]
  | node :: rest => ⟨start, node.span.start⟩ :: node.blankGaps ++ blankGapsBetween node.span.stop stop rest

/-- The gaps in the items of content. -/
def blankGapsOfAll (nodes : List Node) : List Span :=
  match nodes with
  | [] => []
  | node :: rest => node.blankGaps ++ blankGapsOfAll rest

end

end Node

/-- An offset lies in a gap or at one of its ends. -/
def Span.Touches (gap : Span) (offset : Nat) : Prop :=
  gap.start ≤ offset ∧ offset ≤ gap.stop

/-- A place in the middle part of a text. -/
theorem split_middle {x y p q r : List Char} (h : x ++ y = p ++ q ++ r)
    (hstart : byteLength p ≤ byteLength x) (hstop : byteLength x ≤ byteLength (p ++ q)) :
    ∃ q₁ q₂, q = q₁ ++ q₂ ∧ x = p ++ q₁ ∧ y = q₂ ++ r := by
  have hnil : ∀ a : List Char, byteLength a = 0 → a = [] := by
    intro a ha
    cases a with
    | nil => rfl
    | cons c a =>
      have hpos := byteLength_pos (List.cons_ne_nil c a)
      omega
  rw [List.append_assoc] at h
  obtain ⟨a, hp, hy⟩ | ⟨a, hx, hqr⟩ := List.append_eq_append_iff.mp h
  · rw [hp, Text.byteLength_append] at hstart
    obtain rfl := hnil a (by omega)
    exact ⟨[], q, rfl, by simpa using hp.symm, hy⟩
  · obtain ⟨d, ha, hr⟩ | ⟨d, hq, hy⟩ := List.append_eq_append_iff.mp hqr
    · rw [hx, ha, Text.byteLength_append, Text.byteLength_append, Text.byteLength_append] at hstop
      obtain rfl := hnil d (by omega)
      exact ⟨q, [], by simp, by rw [hx, ha, List.append_nil], by simpa using hr.symm⟩
    · exact ⟨a, d, hq, hx, hy⟩

/-! ## The ends of parts -/

section Ends

variable {o : Nat} {t rest : List Char} {node : Node} {value : AttributeValue} {c : Char}

theorem Recognizes.value_start_eq (h : Recognizes (.value node value) o t rest) :
    node.span.start = o := by
  cases h <;> rfl

/-- A value ends with a quote or a bracket. -/
theorem Recognizes.value_last (h : Recognizes (.value node value) o t rest) :
    ∃ front p, t = front ++ [p] ∧ p ∈ ['>', '\x7d', ']', '"', '\''] := by
  cases h with
  | @quoted _ quote body _ hquote _ =>
    have hcases : quote = '"' ∨ quote = '\'' := by simpa [stringQuotes] using hquote
    refine ⟨quote :: body, quote, rfl, ?_⟩
    rcases hcases with rfl | rfl <;> decide
  | dict _ _ => exact ⟨_, '\x7d', rfl, by decide⟩
  | braces _ _ => exact ⟨_, '\x7d', rfl, by decide⟩
  | brackets _ => exact ⟨_, ']', rfl, by decide⟩

/-- A character that may follow the name of a tag or the value of an attribute. -/
def FollowsTag (c : Char) : Prop :=
  isBlank c = true ∨ Cursor.isNameStart c = true ∨ c = '/' ∨ c = '>'

theorem FollowsTag.not_quote (h : FollowsTag c) : [c] ∉ stringQuotes := by
  intro hquote
  have hcases : c = '"' ∨ c = '\'' := by simpa [stringQuotes] using hquote
  rcases hcases with rfl | rfl <;> exact absurd h (by unfold FollowsTag; decide)

/-- What stands at the end of a tag. -/
def EndsTag (mark : List Char) : Prop :=
  mark = ['/', '>'] ∨ mark = ['>']

theorem EndsTag.head {mark : List Char} (h : EndsTag mark) :
    ∃ c more, mark = c :: more ∧ Cursor.isNameChar c = false ∧ FollowsTag c := by
  obtain rfl | rfl := h
  · exact ⟨'/', ['>'], rfl, by decide, .inr (.inr (.inl rfl))⟩
  · exact ⟨'>', [], rfl, by decide, .inr (.inr (.inr rfl))⟩

theorem EndsTag.ne_nil {mark : List Char} (h : EndsTag mark) : mark ≠ [] := by
  obtain ⟨c, more, rfl, -, -⟩ := h.head
  exact List.cons_ne_nil c more

theorem EndsTag.halts_isNameChar {mark : List Char} (h : EndsTag mark) :
    Halts Cursor.isNameChar (mark ++ rest) := by
  obtain ⟨c, more, rfl, hname, -⟩ := h.head
  exact halts_cons.mpr hname

theorem head_of_blanks_name {more : List Char} (hw : Blanks w) (hname : IsMarkupName name)
    (hc : (w ++ (name ++ more)).head? = some c) :
    isBlank c = true ∨ Cursor.isNameStart c = true := by
  cases w with
  | nil =>
    obtain ⟨d, hd, hstart⟩ := hname.start
    rw [List.nil_append, List.head?_append, hd] at hc
    cases hc
    exact .inr hstart
  | cons d w =>
    cases hc
    exact .inl (hw c List.mem_cons_self)

/-- After the attributes, blanks and the end of the tag nothing else can come next. -/
theorem Recognizes.followsTag {nodes : List Node} {attrs : List Attribute} {mark more : List Char}
    (h : Recognizes (.attributes nodes attrs) o t rest) (hv : Blanks v) (hmark : EndsTag mark)
    (hc : (t ++ (v ++ mark ++ more)).head? = some c) : FollowsTag c := by
  cases h with
  | noAttributes _ =>
    cases v with
    | nil =>
      obtain ⟨d, mark, rfl, -, hd⟩ := hmark.head
      cases hc
      exact hd
    | cons d v =>
      cases hc
      exact .inl (hv c List.mem_cons_self)
  | @moreAttributes _ w name u u' t _ _ _ others _ _ _ hw hname _ _ _ htext _ =>
    have hfront : w ++ (name ++ (u ++ '=' :: u' ++ t ++ others ++ (v ++ mark ++ more))) =
        w ++ (name ++ u ++ '=' :: u' ++ t) ++ others ++ (v ++ mark ++ more) := by simp
    rw [htext, ← hfront] at hc
    exact (head_of_blanks_name hw hname hc).imp_right .inl

end Ends

/-! ## Gaps lie inside of their parts -/

/-- A place inside of the text `t` at the offset `o` where blanks may be put: only blanks and equals signs
stand there, or two characters meet that do not belong together. -/
def IsGap (o : Nat) (t rest : List Char) (gap : Span) : Prop :=
  ∃ p m q, t = p ++ m ++ q ∧ p ≠ [] ∧ q ≠ [] ∧ gap = ⟨o + byteLength p, o + byteLength (p ++ m)⟩ ∧
    (∀ c ∈ m, IsSpacer c) ∧ (m = [] → PartedTexts p (q ++ rest))

theorem IsGap.bounds (h : IsGap o t rest gap) : o < gap.start ∧ gap.stop < o + byteLength t := by
  obtain ⟨p, m, q, rfl, hp, hq, rfl, -, -⟩ := h
  have hfront := byteLength_pos hp
  have hback := byteLength_pos hq
  simp only [Text.byteLength_append]
  omega

theorem IsGap.within {a c : List Char} (h : IsGap (o + byteLength a) t (c ++ rest) gap) :
    IsGap o (a ++ t ++ c) rest gap := by
  obtain ⟨p, m, q, rfl, hp, hq, rfl, hm, hparted⟩ := h
  refine ⟨a ++ p, m, q ++ c, by simp, by simp [hp], by simp [hq], by simp [Nat.add_assoc], hm, ?_⟩
  intro hnil
  rw [List.append_assoc]
  exact (hparted hnil).append hp a

/-- Wherever blanks are put into a gap, they part nothing that belongs together. -/
theorem IsGap.parted {x y : List Char} (h : IsGap o (x ++ y) rest gap)
    (htouch : gap.Touches (o + byteLength x)) : x ≠ [] ∧ PartedTexts x (y ++ rest) := by
  obtain ⟨p, m, q, htext, hp, -, rfl, hm, hparted⟩ := h
  obtain ⟨hstart, hstop⟩ := htouch
  obtain ⟨m₁, m₂, rfl, rfl, rfl⟩ := split_middle htext (Nat.le_of_add_le_add_left hstart)
    (Nat.le_of_add_le_add_left hstop)
  refine ⟨by simp [hp], ?_⟩
  by_cases hm₁ : m₁ = []
  · subst hm₁
    cases m₂ with
    | nil => simpa using hparted rfl
    | cons c m₂ =>
      intro x y _ hy
      cases hy
      exact parted_spacer (.inr (hm c (by simp)))
  · refine PartedTexts.append (fun x y hx _ => parted_spacer (.inl (hm x ?_))) hm₁ p
    exact List.mem_append_left m₂ (List.mem_of_getLast? hx)

namespace Node

variable {w name tail text v : List Char} {attrs : List Node} {gap : Span}

theorem blankGaps_leafOver {rule : Rule} (h : rule = .tagName ∨ rule = .text) :
    (leafOver rule o t).blankGaps = [] := by
  rcases h with rfl | rfl <;> rfl

/-- The gaps of a tag at an offset: after its mark, and from its name on. -/
def tagGaps (o : Nat) (mark w name tail : List Char) (attrs : List Node) : List Span :=
  ⟨o + byteLength mark, o + byteLength (mark ++ w)⟩ ::
    blankGapsBetween (o + byteLength (mark ++ w ++ name))
      (o + byteLength (mark ++ w ++ name) + byteLength tail) attrs

theorem blankGapsBetween_tag (mark ending : List Char) :
    blankGapsBetween (o + byteLength mark)
        (o + byteLength (mark ++ w ++ name ++ tail ++ ending) - byteLength ending)
        (leafOver .tagName (o + byteLength (mark ++ w)) name :: attrs) =
      tagGaps o mark w name tail attrs := by
  have hstop : o + byteLength (mark ++ w ++ name ++ tail ++ ending) - byteLength ending =
      o + byteLength (mark ++ w ++ name) + byteLength tail := by
    simp only [Text.byteLength_append]
    omega
  have hname : (leafOver .tagName (o + byteLength (mark ++ w)) name).span.stop =
      o + byteLength (mark ++ w ++ name) := by
    rw [Text.byteLength_append (mark ++ w), ← Nat.add_assoc]
    rfl
  rw [blankGapsBetween, blankGaps_leafOver (.inl rfl), hname, hstop]
  rfl

theorem blankGaps_selfClosing (htext : text = ['<'] ++ w ++ name ++ tail ++ ['/', '>']) :
    blankGaps ⟨.selfClosing, .over o text, leafOver .tagName (o + byteLength ('<' :: w)) name :: attrs⟩ =
      tagGaps o ['<'] w name tail attrs := by
  rw [← blankGapsBetween_tag ['<'] ['/', '>'], ← htext]
  rfl

/-- The gaps of an element with content: those of its tags and items, and around the content. -/
theorem mem_blankGaps_normal {span : Span} {body u u' : List Char} {items : List Node}
    {opening closing : List Char} (hopening : opening = ['<'] ++ w ++ name ++ tail ++ ['>'])
    (hclosing : closing = ['<', '/'] ++ u ++ name ++ u' ++ ['>']) :
    gap ∈ blankGaps ⟨.normal, span,
        [⟨.openTag, .over o opening, leafOver .tagName (o + byteLength ('<' :: w)) name :: attrs⟩,
          ⟨.content, .over (o + byteLength (opening ++ v)) body, items⟩,
          ⟨.closeTag, .over (o + byteLength (opening ++ v ++ body)) closing,
            [leafOver .tagName (o + byteLength (opening ++ v ++ body ++ '<' :: '/' :: u)) name]⟩]⟩ ↔
      gap ∈ tagGaps o ['<'] w name tail attrs ∨
        gap = ⟨o + byteLength opening, o + byteLength (opening ++ v)⟩ ∨ gap ∈ blankGapsOfAll items ∨
        gap = ⟨o + byteLength (opening ++ v ++ body), o + byteLength (opening ++ v ++ body)⟩ ∨
        gap ∈ tagGaps (o + byteLength (opening ++ v ++ body)) ['<', '/'] u name u' [] := by
  have hbody : (Span.over (o + byteLength (opening ++ v)) body).stop =
      o + byteLength (opening ++ v ++ body) := by
    rw [Text.byteLength_append (opening ++ v), ← Nat.add_assoc]
    rfl
  have hname : o + byteLength (opening ++ v ++ body ++ '<' :: '/' :: u) =
      o + byteLength (opening ++ v ++ body) + byteLength (['<', '/'] ++ u) := by
    rw [Text.byteLength_append (opening ++ v ++ body), Nat.add_assoc]
    rfl
  rw [← blankGapsBetween_tag ['<'] ['>'], ← blankGapsBetween_tag ['<', '/'] ['>'], ← hopening,
    ← hclosing, ← hname]
  simp only [blankGaps, List.mem_append, List.mem_cons, or_assoc]
  rw [hbody]
  rfl

theorem mem_gapsBetween_attribute {value : Node} {stop : Nat} :
    gap ∈ blankGapsBetween o stop (⟨.attribute, .over (o + byteLength w) text,
        [leafOver .attrName (o + byteLength w) name, value]⟩ :: attrs) ↔
      gap = ⟨o, o + byteLength w⟩ ∨ gap = ⟨o + byteLength (w ++ name), value.span.start⟩ ∨
        gap ∈ blankGapsBetween (o + byteLength (w ++ text)) stop attrs := by
  rw [blankGapsBetween, blankGaps, List.cons_append, List.singleton_append, List.mem_cons, List.mem_cons,
    Text.byteLength_append w text, Text.byteLength_append w name, ← Nat.add_assoc, ← Nat.add_assoc]
  rfl

end Node

/-- The gaps of a part are gaps of its text. Those of attributes begin in front of them, and reach up to the
end of their tag. -/
def Sense.Gapped (o : Nat) (t rest : List Char) : Sense → Prop
  | .element node _ | .item node _ => ∀ gap ∈ node.blankGaps, IsGap o t rest gap
  | .attributes nodes _ => ∀ o₀ front v mark rest₀, o = o₀ + byteLength front → front ≠ [] →
      PartedTexts front (t ++ rest) → rest = v ++ mark ++ rest₀ → Blanks v → EndsTag mark →
      ∀ gap ∈ Node.blankGapsBetween o (o + byteLength (t ++ v)) nodes,
        IsGap o₀ (front ++ t ++ v ++ mark) rest₀ gap
  | .items nodes _ => ∀ gap ∈ Node.blankGapsOfAll nodes, IsGap o t rest gap
  | _ => True


section Gapped

variable {w name w' : List Char} {attrs : List Node} {as : List Attribute}

/-- A gap of a tag. -/
theorem isGap_tag {mark ending : List Char} (hmark : mark = ['<'] ∨ mark = ['<', '/']) (hw : Blanks w)
    (hname : IsMarkupName name) (hhalts : Halts Cursor.isNameChar t) (hw' : Blanks w')
    (hend : EndsTag ending)
    (h : (Sense.attributes attrs as).Gapped (o + byteLength (mark ++ w ++ name)) t (w' ++ ending ++ rest))
    (hgap : gap ∈ Node.tagGaps o mark w name (t ++ w') attrs) :
    IsGap o (mark ++ w ++ name ++ t ++ w' ++ ending) rest gap := by
  obtain rfl | hgap := List.mem_cons.mp hgap
  · -- before the name
    refine ⟨mark, w, name ++ t ++ w' ++ ending, by simp, ?_, by simp [hname.ne_nil], rfl,
      fun c hc => .inl (hw c hc), fun _ p q hp hq => ?_⟩
    · rcases hmark with rfl | rfl <;> exact List.cons_ne_nil _ _
    · obtain ⟨c, hc, hstart⟩ := hname.start
      obtain rfl : c = q := by simpa [List.head?_append, hc] using hq
      refine parted_mark ?_ hstart
      rcases hmark with rfl | rfl <;> cases hp <;> decide
  · refine h o _ w' ending rest rfl (by simp [hname.ne_nil])
      ((partedTexts_name hname ?_).append hname.ne_nil (mark ++ w)) rfl hw' hend gap hgap
    rw [List.append_assoc w']
    exact hhalts.append (hw'.halts_isNameChar hend.halts_isNameChar)

theorem gapped_noAttributes : (Sense.attributes [] []).Gapped o [] rest := by
  rintro o₀ front v mark rest₀ rfl hfront hparted rfl hv hmark gap hgap
  obtain rfl := List.mem_singleton.mp hgap
  refine ⟨front, v, mark, by simp, hfront, hmark.ne_nil, by simp [Nat.add_assoc],
    fun c hc => .inl (hv c hc), ?_⟩
  rintro rfl
  exact hparted

theorem Recognizes.gapped {sense : Sense} (h : Recognizes sense o t rest) : sense.Gapped o t rest := by
  induction h with
  | @selfClosing o w name t w' attrs as text rest hw hname hhalts _ hw' htext ih =>
    intro gap hgap
    have htag : text = ['<'] ++ w ++ name ++ (t ++ w') ++ ['/', '>'] := by simp [htext]
    rw [Node.blankGaps_selfClosing htag] at hgap
    rw [htext]
    exact isGap_tag (.inl rfl) hw hname hhalts hw' (.inl rfl) ih hgap
  | @normal o w name t w' attrs as opening v body items contents u u' closing rest hw hname hhalts _ hw'
      hopening hv _ _ hu hu' hclosing ih₁ ih₂ =>
    intro gap hgap
    have htag : opening = ['<'] ++ w ++ name ++ (t ++ w') ++ ['>'] := by simp [hopening]
    obtain hgap | rfl | hgap | rfl | hgap := (Node.mem_blankGaps_normal htag hclosing).mp hgap
    · have hopen : IsGap o opening (v ++ body ++ closing ++ rest) gap := by
        rw [hopening]
        exact isGap_tag (.inl rfl) hw hname hhalts hw' (.inr rfl) (by simpa using ih₁) hgap
      simpa using hopen.within (a := [])
    · refine ⟨opening, v, body ++ closing, by simp, by simp [hopening], by simp [hclosing], rfl,
        fun c hc => .inl (hv c hc), fun _ => ?_⟩
      rw [hopening]
      exact partedTexts_last fun q _ => parted_sign (by decide) fun h => absurd h (by decide)
    · exact (ih₂ gap hgap).within
    · refine ⟨opening ++ v ++ body, [], closing, by simp, by simp [hopening], by simp [hclosing], by simp,
        fun _ hc => absurd hc List.not_mem_nil, fun _ p q _ hq => ?_⟩
      rw [hclosing] at hq
      cases hq
      exact parted_right (by decide) (by decide)
    · have hclose : IsGap _ _ rest gap := isGap_tag (t := []) (.inr rfl) hu hname halts_nil hu' (.inr rfl)
        gapped_noAttributes hgap
      rw [List.append_nil] at hclose
      simpa [hclosing] using hclose.within (c := [])
  | noAttributes _ => exact gapped_noAttributes
  | @moreAttributes o w name u u' t node value text more attrs as rest hw hname hu hu' hvalue htext hattrs _
      ih =>
    rintro o₀ front v mark rest₀ rfl hfront hparted rfl hv hmark gap hgap
    obtain rfl | rfl | hgap := Node.mem_gapsBetween_attribute.mp hgap
    · refine ⟨front, w, text ++ more ++ v ++ mark, by simp, hfront, by simp [htext], by simp [Nat.add_assoc],
        fun c hc => .inl (hw c hc), ?_⟩
      rintro rfl
      simpa using hparted
    · refine ⟨front ++ (w ++ name), u ++ '=' :: u', t ++ more ++ v ++ mark, by simp [htext],
        by simp [hfront], by simp [hmark.ne_nil], ?_, fun c hc => ?_, fun h => absurd h (by simp)⟩
      · rw [hvalue.value_start_eq]
        simp [Nat.add_assoc]
      · obtain hc | hc := List.mem_append.mp hc
        · exact .inl (hu c hc)
        · exact (List.mem_cons.mp hc).symm.imp_left (hu' c)
    · have hlast : PartedTexts (front ++ (w ++ text)) (more ++ (v ++ mark ++ rest₀)) := by
        obtain ⟨t, p, rfl, hp⟩ := hvalue.value_last
        have hlast : PartedTexts (front ++ (w ++ (name ++ u ++ '=' :: u' ++ t)) ++ [p])
            (more ++ (v ++ mark ++ rest₀)) := by
          refine partedTexts_last fun q hq => parted_sign hp fun hquote hsame => ?_
          exact (hattrs.followsTag hv hmark hq).not_quote (hsame ▸ hquote)
        simpa [htext] using hlast
      have hgap := ih o₀ (front ++ (w ++ text)) v mark rest₀ (by simp [Nat.add_assoc]) (by simp [hfront])
        hlast rfl hv hmark gap (by simpa [Nat.add_assoc] using hgap)
      simpa using hgap
  | noItems _ | braceItem _ _ | bracketItem _ _ | text _ _ _ =>
    exact fun _ hgap => absurd hgap List.not_mem_nil
  | items _ _ ih₁ ih₂ =>
    intro gap hgap
    obtain hgap | hgap := List.mem_append.mp hgap
    · exact (ih₁ gap hgap).within (a := [])
    · simpa using (ih₂ gap hgap).within (c := [])
  | elementItem _ ih => exact ih
  | _ => trivial

end Gapped

end ComponentMarkup
