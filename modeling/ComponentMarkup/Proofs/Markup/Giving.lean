import ComponentMarkup.Proofs.Markup.Reading
import Mathlib

/-!
# What readers give

`Gives p c a c'` says that a reader with a bound on its depth, reading all elements afresh, goes from
one place to another and returns `a` under every bound that is large enough. Runs of this kind are put
together step by step, so a text of known shape is read by showing what each of its parts gives.
-/

namespace ComponentMarkup

open Text (byteLength isBlank)

namespace Reader

/-! ## Single steps -/

section Steps

variable {α : Type}

theorem cursor_bind (f : Cursor → Reader α) (s : ReaderState) :
    (cursor >>= f) s = f s.cursor s := rfl

theorem offset_bind (f : Nat → Reader α) (s : ReaderState) :
    (offset >>= f) s = f s.cursor.offset s := rfl

theorem moveTo_bind (c : Cursor) (f : Unit → Reader α) (s : ReaderState) :
    (moveTo c >>= f) s = f () { s with cursor := c } := rfl

theorem spanFrom_bind (start : Nat) (f : Span → Reader α) (s : ReaderState) :
    (spanFrom start >>= f) s = f ⟨start, s.cursor.offset⟩ s := rfl

theorem skipBlanks_bind (f : Unit → Reader α) (s : ReaderState) :
    (skipBlanks >>= f) s = f () { s with cursor := s.cursor.skipBlanks } := rfl

theorem advance_bind (f : Unit → Reader α) (s : ReaderState) :
    (advance >>= f) s = f () { s with cursor := s.cursor.advance } := rfl

theorem skipWhile_bind (p : Char → Bool) (f : Unit → Reader α) (s : ReaderState) :
    (skipWhile p >>= f) s = f () { s with cursor := (s.cursor.takeWhile p).2 } := rfl

theorem leafFrom_bind (rule : Rule) (start : Nat) (f : Node → Reader α) (s : ReaderState) :
    (leafFrom rule start >>= f) s = f (.leaf rule ⟨start, s.cursor.offset⟩) s := rfl

theorem leafFrom_run (rule : Rule) (start : Nat) (s : ReaderState) :
    leafFrom rule start s = .ok (.leaf rule ⟨start, s.cursor.offset⟩, s) := rfl

theorem nodeFrom_bind (rule : Rule) (start : Nat) (children : List Node) (f : Node → Reader α)
    (s : ReaderState) :
    (nodeFrom rule start children >>= f) s = f ⟨rule, ⟨start, s.cursor.offset⟩, children⟩ s := rfl

theorem nodeFrom_run (rule : Rule) (start : Nat) (children : List Node) (s : ReaderState) :
    nodeFrom rule start children s = .ok (⟨rule, ⟨start, s.cursor.offset⟩, children⟩, s) := rfl

theorem pure_run (a : α) (s : ReaderState) : (pure a : Reader α) s = .ok (a, s) := rfl

theorem consume_bind (text : List Char) (f : Bool → Reader α) (s : ReaderState) :
    (consume text >>= f) s =
      match s.cursor.consume? text with
      | some c => f true { s with cursor := c }
      | none => f false s := by
  change ((match s.cursor.consume? text with
    | some c => moveTo c >>= fun _ => pure true
    | none => pure false : Reader Bool) >>= f) s = _
  cases s.cursor.consume? text <;> rfl

end Steps

/-! ## Tags and literals -/

section Leaves

variable {c c' : Cursor} {t : List Char} {node : Node} {attempts : Option (List (Nat × Attempt))}
  {body : List Char}

theorem tagName_run (h : c.Passes t c') (ht : IsMarkupName t)
    (hhalts : Halts Cursor.isNameChar c'.rest) :
    tagName ⟨c, attempts⟩ =
      .ok ((String.ofList t, .leafOver .tagName c.offset t), ⟨c', attempts⟩) := by
  unfold tagName
  rw [offset_bind, cursor_bind]
  simp only [h.readName? ht hhalts, moveTo_bind, leafFrom_bind, h.span]
  rfl

theorem expect_run (h : c.Passes t c') (need : MarkupNeed) :
    expect t need ⟨c, attempts⟩ = .ok ((), ⟨c', attempts⟩) := by
  unfold expect
  rw [consume_bind]
  simp only [h.consume?]
  rfl

theorem closeTag_run (opened : Span) (hopen : c.skipBlanks.Passes ['<', '/'] c₁)
    (hname : tagName ⟨c₁.skipBlanks, attempts⟩ = .ok ((name, node), ⟨c₂, attempts⟩))
    (hend : c₂.skipBlanks.Passes ['>'] c₃) :
    closeTag name opened ⟨c, attempts⟩ =
      .ok (⟨.closeTag, ⟨c.skipBlanks.offset, c₃.offset⟩, [node]⟩, ⟨c₃, attempts⟩) := by
  unfold closeTag
  simp only [skipBlanks_bind, offset_bind, consume_bind, hopen.consume?, if_true]
  rw [bind_of_ok hname, skipBlanks_bind, bind_of_ok (expect_run hend _), spanFrom_bind,
    if_pos rfl, pure_run]

theorem quotedLiteral_run (hbody : quote ∉ body) (h : c.Passes (quote :: body ++ [quote]) c') :
    quotedLiteral quote ⟨c, attempts⟩ =
      .ok (.leafOver .quotedLiteral c.offset (quote :: body ++ [quote]), ⟨c', attempts⟩) := by
  obtain ⟨c₂, hfront, h₃⟩ := h.split
  obtain ⟨c₁, h₁, h₂⟩ := Cursor.Passes.split (t := [quote]) hfront
  have hrun := h₂.takeWhile (p := (· != quote))
    (fun x hx => by simpa using ne_of_mem_of_not_mem hx hbody)
    (by rw [h₃.rest]; exact halts_cons.mpr (by simp))
  unfold quotedLiteral
  simp only [offset_bind, advance_bind, skipWhile_bind, consume_bind, h₁.advance, hrun, h₃.consume?,
    if_true, leafFrom_run, h.span]
  rfl

section AfterString

variable {quotes rest : List Char} {o : Nat} {x y : Char}

theorem afterString?_closed (h : quotes <+: x :: rest) :
    afterString? quotes o (x :: rest) =
      some ⟨o + byteLength quotes, (x :: rest).drop quotes.length⟩ := by
  rw [afterString?.eq_def]
  simp only [List.isPrefixOf_iff_prefix.mpr h, if_true]

theorem afterString?_guarded (h : ¬ quotes <+: '\\' :: y :: rest) :
    afterString? quotes o ('\\' :: y :: rest) =
      afterString? quotes (o + '\\'.utf8Size + y.utf8Size) rest := by
  rw [← List.isPrefixOf_iff_prefix] at h
  rw [afterString?.eq_def]
  simp only [if_neg h, if_true]

theorem afterString?_char (h : ¬ quotes <+: x :: rest) (hx : x ≠ '\\') :
    afterString? quotes o (x :: rest) = afterString? quotes (o + x.utf8Size) rest := by
  rw [← List.isPrefixOf_iff_prefix] at h
  rw [afterString?.eq_def]
  simp only [if_neg h, if_neg hx]

theorem afterString?_of_body (hquotes : quotes ∈ stringQuotes) (h : StringBody quotes body)
    (o : Nat) (rest : List Char) :
    afterString? quotes o (body ++ quotes ++ rest) =
      some ⟨o + byteLength (body ++ quotes), rest⟩ := by
  induction h generalizing o with
  | nil =>
    obtain ⟨q, -, rfl | rfl⟩ := exists_of_stringQuotes hquotes
    · simpa using afterString?_closed (o := o) (List.prefix_append [q] rest)
    · simpa using afterString?_closed (o := o) (List.prefix_append [q, q, q] rest)
  | @guarded y body _ ih =>
    have hnot : ¬ quotes <+: '\\' :: y :: (body ++ quotes ++ rest) :=
      not_prefix_of_stringQuotes hquotes (by decide)
    simp only [List.cons_append]
    rw [afterString?_guarded hnot, ih]
    simp [Nat.add_assoc]
  | @char x body hx hfree _ ih =>
    have hnot : ¬ quotes <+: x :: (body ++ quotes ++ rest) := by
      intro hbad
      refine hfree (List.prefix_of_prefix_length_le hbad ⟨rest, by simp⟩ ?_)
      simp only [List.length_cons, List.length_append]
      omega
    simp only [List.cons_append]
    rw [afterString?_char hnot hx, ih]
    simp [Nat.add_assoc]

end AfterString

/-- One quote is not taken for three, if what it opens ends where it ends. -/
theorem openingQuotes_of_body (hquotes : quotes ∈ stringQuotes) (hbody : StringBody quotes body)
    (hends : EndsBefore (quotes ++ body ++ quotes) c'.rest)
    (h : c.Passes (quotes ++ body ++ quotes) c') : openingQuotes c = quotes := by
  obtain ⟨q, hq, rfl | rfl⟩ := exists_of_stringQuotes hquotes
  · rw [openingQuotes_eq hq (by rw [Cursor.peek?, h.rest]; rfl), if_neg]
    rw [List.isPrefixOf_iff_prefix, h.rest]
    cases hbody with
    | nil =>
      -- two quotes: the third one would have to follow
      rintro ⟨more, hmore⟩
      refine hends q hq rfl ?_
      simp only [List.cons_append, List.nil_append, List.cons.injEq, true_and] at hmore
      rw [← hmore]
      rfl
    | guarded _ =>
      simp only [List.cons_append, List.nil_append, List.cons_prefix_cons, true_and]
      rintro ⟨rfl, -⟩
      exact absurd hq (by decide)
    | char _ hfree _ =>
      simp only [List.cons_append, List.nil_append, List.cons_prefix_cons, true_and]
      rintro ⟨rfl, -⟩
      exact hfree (by simp)
  · rw [openingQuotes_eq hq (by rw [Cursor.peek?, h.rest]; rfl), h.rest]
    simp

theorem stringLiteral_run (ht : IsStringLiteral t) (hends : EndsBefore t c'.rest)
    (h : c.Passes t c') :
    stringLiteral ⟨c, attempts⟩ = .ok (.leafOver .stringLiteral c.offset t, ⟨c', attempts⟩) := by
  obtain ⟨quotes, hquotes, body, hbody, rfl⟩ := ht
  have hopening := openingQuotes_of_body hquotes hbody hends h
  have hafter := afterString?_of_body hquotes hbody (c.offset + byteLength quotes) c'.rest
  have hrest : c.rest.drop quotes.length = body ++ quotes ++ c'.rest := by
    rw [h.rest]
    simp
  have hplace : (⟨c.offset + byteLength quotes + byteLength (body ++ quotes), c'.rest⟩ : Cursor) =
      c' := by
    refine Cursor.Passes.unique (t := quotes ++ body ++ quotes) ⟨h.rest, ?_⟩ h
    simp [Nat.add_assoc]
  unfold stringLiteral
  rw [cursor_bind]
  simp only [hopening, hrest, hafter, hplace, moveTo_bind, leafFrom_run, h.span]
  rfl

theorem plainText_run (h : c.Passes t c')
    (ht : ∀ x ∈ t, (!isMark x && !(stopAtColon && x == ':')) = true)
    (hhalts : Halts (fun x => !isMark x && !(stopAtColon && x == ':')) c'.rest) :
    plainText stopAtColon ⟨c, attempts⟩ = .ok (.leafOver .plain c.offset t, ⟨c', attempts⟩) := by
  unfold plainText
  simp only [offset_bind, skipWhile_bind, leafFrom_run, h.takeWhile ht hhalts, h.span]
  rfl

theorem contentText_run (h : c.Passes t c') (ht : ∀ x ∈ t, (!isContentMark x) = true)
    (hhalts : Halts (fun x => !isContentMark x) c'.rest) :
    contentText ⟨c, attempts⟩ = .ok (.leafOver .text c.offset t, ⟨c', attempts⟩) := by
  unfold contentText
  simp only [offset_bind, skipWhile_bind, leafFrom_run, h.takeWhile ht hhalts, h.span]
  rfl

end Leaves

/-! ## Elements, contents and expressions -/

/-- Under every bound on the depth that is large enough, a reader that reads all elements afresh
leads from one place to another and gives a result. -/
def Gives {α : Type} (p : Nat → Reader α) (c : Cursor) (a : α) (c' : Cursor) : Prop :=
  ∃ bound, ∀ depth, bound ≤ depth → p depth ⟨c, none⟩ = .ok (a, ⟨c', none⟩)

section Gives

variable {α : Type} {c c₁ c₂ c₃ c₄ c₅ c₆ c₇ : Cursor} {name : String}
  {leaf node value e closing : Node} {attrs nodes items : List Node} {stopAtColon : Bool}
  {opening quote x : Char} {keys values : List Node}

/-- It is enough to look at bounds that allow one more call. -/
theorem gives_of_succ {p : Nat → Reader α} {a : α} (bound : Nat)
    (h : ∀ depth, bound ≤ depth → p (depth + 1) ⟨c, none⟩ = .ok (a, ⟨c₁, none⟩)) :
    Gives p c a c₁ := by
  refine ⟨bound + 1, fun depth hdepth => ?_⟩
  obtain ⟨depth, rfl⟩ : ∃ k, depth = k + 1 := ⟨depth - 1, by omega⟩
  exact h depth (by omega)

theorem gives_selfClosing (hopen : c.Passes ['<'] c₁)
    (hname : tagName ⟨c₁.skipBlanks, none⟩ = .ok ((name, leaf), ⟨c₂, none⟩))
    (hattrs : Gives attributes c₂ attrs c₃) (hend : c₃.skipBlanks.Passes ['/', '>'] c₄) :
    Gives element c ⟨.selfClosing, ⟨c.offset, c₄.offset⟩, leaf :: attrs⟩ c₄ := by
  obtain ⟨bound, hattrs⟩ := hattrs
  refine gives_of_succ bound fun depth hdepth => ?_
  rw [element, offset_bind, bind_of_ok (expect_run hopen _), skipBlanks_bind, bind_of_ok hname]
  simp only
  rw [bind_of_ok (hattrs depth hdepth), skipBlanks_bind, consume_bind]
  simp only [hend.consume?, if_true, nodeFrom_run]

theorem gives_normal (hopen : c.Passes ['<'] c₁)
    (hname : tagName ⟨c₁.skipBlanks, none⟩ = .ok ((name, leaf), ⟨c₂, none⟩))
    (hattrs : Gives attributes c₂ attrs c₃) (hend : c₃.skipBlanks.Passes ['>'] c₄)
    (hitems : Gives contentItems c₄.skipBlanks items c₅)
    (hclose : closeTag name ⟨c.offset, c₄.offset⟩ ⟨c₅, none⟩ = .ok (closing, ⟨c₆, none⟩)) :
    Gives element c ⟨.normal, ⟨c.offset, c₆.offset⟩,
      [⟨.openTag, ⟨c.offset, c₄.offset⟩, leaf :: attrs⟩,
        ⟨.content, ⟨c₄.skipBlanks.offset, c₅.offset⟩, items⟩, closing]⟩ c₆ := by
  obtain ⟨bound, hattrs⟩ := hattrs
  obtain ⟨bound', hitems⟩ := hitems
  have hnot : c₃.skipBlanks.consume? ['/', '>'] = none := by
    rw [Cursor.consume?_eq_none_iff, hend.rest]
    simp
  refine gives_of_succ (max bound bound' + 1) fun depth hdepth => ?_
  rw [element, offset_bind, bind_of_ok (expect_run hopen _), skipBlanks_bind, bind_of_ok hname]
  simp only
  rw [bind_of_ok (hattrs depth (by omega)), skipBlanks_bind, consume_bind]
  simp only [hnot, Bool.false_eq_true, if_false]
  rw [bind_of_ok (expect_run hend _), nodeFrom_bind, skipBlanks_bind]
  obtain ⟨depth, rfl⟩ : ∃ k, depth = k + 1 := ⟨depth - 1, by omega⟩
  have hcontent : content (depth + 1) ⟨c₄.skipBlanks, none⟩ =
      .ok (⟨.content, ⟨c₄.skipBlanks.offset, c₅.offset⟩, items⟩, ⟨c₅, none⟩) := by
    rw [content, offset_bind, bind_of_ok (hitems depth (by omega)), nodeFrom_run]
  rw [bind_of_ok hcontent, bind_of_ok hclose, nodeFrom_run]

theorem gives_noAttributes (h : Halts Cursor.isNameStart c.skipBlanks.rest) :
    Gives attributes c [] c := by
  refine gives_of_succ 0 fun depth _ => ?_
  rw [attributes, cursor_bind, skipBlanks_bind, cursor_bind]
  simp only [Cursor.readName?_eq_none_iff.mpr h, moveTo_bind, pure_run]

theorem gives_attribute (hname : c.skipBlanks.readName? = some (t, c₁))
    (hequals : c₁.skipBlanks.Passes ['='] c₂) (hvalue : Gives attributeValue c₂.skipBlanks value c₃)
    (hattrs : Gives attributes c₃ attrs c₄) :
    Gives attributes c (⟨.attribute, ⟨c.skipBlanks.offset, c₃.offset⟩,
      [.leaf .attrName ⟨c.skipBlanks.offset, c₁.offset⟩, value]⟩ :: attrs) c₄ := by
  obtain ⟨bound, hvalue⟩ := hvalue
  obtain ⟨bound', hattrs⟩ := hattrs
  refine gives_of_succ (max bound bound') fun depth hdepth => ?_
  rw [attributes, cursor_bind, skipBlanks_bind, cursor_bind]
  simp only [hname, moveTo_bind, leafFrom_bind, skipBlanks_bind]
  rw [bind_of_ok (expect_run hequals _), skipBlanks_bind, bind_of_ok (hvalue depth (by omega)),
    nodeFrom_bind, bind_of_ok (hattrs depth (by omega)), pure_run]

/-! ### Expressions in brackets -/

theorem gives_expression (h : Gives (pieces · stopAtColon) c nodes c₁) :
    Gives (expression · stopAtColon) c ⟨.expr, ⟨c.offset, c₁.offset⟩, nodes⟩ c₁ := by
  obtain ⟨bound, h⟩ := h
  refine gives_of_succ bound fun depth hdepth => ?_
  rw [expression, offset_bind, bind_of_ok (h depth hdepth), nodeFrom_run]

theorem gives_delimited {closing : Char} (hopen : c.Passes [opening] c₁)
    (h : Gives (pieces · false) c₁ nodes c₂) (hclose : c₂.Passes [closing] c₃) :
    Gives (delimited · opening closing) c ⟨.expr, ⟨c₁.offset, c₂.offset⟩, nodes⟩ c₃ := by
  obtain ⟨bound, h⟩ := gives_expression h
  refine gives_of_succ bound fun depth hdepth => ?_
  rw [delimited, offset_bind, advance_bind]
  simp only [hopen.advance]
  rw [bind_of_ok (h depth hdepth), consume_bind]
  simp only [hclose.consume?, if_true, pure_run]

theorem gives_group {closing : Char} (rule : Rule)
    (h : Gives (delimited · opening closing) c e c₁) :
    Gives (group · rule opening closing) c ⟨rule, ⟨c.offset, c₁.offset⟩, [e]⟩ c₁ := by
  obtain ⟨bound, h⟩ := h
  refine gives_of_succ bound fun depth hdepth => ?_
  rw [group, offset_bind, bind_of_ok (h depth hdepth), nodeFrom_run]

section Shorthand

variable (hopen : c.Passes ['\x7b'] c₁) (hkey : Gives (pieces · true) c₁ keys c₂)

include hopen hkey

theorem gives_noColon (hcolon : ¬ [':'] <+: c₂.rest) : Gives dictShorthand c none c := by
  obtain ⟨bound, hkey⟩ := gives_expression hkey
  refine gives_of_succ bound fun depth hdepth => ?_
  rw [dictShorthand, cursor_bind, advance_bind]
  simp only [hopen.advance]
  rw [bind_of_ok (hkey depth hdepth), consume_bind]
  simp only [Cursor.consume?_eq_none_iff.mpr hcolon, Bool.false_eq_true, if_false, moveTo_bind,
    pure_run]

variable (hcolon : c₂.Passes [':'] c₃) (hvalue : Gives (pieces · false) c₃ values c₄)

include hcolon hvalue

/-- After the value the closing brace decides. -/
theorem gives_afterValue :
    Gives dictShorthand c
      ((c₄.consume? ['\x7d']).map fun c₅ => ⟨.dictShorthand, ⟨c.offset, c₅.offset⟩,
        [⟨.expr, ⟨c₁.offset, c₂.offset⟩, keys⟩, ⟨.expr, ⟨c₃.offset, c₄.offset⟩, values⟩]⟩)
      ((c₄.consume? ['\x7d']).getD c) := by
  obtain ⟨bound, hkey⟩ := gives_expression hkey
  obtain ⟨bound', hvalue⟩ := gives_expression hvalue
  refine gives_of_succ (max bound bound') fun depth hdepth => ?_
  rw [dictShorthand, cursor_bind, advance_bind]
  simp only [hopen.advance]
  rw [bind_of_ok (hkey depth (by omega)), consume_bind]
  simp only [hcolon.consume?, if_true]
  rw [bind_of_ok (hvalue depth (by omega)), consume_bind]
  cases c₄.consume? ['\x7d'] with
  | none | some => rfl

theorem gives_dictShorthand (hclose : c₄.Passes ['\x7d'] c₅) :
    Gives dictShorthand c (some ⟨.dictShorthand, ⟨c.offset, c₅.offset⟩,
      [⟨.expr, ⟨c₁.offset, c₂.offset⟩, keys⟩, ⟨.expr, ⟨c₃.offset, c₄.offset⟩, values⟩]⟩) c₅ := by
  have hgives := gives_afterValue hopen hkey hcolon hvalue
  rwa [hclose.consume?] at hgives

theorem gives_noBrace (hclose : ¬ ['\x7d'] <+: c₄.rest) : Gives dictShorthand c none c := by
  have hgives := gives_afterValue hopen hkey hcolon hvalue
  rwa [Cursor.consume?_eq_none_iff.mpr hclose] at hgives

end Shorthand

/-! ### Values of attributes -/

theorem gives_quoted (hquote : [quote] ∈ stringQuotes) (hpeek : c.peek? = some quote)
    (h : quotedLiteral quote ⟨c, none⟩ = .ok (node, ⟨c₁, none⟩)) :
    Gives attributeValue c node c₁ := by
  have hcases := eq_of_stringQuotes hquote
  refine gives_of_succ 0 fun depth _ => ?_
  rw [attributeValue, cursor_bind]
  rcases hcases with rfl | rfl <;> simpa only [hpeek] using h

theorem gives_dictValue (hpeek : c.peek? = some '\x7b') (h : Gives dictShorthand c (some node) c₁) :
    Gives attributeValue c node c₁ := by
  obtain ⟨bound, h⟩ := h
  refine gives_of_succ bound fun depth hdepth => ?_
  rw [attributeValue, cursor_bind]
  simp only [hpeek]
  rw [bind_of_ok (h depth hdepth)]
  rfl

theorem gives_exprValue (hpeek : c.peek? = some '\x7b') (hdict : Gives dictShorthand c none c)
    (h : Gives (delimited · '\x7b' '\x7d') c e c₁) :
    Gives attributeValue c ⟨.exprValue, ⟨c.offset, c₁.offset⟩, [e]⟩ c₁ := by
  obtain ⟨bound, hdict⟩ := hdict
  obtain ⟨bound', h⟩ := h
  refine gives_of_succ (max bound bound') fun depth hdepth => ?_
  rw [attributeValue, cursor_bind]
  simp only [hpeek]
  rw [bind_of_ok (hdict depth (by omega))]
  simp only
  rw [bind_of_ok (h depth (by omega)), nodeFrom_run]

theorem gives_exprListValue (hpeek : c.peek? = some '[') (h : Gives (delimited · '[' ']') c e c₁) :
    Gives attributeValue c ⟨.exprListValue, ⟨c.offset, c₁.offset⟩, [e]⟩ c₁ := by
  obtain ⟨bound, h⟩ := h
  refine gives_of_succ bound fun depth hdepth => ?_
  rw [attributeValue, cursor_bind]
  simp only [hpeek]
  rw [bind_of_ok (h depth hdepth), nodeFrom_run]

/-! ### Content -/

theorem gives_noItems (h : c.rest = [] ∨ ['<', '/'] <+: c.rest) : Gives contentItems c [] c := by
  have hstop : (c.atEnd || c.startsWith ['<', '/']) = true := by
    rcases h with h | h
    · simp [Cursor.atEnd, h]
    · simp [Cursor.startsWith, List.isPrefixOf_iff_prefix.mpr h]
  refine gives_of_succ 0 fun depth _ => ?_
  rw [contentItems, cursor_bind, if_pos hstop, pure_run]

theorem gives_items (hend : c.rest ≠ []) (hclose : ¬ ['<', '/'] <+: c.rest)
    (hitem : Gives contentItem c node c₁) (hitems : Gives contentItems c₁ items c₂) :
    Gives contentItems c (node :: items) c₂ := by
  have hgo : ¬ (c.atEnd || c.startsWith ['<', '/']) = true := by
    simpa [Cursor.atEnd, Cursor.startsWith, List.isPrefixOf_iff_prefix] using ⟨hend, hclose⟩
  obtain ⟨bound, hitem⟩ := hitem
  obtain ⟨bound', hitems⟩ := hitems
  refine gives_of_succ (max bound bound') fun depth hdepth => ?_
  rw [contentItems, cursor_bind, if_neg hgo, bind_of_ok (hitem depth (by omega)),
    bind_of_ok (hitems depth (by omega)), pure_run]

theorem gives_elementItem (hpeek : c.peek? = some '<') (h : Gives element c node c₁) :
    Gives contentItem c node c₁ := by
  obtain ⟨bound, h⟩ := h
  refine gives_of_succ bound fun depth hdepth => ?_
  rw [contentItem, cursor_bind]
  simp only [hpeek]
  exact h depth hdepth

theorem gives_contentExpr (hpeek : c.peek? = some '\x7b')
    (h : Gives (delimited · '\x7b' '\x7d') c e c₁) :
    Gives contentItem c ⟨.contentExpr, ⟨c.offset, c₁.offset⟩, [e]⟩ c₁ := by
  obtain ⟨bound, h⟩ := h
  refine gives_of_succ bound fun depth hdepth => ?_
  rw [contentItem, cursor_bind]
  simp only [hpeek]
  rw [bind_of_ok (h depth hdepth), nodeFrom_run]

theorem gives_contentExprList (hpeek : c.peek? = some '[')
    (h : Gives (delimited · '[' ']') c e c₁) :
    Gives contentItem c ⟨.contentExprList, ⟨c.offset, c₁.offset⟩, [e]⟩ c₁ := by
  obtain ⟨bound, h⟩ := h
  refine gives_of_succ bound fun depth hdepth => ?_
  rw [contentItem, cursor_bind]
  simp only [hpeek]
  rw [bind_of_ok (h depth hdepth), nodeFrom_run]

theorem gives_text (hpeek : c.peek? = some x) (hx : isContentMark x = false)
    (h : contentText ⟨c, none⟩ = .ok (node, ⟨c₁, none⟩)) : Gives contentItem c node c₁ := by
  simp only [isContentMark, Bool.or_eq_false_iff, beq_eq_false_iff_ne] at hx
  refine gives_of_succ 0 fun depth _ => ?_
  rw [contentItem, cursor_bind]
  dsimp only
  generalize c.peek? = ahead at hpeek ⊢
  split
  · exact absurd (Option.some.inj hpeek.symm) hx.1.1
  · exact absurd (Option.some.inj hpeek.symm) hx.1.2
  · exact absurd (Option.some.inj hpeek.symm) hx.2
  · exact h

/-! ### Pieces of expressions -/

theorem gives_noPieces
    (h : ∀ x, c.peek? = some x → (isCloser x || (stopAtColon && x == ':')) = true) :
    Gives (pieces · stopAtColon) c [] c := by
  refine gives_of_succ 0 fun depth _ => ?_
  rw [pieces, cursor_bind]
  cases hpeek : c.peek? with
  | none => rfl
  | some x =>
    simp only [h x hpeek, if_true]
    rfl

theorem gives_pieces (hpeek : c.peek? = some x)
    (hx : (isCloser x || (stopAtColon && x == ':')) = false)
    (hpiece : Gives (piece · stopAtColon) c node c₁)
    (hpieces : Gives (pieces · stopAtColon) c₁ nodes c₂) :
    Gives (pieces · stopAtColon) c (node :: nodes) c₂ := by
  obtain ⟨bound, hpiece⟩ := hpiece
  obtain ⟨bound', hpieces⟩ := hpieces
  refine gives_of_succ (max bound bound') fun depth hdepth => ?_
  rw [pieces, cursor_bind]
  simp only [hpeek, hx, Bool.false_eq_true, if_false]
  rw [bind_of_ok (hpiece depth (by omega)), bind_of_ok (hpieces depth (by omega)), pure_run]

theorem gives_string (hquote : [quote] ∈ stringQuotes) (hpeek : c.peek? = some quote)
    (h : stringLiteral ⟨c, none⟩ = .ok (node, ⟨c₁, none⟩)) :
    Gives (piece · stopAtColon) c node c₁ := by
  have hcases := eq_of_stringQuotes hquote
  refine gives_of_succ 0 fun depth _ => ?_
  rw [piece, cursor_bind]
  rcases hcases with rfl | rfl <;> simpa only [hpeek] using h

theorem gives_plain (hpeek : c.peek? = some x) (hx : isMark x = false)
    (h : plainText stopAtColon ⟨c, none⟩ = .ok (node, ⟨c₁, none⟩)) :
    Gives (piece · stopAtColon) c node c₁ := by
  simp only [isMark, Bool.or_eq_false_iff, beq_eq_false_iff_ne] at hx
  refine gives_of_succ 0 fun depth _ => ?_
  rw [piece, cursor_bind]
  dsimp only
  generalize c.peek? = ahead at hpeek ⊢
  split
  · exact absurd (Option.some.inj hpeek.symm) hx.1.2
  · exact absurd (Option.some.inj hpeek.symm) hx.2
  · exact absurd (Option.some.inj hpeek.symm) hx.1.1.1.1.2
  · exact absurd (Option.some.inj hpeek.symm) hx.1.1.1.2
  · exact absurd (Option.some.inj hpeek.symm) hx.1.1.2
  · exact h

theorem gives_nestedPiece (hpeek : c.peek? = some '(') (h : Gives nestedElement c (some node) c₁) :
    Gives (piece · stopAtColon) c node c₁ := by
  obtain ⟨bound, h⟩ := h
  refine gives_of_succ bound fun depth hdepth => ?_
  rw [piece, cursor_bind]
  simp only [hpeek]
  rw [bind_of_ok (h depth hdepth)]
  rfl

/-- Brackets in an expression. Parentheses count as such only if they hold no nested element. -/
theorem gives_groupPiece {rule : Rule} {closing : Char}
    (hgroup : (rule, opening, closing) ∈ groups) (hpeek : c.peek? = some opening)
    (hnested : opening = '(' → Gives nestedElement c none c)
    (h : Gives (group · rule opening closing) c node c₁) :
    Gives (piece · stopAtColon) c node c₁ := by
  obtain ⟨bound, h⟩ := h
  simp only [groups, List.mem_cons, Prod.mk.injEq, List.not_mem_nil, or_false] at hgroup
  rcases hgroup with ⟨rfl, rfl, rfl⟩ | ⟨rfl, rfl, rfl⟩ | ⟨rfl, rfl, rfl⟩
  · obtain ⟨bound', hnested⟩ := hnested rfl
    refine gives_of_succ (max bound bound') fun depth hdepth => ?_
    rw [piece, cursor_bind]
    simp only [hpeek]
    rw [bind_of_ok (hnested depth (by omega))]
    exact h depth (by omega)
  all_goals
    refine gives_of_succ bound fun depth hdepth => ?_
    rw [piece, cursor_bind]
    simp only [hpeek]
    exact h depth hdepth

/-! ### Nested elements -/

theorem elementAt_run {depth : Nat} (h : element depth ⟨c, none⟩ = .ok (e, ⟨c₁, none⟩)) :
    elementAt (depth + 1) c ⟨c, none⟩ = .ok ((e, c₁), ⟨c₁, none⟩) := by
  unfold elementAt
  rw [bind_of_ok (show remembered? c.offset ⟨c, none⟩ = .ok (none, ⟨c, none⟩) from rfl)]
  simp only
  rw [bind_of_ok (attempt_of_ok h)]
  rfl

theorem gives_noElement (hopen : c.Passes ['('] c₁) (hstart : ¬ ['<'] <+: c₁.skipBlanks.rest) :
    Gives nestedElement c none c := by
  refine gives_of_succ 0 fun depth _ => ?_
  rw [nestedElement, cursor_bind, advance_bind, skipBlanks_bind, cursor_bind]
  simp only [hopen.advance]
  rw [← List.isPrefixOf_iff_prefix] at hstart
  rw [Cursor.startsWith, if_neg hstart, moveTo_bind, pure_run]

section AfterElement

variable (hopen : c.Passes ['('] c₁) (h : Gives element c₁.skipBlanks e c₂)
  (hstart : ['<'] <+: c₁.skipBlanks.rest)

include hopen h hstart

/-- After an element the closing parenthesis decides. -/
theorem gives_afterElement :
    Gives nestedElement c
      ((c₂.skipBlanks.consume? [')']).map fun c₃ => ⟨.nestedElement, ⟨c.offset, c₃.offset⟩, [e]⟩)
      ((c₂.skipBlanks.consume? [')']).getD c) := by
  obtain ⟨bound, h⟩ := h
  refine gives_of_succ (bound + 1) fun depth hdepth => ?_
  obtain ⟨depth, rfl⟩ : ∃ k, depth = k + 1 := ⟨depth - 1, by omega⟩
  rw [nestedElement, cursor_bind, advance_bind, skipBlanks_bind, cursor_bind]
  simp only [hopen.advance]
  rw [Cursor.startsWith, if_pos (List.isPrefixOf_iff_prefix.mpr hstart),
    bind_of_ok (elementAt_run (h depth (by omega)))]
  simp only [moveTo_bind, skipBlanks_bind, consume_bind]
  cases c₂.skipBlanks.consume? [')'] with
  | none | some => rfl

theorem gives_nestedElement (hclose : c₂.skipBlanks.Passes [')'] c₃) :
    Gives nestedElement c (some ⟨.nestedElement, ⟨c.offset, c₃.offset⟩, [e]⟩) c₃ := by
  have hgives := gives_afterElement hopen h hstart
  rwa [hclose.consume?] at hgives

theorem gives_noParen (hclose : ¬ [')'] <+: c₂.skipBlanks.rest) :
    Gives nestedElement c none c := by
  have hgives := gives_afterElement hopen h hstart
  rwa [Cursor.consume?_eq_none_iff.mpr hclose] at hgives

end AfterElement

end Gives

end Reader

end ComponentMarkup
