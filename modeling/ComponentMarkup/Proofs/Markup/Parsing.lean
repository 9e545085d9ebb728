import ComponentMarkup.Proofs.Markup.Giving

/-!
# What is recognized is read

The reader gives the nodes of every part that is recognized. So a template is read exactly if it is
recognized as an element between blanks: `Node.parse_eq_ok_iff`.
-/

namespace ComponentMarkup

open Text (byteLength isBlank)

/-- The reader gives the nodes of a part. -/
def Sense.Given (c c' : Cursor) : Sense → Prop
  | .element node _ => Reader.Gives Reader.element c node c'
  | .attributes nodes _ => Reader.Gives Reader.attributes c nodes c'
  | .value node _ => Reader.Gives Reader.attributeValue c node c'
  | .items nodes _ => Reader.Gives Reader.contentItems c nodes c'
  | .item node _ => Reader.Gives Reader.contentItem c node c'
  | .pieces stopAtColon nodes _ => Reader.Gives (Reader.pieces · stopAtColon) c nodes c'
  | .piece stopAtColon node _ => Reader.Gives (Reader.piece · stopAtColon) c node c'
  | .noNested => Reader.Gives Reader.nestedElement c none c
  | .noDict => Reader.Gives Reader.dictShorthand c none c

section Steps

variable {c c' : Cursor}

/-- The front of a tag, up to its name. -/
theorem tagName_of_passes {w name : List Char} (hw : Blanks w) (hname : IsMarkupName name)
    (h : c.Passes ('<' :: w ++ name) c') (hhalts : Halts Cursor.isNameChar c'.rest) :
    ∃ c₁, c.Passes ['<'] c₁ ∧ Reader.tagName ⟨c₁.skipBlanks, none⟩ =
      .ok ((String.ofList name, .leafOver .tagName (c.offset + byteLength ('<' :: w)) name),
        ⟨c', none⟩) := by
  obtain ⟨c₂, hfront, htag⟩ := h.split
  obtain ⟨c₁, hopen, hblanks⟩ := Cursor.Passes.split (t := ['<']) hfront
  refine ⟨c₁, hopen, ?_⟩
  rw [hblanks.skipBlanks hw (by rw [htag.rest]; exact hname.halts_isBlank), ← hfront.offset]
  exact Reader.tagName_run htag hname hhalts

theorem closeTag_of_passes {u name u' : List Char} (hu : Blanks u) (hname : IsMarkupName name)
    (hu' : Blanks u') (h : c.Passes ('<' :: '/' :: u ++ name ++ u' ++ ['>']) c') (opened : Span) :
    Reader.closeTag (String.ofList name) opened ⟨c, none⟩ =
      .ok (⟨.closeTag, .over c.offset ('<' :: '/' :: u ++ name ++ u' ++ ['>']),
          [.leafOver .tagName (c.offset + byteLength ('<' :: '/' :: u)) name]⟩, ⟨c', none⟩) := by
  obtain ⟨c₄, hfront, hend⟩ := h.split
  obtain ⟨c₃, hfront, hblanks'⟩ := hfront.split
  obtain ⟨c₂, hfront, htag⟩ := hfront.split
  obtain ⟨c₁, hopen, hblanks⟩ := Cursor.Passes.split (t := ['<', '/']) hfront
  have hskip : c.skipBlanks = c :=
    Cursor.skipBlanks_of_halts (by rw [hopen.rest]; exact halts_cons.mpr (by decide))
  have hhalts : Halts Cursor.isNameChar c₃.rest := by
    rw [hblanks'.rest, hend.rest]
    exact hu'.halts_isNameChar (halts_cons.mpr (by decide))
  have hname' : Reader.tagName ⟨c₂, none⟩ = _ := Reader.tagName_run htag hname hhalts
  rw [← hblanks.skipBlanks hu (by rw [htag.rest]; exact hname.halts_isBlank)] at hname'
  have hend' : c₃.skipBlanks.Passes ['>'] c' := by
    rw [hblanks'.skipBlanks hu' (by rw [hend.rest]; exact halts_cons.mpr (by decide))]
    exact hend
  have hrun := Reader.closeTag_run opened (by rw [hskip]; exact hopen) hname' hend'
  rw [hrun, hskip, h.span, hblanks.skipBlanks hu (by rw [htag.rest]; exact hname.halts_isBlank),
    hfront.offset]

theorem gives_delimited_of_passes {opening closing : Char} (hsize : opening.utf8Size = 1)
    {t : List Char} {nodes : List Node} (h : c.Passes (opening :: t ++ [closing]) c')
    (hpieces : ∀ {c₁ c₂ : Cursor}, c₁.Passes t c₂ → c₁.offset = c.offset + 1 →
      c₂.rest = [closing] ++ c'.rest → Reader.Gives (Reader.pieces · false) c₁ nodes c₂) :
    Reader.Gives (Reader.delimited · opening closing) c (.exprOver (c.offset + 1) t nodes) c' := by
  obtain ⟨c₂, hfront, hclose⟩ := h.split
  obtain ⟨c₁, hopen, hinner⟩ := Cursor.Passes.split (t := [opening]) hfront
  have hplace : c₁.offset = c.offset + 1 := by
    rw [hopen.offset, Text.byteLength_cons, hsize]
    rfl
  have hgives := Reader.gives_delimited hopen (hpieces hinner hplace hclose.rest) hclose
  rw [hinner.span, hplace] at hgives
  exact hgives

theorem peek?_of_passes {x : Char} {t : List Char} (h : c.Passes (x :: t) c') :
    c.peek? = some x := by
  rw [Cursor.peek?, h.rest]
  rfl

end Steps

/-- A text that is recognized is read, and its nodes are those the reader gives. -/
theorem Recognizes.given {sense : Sense} {o : Nat} {t rest : List Char}
    (h : Recognizes sense o t rest) {c c' : Cursor} (hpass : c.Passes t c') (ho : c.offset = o)
    (hrest : c'.rest = rest) : sense.Given c c' := by
  induction h generalizing c c' with
  | @selfClosing o w name t w' attrs as text rest hw hname hhalts _ hw' htext ih =>
    subst ho hrest htext
    obtain ⟨c₄, hfront, hend⟩ := hpass.split
    obtain ⟨c₃, hfront, hblanks⟩ := hfront.split
    obtain ⟨c₂, hfront, hattrs⟩ := hfront.split
    have hnext : c₃.rest = w' ++ ['/', '>'] ++ c'.rest := by
      rw [hblanks.rest, hend.rest, List.append_assoc]
    have hhalts : Halts Cursor.isNameChar c₂.rest := by
      rw [hattrs.rest, hnext, List.append_assoc]
      exact hhalts.append (hw'.halts_isNameChar (halts_cons.mpr (by decide)))
    obtain ⟨c₁, hopen, htag⟩ := tagName_of_passes hw hname hfront hhalts
    have hend' : c₃.skipBlanks.Passes ['/', '>'] c' := by
      rw [hblanks.skipBlanks hw' (by rw [hend.rest]; exact halts_cons.mpr (by decide))]
      exact hend
    have hgives := Reader.gives_selfClosing hopen htag (ih hattrs hfront.offset hnext) hend'
    rw [hpass.span] at hgives
    exact hgives
  | @normal o w name t w' attrs as opening v body items contents u u' closing rest hw hname hhalts _
      hw' hopening hv hbody _ hu hu' hclosing ih₁ ih₂ =>
    subst ho hrest
    obtain ⟨c₆, hfront, hclose⟩ := hpass.split
    obtain ⟨c₅, hfront, hitems⟩ := hfront.split
    obtain ⟨c₄, htag, hblanks⟩ := hfront.split
    have hplace := hfront.offset
    have hclosePlace := (hfront.trans hitems).offset
    have hspan := htag.span
    subst hopening
    obtain ⟨c₃, hfront, hend⟩ := htag.split
    obtain ⟨c₂, hfront, hblanks'⟩ := hfront.split
    obtain ⟨c₁, hfront, hattrs⟩ := hfront.split
    have hnext : c₂.rest = w' ++ ['>'] ++ v ++ body ++ closing ++ c'.rest := by
      rw [hblanks'.rest, hend.rest, hblanks.rest, hitems.rest, hclose.rest]
      simp
    have hhalts : Halts Cursor.isNameChar c₁.rest := by
      rw [hattrs.rest, hblanks'.rest, hend.rest]
      exact hhalts.append (hw'.halts_isNameChar (halts_cons.mpr (by decide)))
    obtain ⟨c₀, hopen, hname'⟩ := tagName_of_passes hw hname hfront hhalts
    have hend' : c₂.skipBlanks.Passes ['>'] c₄ := by
      rw [hblanks'.skipBlanks hw' (by rw [hend.rest]; exact halts_cons.mpr (by decide))]
      exact hend
    have hbody : Halts isBlank c₅.rest := by
      rw [hitems.rest, hclose.rest, hclosing]
      exact hbody.append (halts_cons.mpr (by decide))
    have hskip := hblanks.skipBlanks hv hbody
    have hitems' := ih₂ hitems hplace hclose.rest
    have hclose' := closeTag_of_passes hu hname hu' (hclosing ▸ hclose) ⟨c.offset, c₄.offset⟩
    have hgives := Reader.gives_normal hopen hname' (ih₁ hattrs hfront.offset hnext) hend'
      (by rw [hskip]; exact hitems') hclose'
    rw [hskip, hitems.span, hplace, hspan, hpass.span, ← hclosing, hclosePlace, Nat.add_assoc,
      ← Text.byteLength_append] at hgives
    exact hgives
  | noAttributes hhalts =>
    subst hrest
    obtain rfl := (Cursor.Passes.refl c).unique hpass
    exact Reader.gives_noAttributes hhalts
  | @moreAttributes o w name u u' t node value text more attrs as rest hw hname hu hu' hvalue htext _
      ih₁ ih₂ =>
    subst ho hrest
    obtain ⟨c₅, hfront, hattrs⟩ := hpass.split
    have hplace := hfront.offset
    obtain ⟨c₀, hblanks, hattr⟩ := hfront.split
    have hspan := hattr.span
    rw [hblanks.offset] at hspan
    subst htext
    obtain ⟨c₄, hattr, hvalue'⟩ := hattr.split
    have hvaluePlace : c₄.offset = c.offset + byteLength (w ++ name ++ u ++ '=' :: u') := by
      have hwhole := (hblanks.trans hattr).offset
      simpa [List.append_assoc] using hwhole
    obtain ⟨c₂, hattr, hrest⟩ := hattr.split
    obtain ⟨c₃, hequals, hblanks'⟩ := Cursor.Passes.split (t := ['=']) hrest
    obtain ⟨c₁, htag, hblanks''⟩ := hattr.split
    have hhalts : Halts Cursor.isNameChar c₁.rest := by
      rw [hblanks''.rest, hequals.rest]
      exact hu.halts_isNameChar (halts_cons.mpr (by decide))
    have hskip₀ : c.skipBlanks = c₀ :=
      hblanks.skipBlanks hw (by rw [htag.rest]; exact hname.halts_isBlank)
    have hname' : c.skipBlanks.readName? = some (name, c₁) := by
      rw [hskip₀]
      exact htag.readName? hname hhalts
    have hequals' : c₁.skipBlanks.Passes ['='] c₃ := by
      rw [hblanks''.skipBlanks hu (by rw [hequals.rest]; exact halts_cons.mpr (by decide))]
      exact hequals
    have hskip : c₃.skipBlanks = c₄ := by
      refine hblanks'.skipBlanks hu' ?_
      rw [hvalue'.rest]
      exact hvalue.value_start _
    have hgives := Reader.gives_attribute hname' hequals'
      (by rw [hskip]; exact ih₁ hvalue' hvaluePlace hattrs.rest) (ih₂ hattrs hplace rfl)
    have hspan' := htag.span
    rw [hblanks.offset] at hspan'
    rw [hskip₀, hblanks.offset, hspan, hspan'] at hgives
    exact hgives
  | quoted hquote hbody =>
    subst ho
    exact Reader.gives_quoted hquote (peek?_of_passes hpass) (Reader.quotedLiteral_run hbody hpass)
  | @dict o key keys keyCells value values valueCells rest _ _ ih₁ ih₂ =>
    subst ho hrest
    obtain ⟨c₄, hfront, hclose⟩ := hpass.split
    obtain ⟨c₂, hfront, hback⟩ := hfront.split
    obtain ⟨c₃, hcolon, hvalue⟩ := Cursor.Passes.split (t := [':']) hback
    have hplace := (hfront.trans hcolon).offset
    obtain ⟨c₁, hopen, hkey⟩ := Cursor.Passes.split (t := ['\x7b']) hfront
    have hkeys := ih₁ hkey hopen.offset (by rw [hcolon.rest, hvalue.rest, hclose.rest]; simp)
    have hgives := Reader.gives_dictShorthand hopen hkeys hcolon (ih₂ hvalue hplace hclose.rest) hclose
    rw [hkey.span, hopen.offset, hvalue.span, hplace, hpass.span] at hgives
    exact Reader.gives_dictValue (peek?_of_passes hpass) hgives
  | @braces o t nodes cells rest _ _ ih₁ ih₂ =>
    subst ho hrest
    have hdict := ih₁ (.refl c) rfl hpass.rest
    have hgives := Reader.gives_exprValue (peek?_of_passes hpass) hdict
      (gives_delimited_of_passes rfl hpass ih₂)
    rw [hpass.span] at hgives
    exact hgives
  | @brackets o t nodes cells rest _ ih =>
    subst ho hrest
    have hgives := Reader.gives_exprListValue (peek?_of_passes hpass)
      (gives_delimited_of_passes rfl hpass ih)
    rw [hpass.span] at hgives
    exact hgives
  | noItems hend =>
    subst hrest
    obtain rfl := (Cursor.Passes.refl c).unique hpass
    exact Reader.gives_noItems hend
  | @items o t node item u nodes more rest hitem _ ih₁ ih₂ =>
    subst ho hrest
    obtain ⟨c₁, hfront, hback⟩ := hpass.split
    obtain ⟨hne, hclose⟩ := hitem.item_start
    refine Reader.gives_items ?_ ?_ (ih₁ hfront rfl hback.rest) (ih₂ hback hfront.offset rfl)
    · rw [hfront.rest]
      exact List.append_ne_nil_of_left_ne_nil hne _
    · rw [hfront.rest, hback.rest]
      exact hclose
  | @elementItem o t node e rest h ih =>
    obtain ⟨w, name, more, rfl, -, -⟩ := h.element_start
    exact Reader.gives_elementItem (peek?_of_passes hpass) (ih hpass ho hrest)
  | @braceItem o t nodes cells rest _ ih =>
    subst ho hrest
    have hgives := Reader.gives_contentExpr (peek?_of_passes hpass)
      (gives_delimited_of_passes rfl hpass ih)
    rw [hpass.span] at hgives
    exact hgives
  | @bracketItem o t nodes cells rest _ ih =>
    subst ho hrest
    have hgives := Reader.gives_contentExprList (peek?_of_passes hpass)
      (gives_delimited_of_passes rfl hpass ih)
    rw [hpass.span] at hgives
    exact hgives
  | @text o t rest hne ht hhalts =>
    subst ho hrest
    have hrun : Reader.contentText ⟨c, none⟩ = _ := Reader.contentText_run hpass ht hhalts
    obtain ⟨x, t, rfl⟩ := List.exists_cons_of_ne_nil hne
    refine Reader.gives_text (peek?_of_passes hpass) ?_ hrun
    simpa using ht x List.mem_cons_self
  | noPieces hend =>
    subst hrest
    obtain rfl := (Cursor.Passes.refl c).unique hpass
    exact Reader.gives_noPieces hend
  | @pieces o stopAtColon t node cells u nodes more rest hpiece _ ih₁ ih₂ =>
    subst ho hrest
    obtain ⟨c₁, hfront, hback⟩ := hpass.split
    obtain ⟨x, hx, hgo⟩ := hpiece.piece_start
    have hpeek : c.peek? = some x := by
      rw [Cursor.peek?, hfront.rest, List.head?_append, hx]
      rfl
    exact Reader.gives_pieces hpeek hgo (ih₁ hfront rfl hback.rest) (ih₂ hback hfront.offset rfl)
  | @string o stopAtColon t rest ht hends =>
    subst ho hrest
    have hrun : Reader.stringLiteral ⟨c, none⟩ = _ := Reader.stringLiteral_run ht hends hpass
    obtain ⟨quotes, hquotes, body, -, rfl⟩ := ht
    obtain ⟨q, hq, rfl | rfl⟩ := exists_of_stringQuotes hquotes
    · exact Reader.gives_string hq (peek?_of_passes hpass) hrun
    · exact Reader.gives_string hq (peek?_of_passes hpass) hrun
  | @plain o stopAtColon t rest hne ht hhalts =>
    subst ho hrest
    have hrun : Reader.plainText stopAtColon ⟨c, none⟩ = _ := Reader.plainText_run hpass ht hhalts
    obtain ⟨x, t, rfl⟩ := List.exists_cons_of_ne_nil hne
    refine Reader.gives_plain (peek?_of_passes hpass) ?_ hrun
    have hplain := ht x List.mem_cons_self
    simp only [isPlainChar, Bool.and_eq_true, Bool.not_eq_true'] at hplain
    exact hplain.1
  | @group o stopAtColon rule opening closing t nodes cells rest hgroup _ _ ih₁ ih₂ =>
    subst ho hrest
    have hgives := Reader.gives_group rule
      (gives_delimited_of_passes (utf8Size_of_group hgroup) hpass ih₂)
    rw [hpass.span] at hgives
    exact Reader.gives_groupPiece hgroup (peek?_of_passes hpass)
      (fun hparen => ih₁ hparen (.refl c) rfl hpass.rest) hgives
  | @nested o stopAtColon w t node e w' text rest hw h hw' htext ih =>
    subst ho hrest htext
    obtain ⟨c₄, hfront, hclose⟩ := hpass.split
    obtain ⟨c₃, hfront, hblanks'⟩ := hfront.split
    obtain ⟨c₂, hfront, hinner⟩ := hfront.split
    obtain ⟨c₁, hopen, hblanks⟩ := Cursor.Passes.split (t := ['(']) hfront
    have hnext : c₃.rest = w' ++ [')'] ++ c'.rest := by
      rw [hblanks'.rest, hclose.rest, List.append_assoc]
    have helement := ih hinner hfront.offset hnext
    obtain ⟨v, name, more, rfl, -, -⟩ := h.element_start
    have hskip : c₁.skipBlanks = c₂ :=
      hblanks.skipBlanks hw (by rw [hinner.rest]; exact halts_cons.mpr (by decide))
    have hskip' : c₃.skipBlanks = c₄ :=
      hblanks'.skipBlanks hw' (by rw [hclose.rest]; exact halts_cons.mpr (by decide))
    have hgives := Reader.gives_nestedElement hopen (by rw [hskip]; exact helement)
      (by rw [hskip, hinner.rest]; exact ⟨_, rfl⟩) (by rw [hskip']; exact hclose)
    rw [hpass.span] at hgives
    exact Reader.gives_nestedPiece (peek?_of_passes hpass) hgives
  | @noElement o w rest hw hhalts hstart =>
    obtain rfl := (Cursor.Passes.refl c).unique hpass
    have hfront : c.Passes ('(' :: w) ⟨c.offset + byteLength ('(' :: w), rest⟩ := ⟨hrest, rfl⟩
    obtain ⟨c₁, hopen, hblanks⟩ := Cursor.Passes.split (t := ['(']) hfront
    refine Reader.gives_noElement hopen ?_
    rw [hblanks.skipBlanks hw hhalts]
    exact hstart
  | @noParen o w t node e w' rest hw h hw' hhalts hclose ih =>
    subst ho
    obtain rfl := (Cursor.Passes.refl c).unique hpass
    have hwhole : c.Passes ('(' :: w ++ t ++ w')
        ⟨c.offset + byteLength ('(' :: w ++ t ++ w'), rest⟩ := ⟨hrest, rfl⟩
    obtain ⟨c₃, hfront, hblanks'⟩ := hwhole.split
    obtain ⟨c₂, hfront, hinner⟩ := hfront.split
    obtain ⟨c₁, hopen, hblanks⟩ := Cursor.Passes.split (t := ['(']) hfront
    have helement := ih hinner hfront.offset hblanks'.rest
    obtain ⟨v, name, more, rfl, -, -⟩ := h.element_start
    have hskip : c₁.skipBlanks = c₂ :=
      hblanks.skipBlanks hw (by rw [hinner.rest]; exact halts_cons.mpr (by decide))
    refine Reader.gives_noParen hopen (by rw [hskip]; exact helement)
      (by rw [hskip, hinner.rest]; exact ⟨_, rfl⟩) ?_
    rw [hblanks'.skipBlanks hw' hhalts]
    exact hclose
  | @noColon o key keys cells rest _ hcolon ih =>
    subst ho
    obtain rfl := (Cursor.Passes.refl c).unique hpass
    have hfront : c.Passes ('\x7b' :: key) ⟨c.offset + byteLength ('\x7b' :: key), rest⟩ :=
      ⟨hrest, rfl⟩
    obtain ⟨c₁, hopen, hkey⟩ := Cursor.Passes.split (t := ['\x7b']) hfront
    exact Reader.gives_noColon hopen (ih hkey hopen.offset rfl) hcolon
  | @noBrace o key keys keyCells value values valueCells rest _ _ hclose ih₁ ih₂ =>
    subst ho
    obtain rfl := (Cursor.Passes.refl c).unique hpass
    have hwhole : c.Passes ('\x7b' :: key ++ ':' :: value)
        ⟨c.offset + byteLength ('\x7b' :: key ++ ':' :: value), rest⟩ := ⟨hrest, rfl⟩
    obtain ⟨c₂, hfront, hback⟩ := hwhole.split
    obtain ⟨c₃, hcolon, hvalue⟩ := Cursor.Passes.split (t := [':']) hback
    have hplace := (hfront.trans hcolon).offset
    obtain ⟨c₁, hopen, hkey⟩ := Cursor.Passes.split (t := ['\x7b']) hfront
    have hkeys := ih₁ hkey hopen.offset hback.rest
    exact Reader.gives_noBrace hopen hkeys hcolon (ih₂ hvalue hplace rfl) hclose

/-- A template is read exactly if it is recognized as an element between blanks. -/
theorem Node.parse_eq_ok_iff {template : List Char} {tree : Node} :
    Node.parse template = .ok tree ↔ ∃ v t v' node e, template = v ++ t ++ v' ∧ Blanks v ∧ Blanks v' ∧
      tree = ⟨.document, .over 0 template, [node]⟩ ∧
      Recognizes (.element node e) (byteLength v) t v' := by
  refine ⟨Node.recognizes_of_parse, ?_⟩
  rintro ⟨v, t, v', node, e, rfl, hv, hv', rfl, he⟩
  let template := v ++ t ++ v'
  obtain ⟨w, name, more, ht, -, -⟩ := he.element_start
  have hfront : (Cursor.ofText template).Passes v ⟨byteLength v, t ++ v'⟩ :=
    ⟨List.append_assoc v t v', (Nat.zero_add _).symm⟩
  have hpass : Cursor.Passes ⟨byteLength v, t ++ v'⟩ t ⟨byteLength v + byteLength t, v'⟩ := ⟨rfl, rfl⟩
  have hback : Cursor.Passes ⟨byteLength v + byteLength t, v'⟩ v'
      ⟨byteLength v + byteLength t + byteLength v', []⟩ := ⟨(List.append_nil v').symm, rfl⟩
  obtain ⟨bound, hgives⟩ := he.given hpass rfl rfl
  rw [Node.parse_eq_run' (Nat.le_max_left _ bound), run'_eq_ok]
  refine ⟨⟨⟨byteLength v + byteLength t + byteLength v', []⟩, none⟩, ?_⟩
  unfold Reader.document
  rw [Reader.cursor_bind, Reader.skipBlanks_bind]
  simp only
  rw [hfront.skipBlanks hv (by rw [ht]; exact halts_cons.mpr (by decide)),
    bind_of_ok (hgives _ (Nat.le_max_right _ _)), Reader.skipBlanks_bind, Reader.cursor_bind]
  simp only
  rw [hback.skipBlanks hv' halts_nil]
  rfl

end ComponentMarkup
