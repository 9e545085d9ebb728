import ComponentMarkup.Proofs.Element.Writing

/-!
# Written elements are read back

Expressions are read back from their text, since reading their skeletons is turned into reading the
text. From there the elements around them are read back, inside out, and reading what was written for a
canonical element gives the element back, places apart.
-/

namespace ComponentMarkup

open Text (byteLength isBlank)

variable {source : EmbeddedExpr}

/-! ## Expressions -/

section Expressions

variable {cells : List (Cell Char Element)} {nodes : List Node} {stopAtColon : Bool}

theorem skeleton_eq_nil {α : Type} {cells : List (Cell Char α)} (h : skeleton cells = []) : cells = [] := by
  cases cells with
  | nil => rfl
  | cons cell rest => cases cell <;> cases h

theorem ScansAs.recognizes (h : ScansAs cells nodes) :
    ∃ ks, Recognizes (.pieces false nodes ks) 0 (skeleton cells) [] := by
  obtain ⟨depth, s, hrun, hrest⟩ := h.consumed
  have hfine : Fine (skeleton cells) (fun nodes => Reader.Found (.pieces false nodes) _)
      (Reader.pieces depth false ⟨.ofText (skeleton cells), none⟩) :=
    ((Reader.readsAt (skeleton cells) depth depth).pieces ⟨[], rfl, rfl⟩).fine
  rw [hrun] at hfine
  cases hfine with
  | @ok _ c hfound =>
    obtain ⟨ks, t, hpass, hks⟩ := hfound
    have htext : skeleton cells = t ++ c.rest := hpass.rest
    have hend : c.rest = [] := hrest
    rw [hend, List.append_nil] at htext
    rw [hend] at hks
    exact ⟨ks, htext ▸ hks⟩

/-- Pieces without a colon are also read if a colon would end them. -/
theorem Recognizes.stopping_at_colon {ks : List SourceCell} {p t rest : List Char}
    (h : Recognizes (.pieces false nodes ks) (byteLength p) t rest)
    (hcolon : ∀ node ∈ nodes, node.rule = .plain → ':' ∉ node.span.slice (p ++ t ++ rest)) :
    Recognizes (.pieces true nodes ks) (byteLength p) t rest := by
  generalize hsense : Sense.pieces false nodes ks = sense at h
  generalize ho : byteLength p = o at h
  induction h generalizing nodes ks p with
  | noPieces hend =>
    cases hsense
    refine .noPieces fun x hx => endsPieces_of_isCloser ?_
    simpa [endsPieces] using hend x hx
  | @pieces o _ t node ks u nodes' more rest hpiece _ _ ih =>
    cases hsense
    subst ho
    have hmore := @ih nodes' more (p ++ t)
      (fun node hnode hrule => by simpa using hcolon node (List.mem_cons_of_mem _ hnode) hrule) rfl
      (Text.byteLength_append p t)
    refine .pieces ?_ hmore
    cases hpiece with
    | string ht hends => exact .string ht hends
    | plain hne ht hhalts =>
      have hfree : ':' ∉ t := by
        have hslice := hcolon _ List.mem_cons_self rfl
        rw [List.append_assoc p, List.append_assoc t, ← List.append_assoc p] at hslice
        rw [← Span.slice_over p t (u ++ rest)]
        exact hslice
      refine .plain hne (fun c hc => ?_) fun c hc => ?_
      · have hc' : c ≠ ':' := by
          rintro rfl
          exact hfree hc
        have hplain := ht c hc
        simp only [isPlainChar, Bool.false_and, Bool.not_false, Bool.and_true] at hplain
        simp [isPlainChar, hplain, hc']
      · have hplain := hhalts c hc
        simp only [isPlainChar, Bool.false_and, Bool.not_false, Bool.and_true] at hplain
        simp [isPlainChar, hplain]
    | group hgroup hnested hinner => exact .group hgroup hnested hinner
    | nested hw helement hw' htext => exact .nested hw helement hw' htext
  | _ => cases hsense

/-- Cells whose skeleton is read in full are read back. -/
theorem Recognizes.readBack {ks : List SourceCell}
    (h : Recognizes (.pieces stopAtColon nodes ks) 0 (skeleton cells) [])
    (houtside : ∀ span ∈ Node.stringsOfAll nodes, ∀ hole ∈ holes 0 cells,
      span.containsOffset hole = false)
    (hguarded : Guarded cells) (hread : ∀ e, .gap e ∈ cells → e.ReadBack) {tail : List Char}
    (htail : EndsExpr tail) (o : Nat) :
    ∃ nodes', Recognizes (.pieces stopAtColon nodes' (cells.map Cell.readBack)) o (writtenCells cells)
      tail := by
  obtain ⟨front, back, rfl, -, hback, hfill⟩ := h.filled (List.append_nil _).symm hguarded houtside hread
  obtain rfl := skeleton_eq_nil hback
  rw [List.append_nil]
  exact hfill htail o

end Expressions

section Segments

variable {segments : List Segment}

theorem Segment.writtenAll_eq (segments : List Segment) :
    writtenAll segments = writtenCells (segments.flatMap cells) := by
  induction segments with
  | nil => rfl
  | cons s rest ih =>
    obtain ⟨text, span, _ | e⟩ := s
    · rw [writtenAll, ih, List.flatMap_cons, writtenCells_append]
      exact congrArg (· ++ _) (writtenCells_own text).symm
    · rw [writtenAll, ih]
      rfl

theorem Segment.ofCells_own (run text : List Char) (more : List SourceCell) :
    ofCells run (text.map .own ++ more) = ofCells (run ++ text) more := by
  induction text generalizing run with
  | nil => rw [List.append_nil]; rfl
  | cons c text ih =>
    have hnext := ih (run ++ [c])
    rw [List.append_assoc] at hnext
    exact hnext

theorem Segment.ofRun_eq {run : List Char} (h : run ≠ []) : ofRun run = [⟨run, .empty 0, none⟩] :=
  if_neg h

/-- Segments that can be told apart are put together again. -/
theorem Segment.ofCells_readBack (hall : AllCanonical segments)
    (hapart : segments.IsChain fun s s' => s.element.isSome ∨ s'.element.isSome)
    (hfull : ∀ s ∈ segments, s.element = none → s.text ≠ []) :
    ofCells [] ((segments.flatMap cells).map Cell.readBack) = unplacedAll segments := by
  induction segments with
  | nil => rfl
  | cons s rest ih =>
    have hapart' : rest.IsChain fun s s' => s.element.isSome ∨ s'.element.isSome := hapart.of_cons
    have hfull' : ∀ s ∈ rest, s.element = none → s.text ≠ [] := fun s hs =>
      hfull s (List.mem_cons_of_mem _ hs)
    obtain ⟨text, span, _ | e⟩ := s
    · have hrest := ih hall hapart' hfull'
      have htext : text ≠ [] := hfull _ List.mem_cons_self rfl
      rw [List.flatMap_cons, List.map_append, unplacedAll, ← hrest]
      change ofCells [] ((text.map .own).map Cell.readBack ++ _) = _
      rw [map_readBack_own, ofCells_own, List.nil_append]
      cases rest with
      | nil => exact ofRun_eq htext
      | cons s' rest =>
        obtain ⟨text', span', _ | e'⟩ := s'
        · obtain ⟨hsome | hsome, -⟩ := List.isChain_cons_cons.mp hapart <;> cases hsome
        · exact congrArg (· ++ _) (ofRun_eq htext)
    · obtain ⟨htext, -, hall⟩ := hall
      rw [unplacedAll, htext, ← ih hall hapart' hfull']
      rfl

theorem EmbeddedExpr.Canonical.ofCells_readBack (h : source.Canonical) :
    EmbeddedExpr.ofCells (source.cells.map Cell.readBack) = source.unplaced := by
  obtain ⟨span, segments⟩ := source
  obtain ⟨hall, hseparate, -, -⟩ := h
  by_cases hempty : ∃ s ∈ segments, s.element = none ∧ s.text = []
  · -- the whole expression is empty
    obtain ⟨⟨text, place, element⟩, hs, rfl, rfl⟩ := hempty
    obtain hne | rfl := hseparate.full _ hs rfl
    · exact absurd rfl hne
    · rfl
  · have hcells : Segment.ofCells [] ((segments.flatMap Segment.cells).map Cell.readBack) = _ :=
      Segment.ofCells_readBack hall hseparate.apart fun s hs hraw htext => hempty ⟨s, hs, hraw, htext⟩
    rw [EmbeddedExpr.unplaced, ← hcells, EmbeddedExpr.ofCells, EmbeddedExpr.cells]
    split
    · next hnil =>
      rw [hnil] at hcells
      obtain ⟨⟨text, place, _ | e⟩, rest, rfl⟩ := List.exists_cons_of_ne_nil hseparate.ne_nil <;> cases hcells
    · rfl

end Segments

/-! ## Reading back -/

/-- The source of an expression is read back between brackets, if its nested elements are. -/
theorem EmbeddedExpr.Canonical.recognizes_written (h : source.Canonical)
    (hread : ∀ e, .gap e ∈ source.cells → e.ReadBack) {tail : List Char} (htail : EndsExpr tail)
    (o : Nat) :
    ∃ nodes, Recognizes (.pieces false nodes (source.cells.map Cell.readBack)) o source.written tail := by
  obtain ⟨span, segments⟩ := source
  obtain ⟨-, -, hguarded, nodes, hscans⟩ := h
  obtain ⟨ks, hks⟩ := hscans.recognizes
  rw [EmbeddedExpr.written, Segment.writtenAll_eq]
  exact hks.readBack hscans.outside hguarded hread htail o

theorem endsExpr_cons (c : Char) (tail : List Char) (hc : Reader.isCloser c = true) :
    EndsExpr (c :: tail) := by
  intro x hx
  cases hx
  exact hc

/-- Without a colon, what stands between braces is not taken for a key and a value. -/
theorem EmbeddedExpr.Canonical.noDict (h : source.Canonical) (hcolon : ColonFree source.cells)
    (hread : ∀ e, .gap e ∈ source.cells → e.ReadBack) (o : Nat) (rest : List Char) :
    Recognizes .noDict o [] ('\x7b' :: source.written ++ ['\x7d'] ++ rest) := by
  obtain ⟨nodes, hscans, hfree⟩ := hcolon
  obtain ⟨ks, hks⟩ := hscans.recognizes
  have hstop : Recognizes (.pieces true nodes ks) 0 (skeleton source.cells) [] :=
    Recognizes.stopping_at_colon (p := []) hks (by simpa using hfree)
  obtain ⟨span, segments⟩ := source
  obtain ⟨-, -, hguarded, -⟩ := h
  obtain ⟨nodes', hnodes⟩ := hstop.readBack hscans.outside hguarded hread
    (endsExpr_cons '\x7d' rest rfl) (o + 1)
  rw [EmbeddedExpr.written, Segment.writtenAll_eq, List.append_assoc]
  refine .noColon hnodes fun hpre => ?_
  exact absurd (List.cons_prefix_cons.mp hpre).1 (by decide)

theorem quoteFor_not_mem {text : List Char} (h : '"' ∉ text ∨ '\'' ∉ text) : quoteFor text ∉ text := by
  rw [quoteFor]
  split
  · next hmem => exact h.resolve_left fun hnot => hnot hmem
  · next hmem => exact hmem

theorem quoteFor_mem_stringQuotes (text : List Char) : [quoteFor text] ∈ stringQuotes := by
  rw [quoteFor]
  split <;> decide

theorem Attribute.halts_writtenAll (attrs : List Attribute) :
    Halts Cursor.isNameChar (writtenAll attrs) := by
  cases attrs with
  | nil => exact halts_nil
  | cons attr rest =>
    obtain ⟨name, value, span⟩ := attr
    exact halts_cons.mpr (by decide)

/-- An item that is no text begins with a mark. -/
theorem ContentItem.head_written {item : ContentItem} (h : ∀ text, item ≠ .literal text) :
    ∃ c more, item.written = c :: more ∧ Reader.isContentMark c = true ∧ isBlank c = false := by
  cases item with
  | literal text => exact absurd rfl (h text)
  | element e =>
    obtain ⟨tag, attrs, _ | items, span⟩ := e
    · exact ⟨'<', _, rfl, by decide, by decide⟩
    · exact ⟨'<', _, rfl, by decide, by decide⟩
  | expr source => exact ⟨'\x7b', _, rfl, by decide, by decide⟩
  | spread source => exact ⟨'[', _, rfl, by decide, by decide⟩

/-- What follows an item that is text, if items can be told apart. -/
theorem ContentItem.halts_writtenAll {rest : List Char}
    (h : ∀ item text, items.head? = some item → item ≠ .literal text) (hrest : ['<', '/'] <+: rest) :
    Halts (fun c => !Reader.isContentMark c) (writtenAll items ++ rest) := by
  cases items with
  | nil =>
    obtain ⟨more, rfl⟩ := hrest
    exact halts_cons.mpr (by decide)
  | cons item items =>
    obtain ⟨c, more, hwritten, hmark, -⟩ := head_written fun text => h item text rfl
    rw [writtenAll, hwritten]
    exact halts_cons.mpr (by simp [hmark])

namespace ContentItem

variable {items : List ContentItem}

theorem Separate.halts_writtenAll (h : Separate items) (hall : AllCanonical items) :
    Halts isBlank (ContentItem.writtenAll items) := by
  cases items with
  | nil => exact halts_nil
  | cons item rest =>
    by_cases hliteral : ∃ text, item = .literal text
    · obtain ⟨text, rfl⟩ := hliteral
      have hhalts : Halts isBlank text.toList := h.first text rfl
      obtain ⟨c, t, htext⟩ := List.exists_cons_of_ne_nil hall.1.1
      rw [ContentItem.writtenAll, ContentItem.written, htext]
      rw [htext] at hhalts
      exact halts_cons.mpr (halts_cons.mp hhalts)
    · obtain ⟨c, more, hwritten, -, hblank⟩ := head_written fun text heq => hliteral ⟨text, heq⟩
      rw [ContentItem.writtenAll, hwritten]
      exact halts_cons.mpr hblank

theorem Separate.trimContent_eq (h : Separate items) (hall : AllCanonical items) :
    Reduction.trimContent (unplacedAll items) = unplacedAll items := by
  have hlast := h.last
  clear h
  induction items with
  | nil => rfl
  | cons item rest ih =>
    obtain ⟨hitem, hrest⟩ := hall
    cases rest with
    | nil =>
      cases item with
      | literal text =>
        have hend := List.getLast?_eq_some_getLast hitem.1
        exact Reduction.trimContent_keeps hend (hlast text _ rfl hend)
      | element e => rfl
      | expr source => rfl
      | spread source => rfl
    | cons next rest =>
      have hne : unplacedAll (next :: rest) ≠ [] := List.cons_ne_nil _ _
      rw [unplacedAll, Reduction.trimContent_cons hne,
        ih hrest fun text c hget => hlast text c (by rw [List.getLast?_cons_cons]; exact hget)]

end ContentItem

mutual

/-- A canonical element is read back from what is written, wherever it stands. -/
theorem Element.readBack (e : Element) (h : e.Canonical) : e.ReadBack := by
  intro o rest
  match e, h with
  | ⟨tag, attrs, none, span⟩, ⟨hname, hattrs⟩ =>
    obtain ⟨nodes, hnodes⟩ := Attribute.readBackAll attrs hattrs (o + byteLength ('<' :: [] ++ tag.toList))
      ([] ++ ['/', '>'] ++ rest) (halts_cons.mpr (by decide))
    have helement := Recognizes.selfClosing blanks_nil hname (Attribute.halts_writtenAll attrs) hnodes
      blanks_nil rfl
    have htext : '<' :: [] ++ tag.toList ++ Attribute.writtenAll attrs ++ [] ++ ['/', '>'] =
        Element.written ⟨tag, attrs, none, span⟩ := by simp [Element.written]
    rw [String.ofList_toList, htext] at helement
    exact ⟨_, helement⟩
  | ⟨tag, attrs, some items, span⟩, ⟨hname, hattrs, hitems, hseparate⟩ =>
    let opening := '<' :: [] ++ tag.toList ++ Attribute.writtenAll attrs ++ [] ++ ['>']
    let closing := '<' :: '/' :: [] ++ tag.toList ++ [] ++ ['>']
    obtain ⟨nodes, hnodes⟩ := Attribute.readBackAll attrs hattrs (o + byteLength ('<' :: [] ++ tag.toList))
      ([] ++ ['>'] ++ [] ++ ContentItem.writtenAll items ++ closing ++ rest) (halts_cons.mpr (by decide))
    obtain ⟨nodes', hnodes'⟩ := ContentItem.readBackAll items hitems hseparate.apart
      (o + byteLength (opening ++ [])) (closing ++ rest) ⟨_, rfl⟩
    have helement := Recognizes.normal blanks_nil hname (Attribute.halts_writtenAll attrs) hnodes
      blanks_nil rfl blanks_nil (hseparate.halts_writtenAll hitems) hnodes' blanks_nil blanks_nil rfl
    have htext : opening ++ [] ++ ContentItem.writtenAll items ++ closing =
        Element.written ⟨tag, attrs, some items, span⟩ := by simp [Element.written, opening, closing]
    rw [String.ofList_toList, hseparate.trimContent_eq hitems, htext] at helement
    exact ⟨_, helement⟩

theorem Attribute.readBackAll (attrs : List Attribute) (h : Attribute.AllCanonical attrs) (o : Nat)
    (rest : List Char) (hrest : Halts Cursor.isNameStart (rest.dropWhile isBlank)) :
    ∃ nodes, Recognizes (.attributes nodes (Attribute.unplacedAll attrs)) o (Attribute.writtenAll attrs)
      rest := by
  match attrs, h with
  | [], _ => exact ⟨_, .noAttributes hrest⟩
  | ⟨name, value, span⟩ :: more, ⟨hname, hvalue, hmore⟩ =>
    obtain ⟨node, hnode⟩ := AttributeValue.readBack value hvalue
      (o + byteLength ([' '] ++ name.toList ++ [] ++ '=' :: [])) (Attribute.writtenAll more ++ rest)
    obtain ⟨nodes, hnodes⟩ := Attribute.readBackAll more hmore
      (o + byteLength ([' '] ++ (name.toList ++ [] ++ '=' :: [] ++ value.written))) rest hrest
    have hblank : Blanks [' '] := List.all_eq_true.mp rfl
    have hattrs := Recognizes.moreAttributes hblank hname blanks_nil blanks_nil hnode rfl hnodes
    have htext : [' '] ++ (name.toList ++ [] ++ '=' :: [] ++ value.written) ++ Attribute.writtenAll more =
        Attribute.writtenAll (⟨name, value, span⟩ :: more) := by simp [Attribute.writtenAll]
    rw [String.ofList_toList, htext] at hattrs
    exact ⟨_, hattrs⟩

theorem AttributeValue.readBack (value : AttributeValue) (h : value.Canonical) (o : Nat)
    (rest : List Char) : ∃ node, Recognizes (.value node value.unplaced) o value.written rest := by
  match value, h with
  | .literal text, h =>
    have hvalue : Recognizes _ o _ rest :=
      .quoted (quoteFor_mem_stringQuotes text.toList) (quoteFor_not_mem h)
    rw [String.ofList_toList] at hvalue
    exact ⟨_, hvalue⟩
  | .expr source, ⟨h, hcolon⟩ =>
    have hread := EmbeddedExpr.readBackNested source h
    obtain ⟨nodes, hnodes⟩ := h.recognizes_written hread (endsExpr_cons '\x7d' rest rfl) (o + 1)
    have hvalue := Recognizes.braces (h.noDict hcolon hread o rest) hnodes
    rw [h.ofCells_readBack] at hvalue
    exact ⟨_, hvalue⟩
  | .spread source, h =>
    have hread := EmbeddedExpr.readBackNested source h
    obtain ⟨nodes, hnodes⟩ := h.recognizes_written hread (endsExpr_cons ']' rest rfl) (o + 1)
    have hvalue := Recognizes.brackets hnodes
    rw [h.ofCells_readBack] at hvalue
    exact ⟨_, hvalue⟩

theorem ContentItem.readBackAll (items : List ContentItem) (h : ContentItem.AllCanonical items)
    (hapart : items.IsChain fun i j => ∀ text text', ¬ (i = .literal text ∧ j = .literal text'))
    (o : Nat) (rest : List Char) (hrest : ['<', '/'] <+: rest) :
    ∃ nodes, Recognizes (.items nodes (ContentItem.unplacedAll items)) o (ContentItem.writtenAll items)
      rest := by
  match items, h with
  | [], _ => exact ⟨_, .noItems (.inr hrest)⟩
  | item :: more, ⟨hitem, hmore⟩ =>
    obtain ⟨nodes, hnodes⟩ := ContentItem.readBackAll more hmore hapart.of_cons (o + byteLength item.written)
      rest hrest
    obtain ⟨node, hnode⟩ := ContentItem.readBack item hitem o (ContentItem.writtenAll more ++ rest)
      fun text htext => ContentItem.halts_writtenAll (fun next text' hnext heq => by
        obtain ⟨more', rfl⟩ := List.head?_eq_some_iff.mp hnext
        exact (List.isChain_cons_cons.mp hapart).1 text text' ⟨htext, heq⟩) hrest
    exact ⟨_, .items hnode hnodes⟩

theorem ContentItem.readBack (item : ContentItem) (h : item.Canonical) (o : Nat) (rest : List Char)
    (hrest : ∀ text, item = .literal text → Halts (fun c => !Reader.isContentMark c) rest) :
    ∃ node, Recognizes (.item node item.unplaced) o item.written rest := by
  match item, h with
  | .element e, h =>
    obtain ⟨node, hnode⟩ := Element.readBack e h o rest
    exact ⟨node, .elementItem hnode⟩
  | .literal text, ⟨hne, hmarks⟩ =>
    have hitem : Recognizes _ o text.toList rest :=
      .text hne (fun c hc => by rw [hmarks c hc]; rfl) (hrest text rfl)
    rw [String.ofList_toList] at hitem
    exact ⟨_, hitem⟩
  | .expr source, h =>
    have hread := EmbeddedExpr.readBackNested source h
    obtain ⟨nodes, hnodes⟩ := h.recognizes_written hread (endsExpr_cons '\x7d' rest rfl) (o + 1)
    have hitem := Recognizes.braceItem hnodes
    rw [h.ofCells_readBack] at hitem
    exact ⟨_, hitem⟩
  | .spread source, h =>
    have hread := EmbeddedExpr.readBackNested source h
    obtain ⟨nodes, hnodes⟩ := h.recognizes_written hread (endsExpr_cons ']' rest rfl) (o + 1)
    have hitem := Recognizes.bracketItem hnodes
    rw [h.ofCells_readBack] at hitem
    exact ⟨_, hitem⟩

theorem EmbeddedExpr.readBackNested (source : EmbeddedExpr) (h : source.Canonical) :
    ∀ e, .gap e ∈ source.cells → e.ReadBack := by
  match source, h with
  | ⟨span, segments⟩, ⟨hall, _⟩ => exact Segment.readBackNested segments hall

theorem Segment.readBackNested (segments : List Segment) (h : Segment.AllCanonical segments) :
    ∀ e, .gap e ∈ segments.flatMap Segment.cells → e.ReadBack := by
  match segments, h with
  | [], _ => exact fun e he => absurd he List.not_mem_nil
  | ⟨text, span, none⟩ :: rest, h =>
    intro e he
    obtain he | he := List.mem_append.mp he
    · obtain ⟨c, -, hc⟩ := List.mem_map.mp he
      cases hc
    · exact Segment.readBackNested rest h e he
  | ⟨text, span, some e⟩ :: rest, ⟨_, helement, h⟩ =>
    intro e' he'
    obtain heq | he' := List.mem_cons.mp he'
    · cases heq
      exact Element.readBack e helement
    · exact Segment.readBackNested rest h e' he'

end

/-- A canonical element that is written out as markup is read back, places apart. -/
theorem Element.ofNode_written {e : Element} (h : e.Canonical) :
    ∃ tree x, Node.parse e.written = .ok tree ∧ Element.ofNode e.written tree = .ok x ∧
      x.unplaced = e.unplaced := by
  obtain ⟨node, hnode⟩ := Element.readBack e h (byteLength []) []
  obtain ⟨tree, x, hparse, hx, hplain⟩ := Element.exists_of_recognizes blanks_nil blanks_nil hnode
  rw [List.nil_append, List.append_nil] at hparse hx
  exact ⟨tree, x, hparse, hx, hplain⟩

/-- A nested element beside a parenthesis in quotes, text, and an empty expression. -/
theorem Element.ofNode_written_nested :
    ∃ e : Element, e.Canonical ∧ e.written = "<p a=\x7bf('(', (<b/>))\x7d>t[]</p>".toList ∧
      ∃ tree x, Node.parse e.written = .ok tree ∧ Element.ofNode e.written tree = .ok x ∧
        x.unplaced = e.unplaced := by
  let inner : Element := ⟨"b", [], none, .empty 0⟩
  let segments : List Segment := [⟨"f('(', ".toList, .empty 0, none⟩,
    ⟨"(<b/>)".toList, .empty 0, some inner⟩, ⟨[')'], .empty 0, none⟩]
  let items : List ContentItem := [.literal "t", .spread ⟨.empty 0, [⟨[], .empty 0, none⟩]⟩]
  have hname : ∀ c : Char, c.isAlpha = true → IsMarkupName [c] := by
    intro c hc
    refine ⟨⟨c, rfl, hc⟩, fun d hd => ?_⟩
    obtain rfl := List.mem_singleton.mp hd
    simp [Cursor.isNameChar, Char.isAlphanum, hc]
  have hguarded : ∀ cells : List (Cell Char Element), .own '<' ∉ cells → Guarded cells :=
    fun cells hcells w _ hpart => hcells (hpart.subset (by simp))
  have hfree : ColonFree (segments.flatMap Segment.cells) := by
    refine ⟨?nodes, ⟨⟨40, ?state, ?read, ?rest⟩, ?outside⟩, ?colon⟩
    case read => cbv; rfl
    case rest => rfl
    case outside => decide
    case colon => decide
  have hsegments : EmbeddedExpr.Canonical ⟨.empty 0, segments⟩ := by
    obtain ⟨nodes, hscans, -⟩ := hfree
    refine ⟨⟨rfl, ⟨hname 'b' rfl, trivial⟩, trivial⟩, ⟨List.cons_ne_nil _ _, ?_, ?_⟩, hguarded _ ?_,
      nodes, hscans⟩
    · simp [segments]
    · simp [segments]
    · simp [segments, Segment.cells]
  have hempty : EmbeddedExpr.Canonical ⟨.empty 0, [⟨[], .empty 0, none⟩]⟩ :=
    ⟨trivial, ⟨List.cons_ne_nil _ _, .singleton _, fun s hs _ => .inr (by rw [List.mem_singleton.mp hs])⟩,
      hguarded _ List.not_mem_nil, [], ⟨1, _, rfl, rfl⟩, fun _ hspan => absurd hspan List.not_mem_nil⟩
  have hitems : ContentItem.Separate items := by
    refine ⟨?_, ?_, ?_⟩
    · simp [items]
    · simp [items, Halts]
      decide
    · simp [items]
  have hcanonical : Element.Canonical
      ⟨"p", [⟨"a", .expr ⟨.empty 0, segments⟩, .empty 0⟩], some items, .empty 0⟩ :=
    ⟨hname 'p' rfl, ⟨hname 'a' rfl, ⟨hsegments, hfree⟩, trivial⟩,
      ⟨⟨List.cons_ne_nil _ _, List.forall_mem_singleton.mpr rfl⟩, hempty, trivial⟩, hitems⟩
  exact ⟨_, hcanonical, rfl, Element.ofNode_written hcanonical⟩

end ComponentMarkup
