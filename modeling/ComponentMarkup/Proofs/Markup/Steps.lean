import ComponentMarkup.Proofs.Element.Recognition
import ComponentMarkup.Proofs.Markup.Places
import ComponentMarkup.Proofs.Running

/-!
# Steps of reading

What the simple readers of markup do. Two runs are looked at together, one that remembers elements and
one that reads all of them afresh:

- what is read afresh is recognized, and an error points at what its fault is about;
- both runs give the same, as long as their bounds on the depth cover the text ahead. What is remembered
  was read under some such bound, and is what would be read under any other.
-/

namespace ComponentMarkup

open Text (byteLength isBlank)

/-! ## Two ways of reading -/

/-- What is remembered is what reading afresh gives, with any bound that covers the text ahead. -/
def Trusted (template : List Char) (attempts : Option (List (Nat × Attempt))) : Prop :=
  ∀ o attempt, attempts.bind (List.lookup o) = some attempt →
    ∃ c : Cursor, c.IsIn template ∧ c.offset = o ∧
      ∀ depth, 8 * c.rest.length + 1 ≤ depth →
        Reader.element depth ⟨c, none⟩ = attempt.map fun r => (r.1, ⟨r.2, none⟩)

/-- What was read under a bound that covers the text ahead can be remembered. -/
theorem Trusted.remember {template : List Char} {c : Cursor} {attempts : Option (List (Nat × Attempt))}
    {attempt : Attempt} (htrusted : Trusted template attempts) (hc : c.IsIn template)
    (hread : ∀ depth, 8 * c.rest.length + 1 ≤ depth →
      Reader.element depth ⟨c, none⟩ = attempt.map fun r => (r.1, ⟨r.2, none⟩)) :
    Trusted template (attempts.map ((c.offset, attempt) :: ·)) := by
  intro o known hlookup
  obtain ⟨entries, hentries, hlookup⟩ := Option.bind_eq_some_iff.mp hlookup
  obtain ⟨earlier, hearlier, rfl⟩ := Option.map_eq_some_iff.mp hentries
  by_cases ho : o = c.offset
  · subst ho
    rw [List.lookup_cons_self] at hlookup
    cases hlookup
    exact ⟨c, hc, rfl, hread⟩
  · have hne : (o == c.offset) = false := beq_false_of_ne ho
    rw [List.lookup_cons, hne] at hlookup
    apply htrusted o known
    rw [hearlier]
    exact hlookup

section Reads

variable {α β : Type} {r : Except MarkupError (α × ReaderState)}

/-- Reading afresh gives a result with a property, or an error that fits the template. -/
inductive Fine (template : List Char) (P : α → Cursor → Prop) :
    Except MarkupError (α × ReaderState) → Prop where
  | ok {a c} : P a c → Fine template P (.ok (a, ⟨c, none⟩))
  | error {e} : e.Fits template → Fine template P (.error e)

/-- Two outcomes agree, of which the second is that of reading afresh. -/
inductive SameOutcome (template : List Char) :
    Except MarkupError (α × ReaderState) → Except MarkupError (α × ReaderState) → Prop where
  | ok {a s} : Trusted template s.attempts → SameOutcome template (.ok (a, s)) (.ok (a, ⟨s.cursor, none⟩))
  | error {e} : SameOutcome template (.error e) (.error e)

theorem SameOutcome.eq_ok {template : List Char} {a : α} {s : ReaderState}
    (h : SameOutcome template (.ok (a, s)) r) :
    r = .ok (a, ⟨s.cursor, none⟩) ∧ Trusted template s.attempts := by
  cases h with
  | ok htrusted => exact ⟨rfl, htrusted⟩

theorem SameOutcome.eq_error {template : List Char} {e : MarkupError}
    (h : SameOutcome template (.error e) r) : r = .error e := by
  cases h
  rfl

theorem SameOutcome.run'_eq {template : List Char} {p q : Reader α} {s s' : ReaderState}
    (h : SameOutcome template (p s) (q s')) : p.run' s = q.run' s' := by
  change Except.map (·.1) (p s) = Except.map (·.1) (q s')
  generalize p s = r at h
  generalize q s' = r' at h
  cases h <;> rfl

/-- From a place, the second reader gives a result with a property, or fails in a way that fits the
template. If the text ahead is covered, then the first one gives the same, whatever it remembers. -/
structure Reads (template : List Char) (covered : Prop) (c : Cursor) (P : α → Cursor → Prop)
    (p q : Reader α) : Prop where
  fine : Fine template P (q ⟨c, none⟩)
  same : covered → ∀ attempts, Trusted template attempts →
    SameOutcome template (p ⟨c, attempts⟩) (q ⟨c, none⟩)

variable {template : List Char} {covered covered' : Prop} {c : Cursor} {P : α → Cursor → Prop}
  {Q : β → Cursor → Prop} {p p' q : Reader α} {f g : α → Reader β}

theorem Reads.bind (h : Reads template covered' c P p q) (hcovered : covered → covered')
    (hnext : ∀ a c', P a c' → Reads template covered c' Q (f a) (g a)) :
    Reads template covered c Q (p >>= f) (q >>= g) := by
  have hfine := h.fine
  constructor
  · change Fine template Q (q ⟨c, none⟩ >>= fun r => g r.1 r.2)
    generalize q ⟨c, none⟩ = r at hfine
    cases hfine with
    | ok ha => exact (hnext _ _ ha).fine
    | error he => exact .error he
  · intro hc attempts htrusted
    have hsame := h.same (hcovered hc) attempts htrusted
    change SameOutcome template (p ⟨c, attempts⟩ >>= fun r => f r.1 r.2)
      (q ⟨c, none⟩ >>= fun r => g r.1 r.2)
    generalize p ⟨c, attempts⟩ = r at hsame
    generalize q ⟨c, none⟩ = r' at hsame hfine
    cases hsame with
    | error => exact .error
    | @ok a s htrusted' =>
      cases hfine with
      | ok ha => exact (hnext _ _ ha).same hc s.attempts htrusted'

theorem Reads.imp {P' : α → Cursor → Prop} (h : Reads template covered' c P p q)
    (hcovered : covered → covered') (himp : ∀ a c', P a c' → P' a c') :
    Reads template covered c P' p q := by
  have hfine := h.fine
  refine ⟨?_, fun hc => h.same (hcovered hc)⟩
  generalize q ⟨c, none⟩ = r at hfine
  cases hfine with
  | ok ha => exact .ok (himp _ _ ha)
  | error he => exact .error he

/-- If the text ahead is not covered, then only reading afresh matters. -/
theorem Reads.uncovered (h : Reads template covered c P p q) (hnot : ¬ covered') :
    Reads template covered' c P p' q :=
  ⟨h.fine, fun hc => absurd hc hnot⟩

end Reads

namespace Reader

/-! ## Single steps -/

section Steps

variable {α : Type} {template text : List Char} {covered : Prop} {c : Cursor}
  {P : α → Cursor → Prop} {need : MarkupNeed} {rule : Rule} {start : Nat} {children : List Node}

theorem reads_pure {a : α} (h : P a c) : Reads template covered c P (pure a) (pure a) :=
  ⟨.ok h, fun _ _ htrusted => .ok htrusted⟩

theorem reads_fail {fault : MarkupFault} {span : Span} (h : MarkupError.Fits template ⟨fault, span⟩) :
    Reads template covered c P (fail fault span) (fail fault span) :=
  ⟨.error h, fun _ _ _ => .error⟩

theorem reads_expected (hc : c.IsIn template) :
    Reads template covered c P (expected need) (expected need) :=
  ⟨.error hc.fits_here, fun _ _ _ => .error⟩

theorem reads_leafFrom {P : Node → Cursor → Prop} (h : P (.leaf rule ⟨start, c.offset⟩) c) :
    Reads template covered c P (leafFrom rule start) (leafFrom rule start) :=
  ⟨.ok h, fun _ _ htrusted => .ok htrusted⟩

theorem reads_nodeFrom {P : Node → Cursor → Prop} (h : P ⟨rule, ⟨start, c.offset⟩, children⟩ c) :
    Reads template covered c P (nodeFrom rule start children) (nodeFrom rule start children) :=
  ⟨.ok h, fun _ _ htrusted => .ok htrusted⟩

theorem reads_cursor_bind {f g : Cursor → Reader α} (h : Reads template covered c P (f c) (g c)) :
    Reads template covered c P (cursor >>= f) (cursor >>= g) :=
  ⟨h.fine, h.same⟩

theorem reads_offset_bind {f g : Nat → Reader α}
    (h : Reads template covered c P (f c.offset) (g c.offset)) :
    Reads template covered c P (offset >>= f) (offset >>= g) :=
  ⟨h.fine, h.same⟩

theorem reads_spanFrom_bind {f g : Span → Reader α}
    (h : Reads template covered c P (f ⟨start, c.offset⟩) (g ⟨start, c.offset⟩)) :
    Reads template covered c P (spanFrom start >>= f) (spanFrom start >>= g) :=
  ⟨h.fine, h.same⟩

theorem reads_leafFrom_bind {f g : Node → Reader α}
    (h : Reads template covered c P (f (.leaf rule ⟨start, c.offset⟩))
      (g (.leaf rule ⟨start, c.offset⟩))) :
    Reads template covered c P (leafFrom rule start >>= f) (leafFrom rule start >>= g) :=
  ⟨h.fine, h.same⟩

theorem reads_nodeFrom_bind {f g : Node → Reader α}
    (h : Reads template covered c P (f ⟨rule, ⟨start, c.offset⟩, children⟩)
      (g ⟨rule, ⟨start, c.offset⟩, children⟩)) :
    Reads template covered c P (nodeFrom rule start children >>= f)
      (nodeFrom rule start children >>= g) :=
  ⟨h.fine, h.same⟩

variable {f g : Unit → Reader α}

theorem reads_moveTo_bind {c' : Cursor} (h : Reads template covered c' P (f ()) (g ())) :
    Reads template covered c P (moveTo c' >>= f) (moveTo c' >>= g) :=
  ⟨h.fine, h.same⟩

theorem reads_skipBlanks_bind (h : Reads template covered c.skipBlanks P (f ()) (g ())) :
    Reads template covered c P (skipBlanks >>= f) (skipBlanks >>= g) :=
  ⟨h.fine, h.same⟩

theorem reads_advance_bind (h : Reads template covered c.advance P (f ()) (g ())) :
    Reads template covered c P (advance >>= f) (advance >>= g) :=
  ⟨h.fine, h.same⟩

theorem reads_skipWhile_bind {p : Char → Bool}
    (h : Reads template covered (c.takeWhile p).2 P (f ()) (g ())) :
    Reads template covered c P (skipWhile p >>= f) (skipWhile p >>= g) :=
  ⟨h.fine, h.same⟩

/-- The given characters come next and are passed over, or they do not come next. -/
theorem reads_consume_bind {f g : Bool → Reader α}
    (htrue : ∀ c', c.Passes text c' → Reads template covered c' P (f true) (g true))
    (hfalse : ¬ text <+: c.rest → Reads template covered c P (f false) (g false)) :
    Reads template covered c P (consume text >>= f) (consume text >>= g) := by
  have hconsume : Reads template covered c (fun found c' => (found = true ∧ c.Passes text c') ∨
      (found = false ∧ c' = c ∧ ¬ text <+: c.rest)) (consume text) (consume text) := by
    unfold consume
    refine reads_cursor_bind ?_
    cases hnext : c.consume? text with
    | some c' => exact reads_moveTo_bind (reads_pure (.inl ⟨rfl, Cursor.passes_consume? hnext⟩))
    | none => exact reads_pure (.inr ⟨rfl, rfl, Cursor.consume?_eq_none_iff.mp hnext⟩)
  refine hconsume.bind id ?_
  rintro _ c' (⟨rfl, hpass⟩ | ⟨rfl, rfl, hnot⟩)
  · exact htrue c' hpass
  · exact hfalse hnot

theorem reads_if_consume {p₁ p₂ q₁ q₂ : Reader α}
    (htrue : ∀ c', c.Passes text c' → Reads template covered c' P p₁ q₁)
    (hfalse : ¬ text <+: c.rest → Reads template covered c P p₂ q₂) :
    Reads template covered c P (do if ← consume text then p₁ else p₂)
      (do if ← consume text then q₁ else q₂) :=
  reads_consume_bind htrue hfalse

theorem reads_expect_bind (hc : c.IsIn template)
    (h : ∀ c', c.Passes text c' → Reads template covered c' P (f ()) (g ())) :
    Reads template covered c P (expect text need >>= f) (expect text need >>= g) := by
  have hexpect : Reads template covered c (fun _ c' => c.Passes text c') (expect text need)
      (expect text need) :=
    reads_consume_bind (fun _ hpass => reads_pure hpass) fun _ => reads_expected hc
  exact hexpect.bind id fun _ c' hpass => h c' hpass

end Steps

/-! ## Tags and literals -/

/-- The text between two places is recognized in some sense. -/
def Found {σ : Type} (sense : σ → Sense) (c c' : Cursor) : Prop :=
  ∃ m t, c.Passes t c' ∧ Recognizes (sense m) c.offset t c'.rest

section Leaves

variable {template : List Char} {covered : Prop} {c : Cursor} {quote x : Char}
  {stopAtColon : Bool}

theorem reads_tagName (hc : c.IsIn template) :
    Reads template covered c (fun found c' => ∃ name, c.Passes name c' ∧ IsMarkupName name ∧
      Halts Cursor.isNameChar c'.rest ∧
      found = (String.ofList name, .leafOver .tagName c.offset name)) tagName tagName := by
  unfold tagName
  refine reads_offset_bind (reads_cursor_bind ?_)
  cases hname : c.readName? with
  | none => exact reads_expected hc
  | some found =>
    obtain ⟨name, c'⟩ := found
    obtain ⟨hmarkup, hpass⟩ := Cursor.passes_readName? hname
    refine reads_moveTo_bind (reads_leafFrom_bind (reads_pure ?_))
    refine ⟨name, hpass, hmarkup, Cursor.halts_of_readName? hname, ?_⟩
    rw [hpass.span]
    rfl

/-- If a close tag is missing, then the error points at the open tag. If it is another one, then it
points at this one. -/
theorem reads_closeTag {name : List Char} {opened : Span} (hc : c.IsIn template)
    (hskip : c.skipBlanks = c)
    (hopened : MarkupError.Fits template ⟨.unclosedTag (String.ofList name), opened⟩) :
    Reads template covered c (fun node c' => ∃ u u' closing, Blanks u ∧ Blanks u' ∧
        closing = '<' :: '/' :: u ++ name ++ u' ++ ['>'] ∧ c.Passes closing c' ∧
        node = ⟨.closeTag, .over c.offset closing,
          [.leafOver .tagName (c.offset + byteLength ('<' :: '/' :: u)) name]⟩)
      (closeTag (String.ofList name) opened) (closeTag (String.ofList name) opened) := by
  unfold closeTag
  refine reads_skipBlanks_bind ?_
  rw [hskip]
  refine reads_offset_bind (reads_consume_bind (fun c₁ hopen => ?_) fun _ => ?_)
  · simp only [if_true]
    refine reads_skipBlanks_bind ?_
    obtain ⟨u, hu, hblanks⟩ := c₁.passes_skipBlanks
    have hplace : c.Passes ('<' :: '/' :: u) c₁.skipBlanks := hopen.trans hblanks
    refine (reads_tagName (hc.passes hplace)).bind id ?_
    rintro _ c₂ ⟨closing, htag, -, -, rfl⟩
    refine reads_skipBlanks_bind ?_
    obtain ⟨u', hu', hblanks'⟩ := c₂.passes_skipBlanks
    have hfront := (hplace.trans htag).trans hblanks'
    refine reads_expect_bind (hc.passes hfront) fun c₃ hend => reads_spanFrom_bind ?_
    have hwhole := hfront.trans hend
    split
    · next hsame =>
      obtain rfl : closing = name := String.ofList_inj.mp hsame
      refine reads_pure ⟨u, u', _, hu, hu', rfl, hwhole, ?_⟩
      rw [hwhole.span, hplace.offset]
    · next hne =>
      refine reads_fail (hc.fits hwhole ⟨Ne.symm hne, u, u', hu, hu', ?_⟩)
      rw [String.toList_ofList]
  · simp only [Bool.false_eq_true, if_false]
    refine reads_cursor_bind ?_
    split
    · exact ⟨.error hopened, fun _ _ _ => .error⟩
    · exact ⟨.error hc.fits_here, fun _ _ _ => .error⟩

theorem reads_quotedLiteral (hc : c.IsIn template) (hquote : [quote] ∈ stringQuotes)
    (hpeek : c.peek? = some quote) :
    Reads template covered c (fun node => Found (.value node) c) (quotedLiteral quote)
      (quotedLiteral quote) := by
  unfold quotedLiteral
  refine reads_offset_bind (reads_advance_bind (reads_skipWhile_bind ?_))
  have hfront := (Cursor.passes_advance hpeek).trans (c.advance.passes_takeWhile (· != quote))
  refine reads_if_consume (fun c₁ hclose => reads_leafFrom ?_) fun hnot => ?_
  · have hpass := hfront.trans hclose
    rw [hpass.span]
    refine ⟨_, _, hpass, .quoted hquote fun hmem => ?_⟩
    have hne := mem_takeWhile hmem
    simp at hne
  · -- a run without the quote ends at the quote, or at the end of the template
    have hend : (c.advance.takeWhile (· != quote)).2.rest = [] := by
      have hhalts : Halts (· != quote) (c.advance.takeWhile (· != quote)).2.rest :=
        halts_dropWhile _ _
      cases hrest : (c.advance.takeWhile (· != quote)).2.rest with
      | nil => rfl
      | cons x more =>
        rw [hrest, halts_cons] at hhalts
        obtain rfl : x = quote := by simpa using hhalts
        exact absurd ⟨more, hrest.symm⟩ hnot
    exact reads_spanFrom_bind (reads_fail (hc.fits hfront ⟨hend, quote, hquote, rfl⟩))

/-- Where a string literal ends: the quotes do not occur before, unguarded. -/
theorem of_afterString? {quotes : List Char} {o : Nat} {text : List Char}
    (h : afterString? quotes o text = some c) :
    ∃ body, StringBody quotes body ∧ (⟨o, text⟩ : Cursor).Passes (body ++ quotes) c := by
  fun_induction afterString? quotes o text with
  | case1 => cases h
  | case2 o x rest hbegins =>
    cases h
    have hbegins : quotes <+: x :: rest := List.isPrefixOf_iff_prefix.mp hbegins
    exact ⟨[], .nil, (List.prefix_iff_eq_append.mp hbegins).symm, rfl⟩
  | case3 => cases h
  | case4 o y rest hbegins ih =>
    obtain ⟨body, hbody, hpass⟩ := ih h
    refine ⟨'\\' :: y :: body, .guarded hbody, ?_, ?_⟩
    · simpa using hpass.rest
    · have hoffset := hpass.offset
      simp only [List.cons_append, Text.byteLength_cons] at hoffset ⊢
      omega
  | case5 o x rest hbegins hx ih =>
    obtain ⟨body, hbody, hpass⟩ := ih h
    have hrest : rest = body ++ quotes ++ c.rest := hpass.rest
    have hfree : ¬ quotes <+: x :: (body ++ quotes) := by
      intro hbad
      apply hbegins
      rw [List.isPrefixOf_iff_prefix, hrest]
      exact hbad.trans (List.prefix_append _ _)
    refine ⟨x :: body, .char hx hfree hbody, ?_, ?_⟩
    · simpa using hrest
    · have hoffset := hpass.offset
      simp only [List.cons_append, Text.byteLength_cons] at hoffset ⊢
      omega

/-- Three quotes of a kind are taken before one. -/
theorem openingQuotes_eq (hquote : [quote] ∈ stringQuotes) (hpeek : c.peek? = some quote) :
    openingQuotes c =
      if [quote, quote, quote].isPrefixOf c.rest then [quote, quote, quote] else [quote] := by
  obtain ⟨rest, hrest⟩ : ∃ rest, c.rest = quote :: rest := List.head?_eq_some_iff.mp hpeek
  rcases eq_of_stringQuotes hquote with rfl | rfl <;>
    simp [openingQuotes, Cursor.startsWith, hrest]

theorem openingQuotes_prefix (hquote : [quote] ∈ stringQuotes) (hpeek : c.peek? = some quote) :
    openingQuotes c ∈ stringQuotes ∧ openingQuotes c <+: c.rest := by
  rw [openingQuotes_eq hquote hpeek]
  split
  · next htriple =>
    refine ⟨?_, List.isPrefixOf_iff_prefix.mp htriple⟩
    rcases eq_of_stringQuotes hquote with rfl | rfl <;> decide
  · obtain ⟨rest, hrest⟩ := List.head?_eq_some_iff.mp hpeek
    exact ⟨hquote, rest, hrest.symm⟩

theorem reads_stringLiteral (hc : c.IsIn template) (hquote : [quote] ∈ stringQuotes)
    (hpeek : c.peek? = some quote) :
    Reads template covered c (fun node => Found (.piece stopAtColon node) c) stringLiteral
      stringLiteral := by
  unfold stringLiteral
  refine reads_cursor_bind ?_
  dsimp only
  obtain ⟨hmem, hopens⟩ := openingQuotes_prefix hquote hpeek
  split
  · next c₁ hafter =>
    obtain ⟨inner, hinner, hclose⟩ := of_afterString? hafter
    have hopen : c.Passes (openingQuotes c) ⟨c.offset + byteLength (openingQuotes c),
        c.rest.drop (openingQuotes c).length⟩ := ⟨(List.prefix_iff_eq_append.mp hopens).symm, rfl⟩
    have hwhole := hopen.trans hclose
    rw [← List.append_assoc] at hwhole
    refine reads_moveTo_bind (reads_leafFrom ?_)
    rw [hwhole.span]
    refine ⟨_, _, hwhole, .string ⟨_, hmem, inner, hinner, rfl⟩ ?_⟩
    -- two quotes and a third one would have been read as three
    intro other _ htwo hthird
    obtain ⟨rest, hrest⟩ := List.head?_eq_some_iff.mp hthird
    have htext : c.rest = other :: other :: other :: rest := by
      rw [hwhole.rest, htwo, hrest]
      rfl
    have hother : quote = other := by
      rw [Cursor.peek?, htext] at hpeek
      exact (Option.some.inj hpeek).symm
    have htriple : openingQuotes c = [quote, quote, quote] := by
      rw [openingQuotes_eq hquote hpeek, if_pos]
      simp [htext, hother]
    rw [htriple] at htwo
    simp at htwo
  · exact reads_fail (hc.fits_rest ⟨rfl, quote, hquote, hpeek⟩)

theorem reads_plainText (hpeek : c.peek? = some x) (hx : isPlainChar stopAtColon x = true) :
    Reads template covered c (fun node => Found (.piece stopAtColon node) c) (plainText stopAtColon)
      (plainText stopAtColon) := by
  unfold plainText
  refine reads_offset_bind (reads_skipWhile_bind (reads_leafFrom ?_))
  have hpass := c.passes_takeWhile (isPlainChar stopAtColon)
  obtain ⟨rest, hrest⟩ := List.head?_eq_some_iff.mp hpeek
  change Found (.piece stopAtColon (.leaf .plain ⟨c.offset,
    (c.takeWhile (isPlainChar stopAtColon)).2.offset⟩)) c (c.takeWhile (isPlainChar stopAtColon)).2
  rw [hpass.span]
  exact ⟨_, _, hpass, .plain (by simp [hrest, hx]) (fun _ => mem_takeWhile) (halts_dropWhile _ _)⟩

theorem reads_contentText (hpeek : c.peek? = some x) (hx : isContentMark x = false) :
    Reads template covered c (fun node => Found (.item node) c) contentText contentText := by
  unfold contentText
  refine reads_offset_bind (reads_skipWhile_bind (reads_leafFrom ?_))
  have hpass := c.passes_takeWhile fun x => !isContentMark x
  obtain ⟨rest, hrest⟩ := List.head?_eq_some_iff.mp hpeek
  rw [hpass.span]
  exact ⟨_, _, hpass, .text (by simp [hrest, hx]) (fun _ => mem_takeWhile) (halts_dropWhile _ _)⟩

end Leaves

end Reader

end ComponentMarkup
