import ComponentMarkup.Proofs.Expr.Locality
import ComponentMarkup.Proofs.Template.Joining
import ComponentMarkup.Proofs.Template.Lines

/-!
# The choice of placeholders does not matter

Whether an expression with gaps can be read does not depend on the names that are put into the gaps,
as long as they are fresh: `readable_of_fresh`. Names are fresh if they are distinct and the template
contains none of them.

Dedenting is the same for all names by `uncutCells_renamed`. Then the tokens are the same up to the
names in the gaps by `lexes_renamed`, since a token depends on its own characters and on what follows
them up to the next bracket or quote only. So the parser cannot tell them apart.
-/

namespace ComponentMarkup

open Lexer

variable {r : Renaming} {t : List Char} {cells rest cells' part : List (Cell Char String)}

/-! ## Cells up to names -/

theorem exists_of_forall₂_append {α β : Type} {R : α → β → Prop} {front back : List α}
    {whole : List β} (h : List.Forall₂ R (front ++ back) whole) :
    ∃ front' back', whole = front' ++ back' ∧ List.Forall₂ R front front' ∧
      List.Forall₂ R back back' := by
  induction front generalizing whole with
  | nil => exact ⟨[], whole, rfl, .nil, h⟩
  | cons a front ih =>
    rw [List.cons_append] at h
    cases h with
    | cons ha hrest =>
      obtain ⟨front', back', rfl, hfront, hback⟩ := ih hrest
      exact ⟨_ :: front', back', rfl, .cons ha hfront, hback⟩

theorem renamed_own (t : List Char) :
    List.Forall₂ (Cell.Renamed r) (t.map .own) (t.map .own) := by
  induction t with
  | nil => exact .nil
  | cons c t ih => exact .cons (.own c) ih

theorem eq_of_renamed_own (h : List.Forall₂ (Cell.Renamed r) (t.map .own) cells) :
    cells = t.map .own := by
  induction t generalizing cells with
  | nil =>
    cases h
    rfl
  | cons c t ih =>
    rw [List.map_cons] at h
    cases h with
    | cons hcell hrest =>
      cases hcell
      rw [ih hrest, List.map_cons]

theorem exists_of_renamed_own_append
    (h : List.Forall₂ (Cell.Renamed r) (t.map .own ++ rest) cells') :
    ∃ rest', cells' = t.map .own ++ rest' ∧ List.Forall₂ (Cell.Renamed r) rest rest' := by
  obtain ⟨front', rest', rfl, hfront, hrest⟩ := exists_of_forall₂_append h
  rw [eq_of_renamed_own hfront]
  exact ⟨rest', rfl, hrest⟩

/-! ## Tokens up to names -/

/-- A character that is no bracket and no quote begins the same token whatever the names are. -/
theorem scan_renamed (h : List.Forall₂ (Cell.Renamed r) cells cells') {tail tail' : List Char}
    (htail : Closes tail) (htail' : Closes tail') {c : Char} (hc : Reader.isMark c = false) :
    scan c (cellsText cells ++ tail) = scan c (cellsText cells' ++ tail') := by
  have hquote : c ∉ quotes := by
    intro hquote
    simp only [quotes, List.mem_cons, List.not_mem_nil, or_false] at hquote
    rcases hquote with rfl | rfl <;> cases hc
  -- the text up to the first bracket, quote or gap is common to both
  obtain ⟨t, rest, rest', rfl, rfl, hmark, hmark'⟩ :
      ∃ (t : List Char) (rest rest' : List (Cell Char String)),
      cells = t.map .own ++ rest ∧ cells' = t.map .own ++ rest' ∧
      AtBreak (cellsText rest ++ tail) ∧ AtBreak (cellsText rest' ++ tail') := by
    induction h with
    | nil =>
      exact ⟨[], [], [], rfl, rfl, fun d hd => mem_breakChars (isMark_of_isCloser (htail d hd)),
        fun d hd => mem_breakChars (isMark_of_isCloser (htail' d hd))⟩
    | cons hcell _ ih =>
      cases hcell with
      | own d =>
        cases hd : Reader.isMark d with
        | true =>
          have hbreak := mem_breakChars hd
          exact ⟨[], _, _, rfl, rfl, atBreak_cons hbreak, atBreak_cons hbreak⟩
        | false =>
          obtain ⟨t, rest, rest', rfl, rfl, hmark, hmark'⟩ := ih
          exact ⟨d :: t, rest, rest', rfl, rfl, hmark, hmark'⟩
      | gap _ => exact ⟨[], _, _, rfl, rfl, atBreak_cons (by decide), atBreak_cons (by decide)⟩
  rw [cellsText_append, cellsText_append, cellsText_own, List.append_assoc, List.append_assoc,
    scan_append hmark hquote, scan_append hmark' hquote]

theorem EndsBeforeCells.renamed {rest' : List (Cell Char String)} (h : EndsBeforeCells t rest)
    (hrest : List.Forall₂ (Cell.Renamed r) rest rest') : EndsBeforeCells t rest' := by
  intro quote hquote htwo hhead
  cases hrest with
  | nil => cases hhead
  | cons hcell _ =>
    cases hhead
    cases hcell
    exact h quote hquote htwo rfl

/-- The names that cells have of their own are kept. -/
def KeepsOwn (r : Renaming) (cells : List (Cell Char String)) : Prop :=
  ∀ n, IsName n → n.toList.map .own <:+: cells → r.names n n

theorem KeepsOwn.of_infix (h : KeepsOwn r cells) (hpart : part <:+: cells) : KeepsOwn r part :=
  fun n hn hwithin => h n hn (hwithin.trans hpart)

/-- The gaps of cells hold names. -/
def NamedGaps (cells : List (Cell Char String)) : Prop :=
  ∀ name, .gap name ∈ cells → IsName name

theorem NamedGaps.of_subset (h : NamedGaps cells) (hpart : part ⊆ cells) : NamedGaps part :=
  fun name hname => h name (hpart hname)

/-- A token that is made of characters of the cells is kept. -/
theorem KeepsOwn.renamed (h : KeepsOwn r cells) {token : Token} (hread : IsRead token)
    (hname : ∀ n, token = .name n → n.toList = word) (hword : word.map .own <:+: cells) :
    Token.Renamed r token token := by
  cases token with
  | name n => exact .name (h n hread (hname n rfl ▸ hword))
  | symbol _ | int _ | float _ | str _ => exact .same (by simp)

/-- Whatever text follows, the tokens of the first cells are those of the others up to names. -/
def LexesAlike (r : Renaming) (cells cells' : List (Cell Char String)) : Prop :=
  ∀ ⦃tail tokens⦄, Closes tail → Lexes (cellsText cells ++ tail) tokens →
    ∃ front front' rest, tokens = front ++ rest ∧ Lexes tail rest ∧
      List.Forall₂ (Token.Renamed r) front front' ∧
      ∀ {tail' rest'}, Closes tail' → Lexes tail' rest' →
        Lexes (cellsText cells' ++ tail') (front' ++ rest')

namespace LexesAlike

theorem nil : LexesAlike r [] [] :=
  fun _ _ _ h => ⟨[], [], _, rfl, h, .nil, fun _ hrest' => hrest'⟩

/-- A character that is no bracket and no quote is skipped, or it begins a token. The token may cover
cells behind it. -/
theorem plain {c : Char} (hc : Reader.isMark c = false) (hcells : Balanced cells)
    (hrenamed : List.Forall₂ (Cell.Renamed r) cells cells') (hown : KeepsOwn r (.own c :: cells))
    (ih : ∀ (t : List Char) rest rest', cells = t.map .own ++ rest → cells' = t.map .own ++ rest' →
      Balanced rest → List.Forall₂ (Cell.Renamed r) rest rest' → LexesAlike r rest rest') :
    LexesAlike r (.own c :: cells) (.own c :: cells') := by
  intro tail tokens htail h
  rw [cellsText_cons, Cell.text, List.singleton_append, List.cons_append] at h
  have hread := isRead_of_lexes h
  cases h with
  | skip hskip h =>
    obtain ⟨front, front', more, htokens, hmore, hfront, hlexes⟩ :=
      ih [] cells cells' rfl rfl hcells hrenamed htail h
    exact ⟨front, front', more, htokens, hmore, hfront,
      fun htail' h' => .skip hskip (hlexes htail' h')⟩
  | @token _ _ lexeme tokens hskip hscan h =>
    obtain ⟨word, hbegins, hlen, -, hname⟩ := coversPlain_scan hc hscan
    obtain ⟨rest, rfl, hrest⟩ := hcells.of_begins htail hbegins
    have hscan' {tail' : List Char} (htail' : Closes tail') :
        scan c (cellsText cells' ++ tail') = .ok lexeme :=
      (scan_renamed hrenamed htail htail' hc).symm.trans hscan
    obtain ⟨rest', rfl, hrest'⟩ := exists_of_renamed_own_append hrenamed
    rw [cellsText_append, cellsText_own, ← hlen, List.append_assoc, List.drop_left] at h
    obtain ⟨front, front', more, htokens, hmore, hfront, hlexes⟩ :=
      ih _ rest rest' rfl rfl hrest hrest' htail h
    have htoken : Token.Renamed r lexeme.token lexeme.token :=
      hown.renamed (hread _ List.mem_cons_self) hname ⟨[], rest, rfl⟩
    refine ⟨lexeme.token :: front, lexeme.token :: front', more, by rw [htokens]; rfl, hmore,
      .cons htoken hfront, fun htail' h' => ?_⟩
    rw [cellsText_cons, Cell.text, List.singleton_append, List.cons_append]
    refine .token hskip (hscan' htail') ?_
    rw [cellsText_append, cellsText_own, ← hlen, List.append_assoc, List.drop_left]
    exact hlexes htail' h'

theorem string (ht : IsStringLiteral t) (hends : EndsBeforeCells t cells)
    (hends' : EndsBeforeCells t cells') (hcells : LexesAlike r cells cells') :
    LexesAlike r (t.map .own ++ cells) (t.map .own ++ cells') := by
  intro tail tokens htail h
  rw [cellsText_append, cellsText_own, List.append_assoc] at h
  obtain ⟨text, tokens', rfl, h₁⟩ := lexes_literal ht (hends.endsBefore htail) h
  obtain ⟨front, front', more, rfl, hmore, hfront, hlexes⟩ := hcells htail h₁
  refine ⟨.str text :: front, .str text :: front', more, rfl, hmore,
    .cons (.same (by simp)) hfront, fun htail' h' => ?_⟩
  rw [cellsText_append, cellsText_own, List.append_assoc]
  exact lexes_literal_append ht (hends.endsBefore htail) (hends'.endsBefore htail') h
    (hlexes htail' h')

theorem gap {name name' : String} (hname : IsName name) (hname' : IsName name')
    (hnames : r.names name name') (hcells : LexesAlike r cells cells') :
    LexesAlike r (.gap name :: cells) (.gap name' :: cells') := by
  have hassoc (name : String) (rest : List (Cell Char String)) (tail : List Char) :
      cellsText (.gap name :: rest) ++ tail =
        '(' :: (name.toList ++ ')' :: (cellsText rest ++ tail)) := by
    simp [Cell.text]
  intro tail tokens htail h
  rw [hassoc] at h
  obtain ⟨tokens₁, rfl, h₁⟩ := lexes_cons_mark (s := .lparen) (by decide) h
  obtain ⟨tokens₂, rfl, h₂⟩ := of_lexes_name hname (stops_cons (by decide)) h₁
  obtain ⟨tokens₃, rfl, h₃⟩ := lexes_cons_mark (s := .rparen) (by decide) h₂
  obtain ⟨front, front', more, rfl, hmore, hfront, hlexes⟩ := hcells htail h₃
  refine ⟨.symbol .lparen :: .name name :: .symbol .rparen :: front,
    .symbol .lparen :: .name name' :: .symbol .rparen :: front', more, rfl, hmore,
    .cons (.same (by simp)) (.cons (.name hnames) (.cons (.same (by simp)) hfront)),
    fun htail' h' => ?_⟩
  rw [hassoc]
  exact lexes_mark (by decide) (lexes_name hname' (stops_cons (by decide))
    (lexes_mark (by decide) (hlexes htail' h')))

theorem group {rule : Rule} {opening closing : Char} (hgroup : (rule, opening, closing) ∈ groups)
    {inner inner' : List (Cell Char String)} (hinner : LexesAlike r inner inner')
    (hcells : LexesAlike r cells cells') :
    LexesAlike r (.own opening :: (inner ++ .own closing :: cells))
      (.own opening :: (inner' ++ .own closing :: cells')) := by
  obtain ⟨s, s', hs, hopening, hclosing⟩ := scan_group hgroup
  have hassoc (inner rest : List (Cell Char String)) (tail : List Char) :
      cellsText (.own opening :: (inner ++ .own closing :: rest)) ++ tail =
        opening :: (cellsText inner ++ closing :: (cellsText rest ++ tail)) := by
    simp [Cell.text]
  have hcloses (rest : List (Cell Char String)) (tail : List Char) :
      Closes (closing :: (cellsText rest ++ tail)) := by
    intro c hc
    cases hc
    exact (isMark_of_mem_groups hgroup).2
  intro tail tokens htail h
  rw [hassoc] at h
  obtain ⟨tokens₁, rfl, h₁⟩ := lexes_cons_mark hopening h
  obtain ⟨front₁, front₁', more, rfl, hmore, hfront₁, hlexes₁⟩ := hinner (hcloses cells tail) h₁
  obtain ⟨tokens₂, rfl, h₂⟩ := lexes_cons_mark hclosing hmore
  obtain ⟨front₂, front₂', more, rfl, hmore', hfront₂, hlexes₂⟩ := hcells htail h₂
  refine ⟨.symbol s :: front₁ ++ .symbol s' :: front₂,
    .symbol s :: front₁' ++ .symbol s' :: front₂', more, by simp, hmore', ?_, fun htail' h' => ?_⟩
  · exact .cons (.same (by simp)) (List.rel_append hfront₁ (.cons (.same (by simp)) hfront₂))
  · rw [hassoc, List.cons_append, List.cons_append, List.append_assoc]
    exact lexes_mark hopening
      (hlexes₁ (hcloses cells' _) (lexes_mark hclosing (hlexes₂ htail' h')))

end LexesAlike

/-- Cells that are the same up to the names of gaps have the same tokens up to these names. -/
theorem lexes_renamed (hcells : Balanced cells)
    (hrenamed : List.Forall₂ (Cell.Renamed r) cells cells') (hown : KeepsOwn r cells)
    (hnames : NamedGaps cells) (hnames' : NamedGaps cells') : LexesAlike r cells cells' := by
  -- a token may cover several cells, so the induction is on their number
  generalize hlen : cells.length = size
  induction size using Nat.strongRecOn generalizing cells cells' with
  | ind size ih =>
  subst hlen
  cases hcells with
  | nil =>
    cases hrenamed
    exact .nil
  | @plain c rest hc hrest =>
    cases hrenamed with
    | @cons _ _ _ rest' hcell hrest' =>
    cases hcell
    refine .plain hc hrest hrest' hown fun t more more' hmore hmore' hbalanced hrenamed => ?_
    subst hmore
    subst hmore'
    have hpart : more <:+: .own c :: (t.map .own ++ more) := ⟨.own c :: t.map .own, [], by simp⟩
    have hpart' : more' <:+: .own c :: (t.map .own ++ more') := ⟨.own c :: t.map .own, [], by simp⟩
    refine ih more.length ?_ hbalanced hrenamed (hown.of_infix hpart)
      (hnames.of_subset hpart.subset) (hnames'.of_subset hpart'.subset) rfl
    simp only [List.length_cons, List.length_append]
    omega
  | @string t rest ht hends hrest =>
    obtain ⟨rest', rfl, hrest'⟩ := exists_of_renamed_own_append hrenamed
    refine .string ht hends (hends.renamed hrest') (ih rest.length ?_ hrest hrest'
      (hown.of_infix (List.suffix_append _ _).isInfix)
      (hnames.of_subset (List.subset_append_right _ _))
      (hnames'.of_subset (List.subset_append_right _ _)) rfl)
    obtain ⟨quote, body, rfl, -⟩ := ht.head
    simp only [List.map_cons, List.length_append, List.length_cons]
    omega
  | @gap name rest hrest =>
    cases hrenamed with
    | @cons _ _ _ rest' hcell hrest' =>
    cases hcell with
    | gap hname =>
    exact .gap (hnames _ List.mem_cons_self) (hnames' _ List.mem_cons_self) hname
      (ih rest.length (by simp) hrest hrest' (hown.of_infix (List.suffix_cons _ _).isInfix)
        (hnames.of_subset (List.subset_cons_self _ _))
        (hnames'.of_subset (List.subset_cons_self _ _)) rfl)
  | @group rule opening closing inner rest hgroup hinner hrest =>
    rw [List.cons_append] at hrenamed hown hnames ⊢
    cases hrenamed with
    | @cons _ _ _ _ hcell hrenamed =>
    cases hcell
    obtain ⟨inner', back', rfl, hinner', hback'⟩ := exists_of_forall₂_append hrenamed
    cases hback' with
    | @cons _ _ _ rest' hcell hrest' =>
    cases hcell
    have hfirst (inner rest : List (Cell Char String)) :
        inner <:+: .own opening :: (inner ++ .own closing :: rest) :=
      ⟨[.own opening], .own closing :: rest, by simp⟩
    have hlast (inner rest : List (Cell Char String)) :
        rest <:+: .own opening :: (inner ++ .own closing :: rest) :=
      ⟨.own opening :: inner ++ [.own closing], [], by simp⟩
    refine .group hgroup (ih inner.length ?_ hinner hinner' (hown.of_infix (hfirst _ _))
      (hnames.of_subset (hfirst _ _).subset) (hnames'.of_subset (hfirst _ _).subset) rfl)
      (ih rest.length ?_ hrest hrest' (hown.of_infix (hlast _ _))
        (hnames.of_subset (hlast _ _).subset) (hnames'.of_subset (hlast _ _).subset) rfl)
    · simp only [List.length_append, List.length_cons]
      omega
    · simp only [List.length_append, List.length_cons]
      omega

/-! ## Segments with names -/

namespace Segment

variable {names : List String} {segments : List Segment} {name : String} {word : List Char}

/-- The cells of segments, with a name for each nested element. -/
def named (segments : List Segment) (names : List String) : List (Cell Char String) :=
  spell (fun text _ => text.map .own) (fun name => [.gap name]) segments names

theorem cellsText_named (segments : List Segment) (names : List String) :
    cellsText (named segments names) = joined segments names := by
  unfold named joined
  fun_induction spell (fun text _ => text) (fun name => Cell.text (.gap name)) segments names with
  | case1 => rfl
  | case2 _ _ _ _ ih => rw [spell, cellsText_append, cellsText_own, ih]
  | case3 _ _ _ _ _ _ ih => rw [spell, cellsText_append, ih]; simp
  | case4 _ _ _ _ ih => rw [spell, ih]

theorem named_renamed (segments : List Segment) (h : List.Forall₂ r.names names names') :
    List.Forall₂ (Cell.Renamed r) (named segments names) (named segments names') := by
  unfold named
  induction segments generalizing names names' with
  | nil => exact .nil
  | cons segment rest ih =>
    obtain ⟨text, span, _ | e⟩ := segment
    · rw [spell, spell]
      exact List.rel_append (renamed_own text) (ih h)
    · cases h with
      | nil =>
        rw [spell]
        exact ih .nil
      | cons hname hnames =>
        rw [spell, spell]
        exact .cons (.gap hname) (ih hnames)

/-- The names fill the gaps of the segments. -/
theorem own?_named (hlen : names.length = (segments.filterMap (·.element)).length) :
    (named segments names).map Cell.own? = (segments.flatMap Segment.cells).map Cell.own? := by
  unfold named
  induction segments generalizing names with
  | nil => rfl
  | cons segment rest ih =>
    obtain ⟨text, span, _ | e⟩ := segment
    · rw [spell, List.map_append, ih hlen, List.flatMap_cons, List.map_append, Segment.cells,
        own?_map_own, own?_map_own]
    · cases names with
      | nil => cases hlen
      | cons name names =>
        rw [spell, List.singleton_append, List.map_cons, ih (Nat.succ.inj hlen)]
        rfl

theorem mem_of_gap_mem_named (h : .gap name ∈ named segments names) : name ∈ names := by
  unfold named at h
  induction segments generalizing names with
  | nil => cases h
  | cons segment rest ih =>
    obtain ⟨text, span, _ | e⟩ := segment
    · rw [spell, List.mem_append] at h
      rcases h with h | h
      · simp at h
      · exact ih h
    · cases names with
      | nil =>
        rw [spell] at h
        exact ih h
      | cons name' names =>
        rw [spell, List.singleton_append, List.mem_cons] at h
        rcases h with h | h
        · cases h
          exact List.mem_cons_self
        · exact List.mem_cons_of_mem _ (ih h)

theorem prefix_of_prefix_append_gap (h : word.map .own <+: t.map .own ++ .gap name :: rest) :
    word <+: t := by
  induction word generalizing t with
  | nil => exact List.nil_prefix
  | cons c word ih =>
    cases t with
    | nil =>
      obtain ⟨hc, -⟩ := List.cons_prefix_cons.mp h
      cases hc
    | cons d t =>
      obtain ⟨hc, hmore⟩ := List.cons_prefix_cons.mp h
      cases hc
      exact List.cons_prefix_cons.mpr ⟨rfl, ih hmore⟩

/-- A gap keeps the texts around it apart. -/
theorem infix_of_infix_append_gap (h : word.map .own <:+: t.map .own ++ .gap name :: rest) :
    word <:+: t ∨ word.map .own <:+: rest := by
  induction t with
  | nil =>
    rcases List.infix_cons_iff.mp h with h | h
    · have hbegins : word.map .own <+: List.map Cell.own [] ++ .gap name :: rest := h
      exact .inl (prefix_of_prefix_append_gap hbegins).isInfix
    · exact .inr h
  | cons c t ih =>
    rcases List.infix_cons_iff.mp h with h | h
    · have hbegins : word.map .own <+: (c :: t).map .own ++ .gap name :: rest := h
      exact .inl (prefix_of_prefix_append_gap hbegins).isInfix
    · rcases ih h with h | h
      · exact .inl (List.infix_cons h)
      · exact .inr h

/-- What stands between two gaps is a part of the template. -/
theorem infix_of_infix_named (halternate : Alternate template segments)
    (hlen : names.length = (segments.filterMap (·.element)).length)
    (h : word.map .own <:+: named segments names) : word <:+: template := by
  unfold named at h
  induction halternate generalizing names with
  | nil =>
    rw [spell] at h
    rw [List.map_eq_nil_iff.mp (List.infix_nil.mp h)]
    exact List.nil_infix
  | run hrun =>
    rw [spell, spell, List.append_nil] at h
    exact (infix_of_infix_own h).trans hrun
  | nested _ ih =>
    cases names with
    | nil => cases hlen
    | cons name names =>
      rw [spell] at h
      rcases infix_of_infix_append_gap (show _ <:+: List.map Cell.own [] ++ _ from h) with h | h
      · rw [List.infix_nil.mp h]
        exact List.nil_infix
      · exact ih (Nat.succ.inj hlen) h
  | runNested hrun _ ih =>
    cases names with
    | nil => cases hlen
    | cons name names =>
      rw [spell, spell] at h
      rcases infix_of_infix_append_gap h with h | h
      · exact h.trans hrun
      · exact ih (Nat.succ.inj hlen) h

end Segment

/-! ## Fresh names -/

/-- Names that may stand for the elements nested in an expression of a template. -/
structure FreshNames (template : List Char) (names : List String) : Prop where
  isName : ∀ name ∈ names, IsName name
  nodup : names.Nodup
  apart : ∀ name ∈ names, ¬ name.toList <:+: template

/-- Fresh names in place of others, and every name of the template in its own place. -/
def FreshNames.renaming {template : List Char} {names names' : List String}
    (h : FreshNames template names) (h' : FreshNames template names') : Renaming where
  names a b :=
    (a = b ∧ a.toList <:+: template) ∨ ∃ i : Nat, names[i]? = some a ∧ names'[i]? = some b
  eq_iff := by
    intro a b a' b' hab hab'
    rcases hab with ⟨rfl, ha⟩ | ⟨i, hi, hi'⟩
    · rcases hab' with ⟨rfl, -⟩ | ⟨j, hj, hj'⟩
      · rfl
      · -- a name of the template is no fresh name
        refine iff_of_false ?_ ?_
        · rintro rfl
          exact h.apart a (List.mem_of_getElem? hj) ha
        · rintro rfl
          exact h'.apart a (List.mem_of_getElem? hj') ha
    · rcases hab' with ⟨rfl, ha'⟩ | ⟨j, hj, hj'⟩
      · refine iff_of_false ?_ ?_
        · rintro rfl
          exact h.apart a (List.mem_of_getElem? hi) ha'
        · rintro rfl
          exact h'.apart b (List.mem_of_getElem? hi') ha'
      · -- fresh names are equal if they stand in the same place
        obtain ⟨hlt, -⟩ := List.getElem?_eq_some_iff.mp hi
        obtain ⟨hlt', -⟩ := List.getElem?_eq_some_iff.mp hi'
        constructor
        · rintro rfl
          obtain rfl := (List.getElem?_inj hlt h.nodup).mp (hi.trans hj.symm)
          exact Option.some.inj (hi'.symm.trans hj')
        · rintro rfl
          obtain rfl := (List.getElem?_inj hlt' h'.nodup).mp (hi'.trans hj'.symm)
          exact Option.some.inj (hi.symm.trans hj)

theorem FreshNames.renamed (h : FreshNames template names) (h' : FreshNames template names')
    (hlen : names.length = names'.length) : List.Forall₂ (h.renaming h').names names names' := by
  refine List.forall₂_iff_get.mpr ⟨hlen, fun i hi hi' => .inr ⟨i, ?_, ?_⟩⟩
  · exact List.getElem?_eq_getElem hi
  · exact List.getElem?_eq_getElem hi'

/-! ## Readings -/

namespace EmbeddedExpr

/-- The text that is read for an expression, with names for the elements nested in it: the segments
are joined, each name in parentheses, then dedented, and the items of a list get brackets. -/
def reading (source : EmbeddedExpr) (kind : FragmentKind) (names : List String) : List Char :=
  kind.enclose ['['] [']'] (Dedent.apply (Segment.joined source.segments names))

/-- The cells that are read for an expression, apart from the brackets of a list. -/
def readCells (source : EmbeddedExpr) (names : List String) : List (Cell Char String) :=
  uncutCells (Dedent.cuts (Segment.joined source.segments names)) 0
    (Segment.named source.segments names)

variable {template : List Char} {source : EmbeddedExpr} {kind : FragmentKind}
  {names names' : List String}

theorem reading_eq (hnames : ∀ name ∈ names, IsName name) :
    source.reading kind names = kind.enclose ['['] [']'] (cellsText (source.readCells names)) := by
  have hcuts := (Dedent.cuts_spec (Segment.joined source.segments names)).2
  have hcells := cellsText_uncutCells hcuts [] (Segment.cellsText_named _ _).symm
    fun name hname => (hnames name (Segment.mem_of_gap_mem_named hname)).isBlank
  rw [reading, readCells, Dedent.apply_eq_uncut, ← Text.byteLength_nil, hcells,
    Segment.cellsText_named]

theorem dedents_readCells (source : EmbeddedExpr) (names : List String) :
    ∃ b, Dedents true (Segment.named source.segments names) (source.readCells names) b := by
  have hcuts := (Dedent.cuts_spec (Segment.joined source.segments names)).2
  exact dedents_uncutCells hcuts [] (Segment.cellsText_named _ _).symm fun _ => rfl

theorem namedGaps_readCells (hnames : ∀ name ∈ names, IsName name) :
    NamedGaps (source.readCells names) := by
  obtain ⟨b, hdedents⟩ := dedents_readCells source names
  intro name hname
  exact hnames name (Segment.mem_of_gap_mem_named (hdedents.mem_of_gap hname))

theorem balanced_readCells (hfrom : source.IsFrom template)
    (hlen : names.length = source.nested.length) : Balanced (source.readCells names) := by
  obtain ⟨b, hdedents⟩ := dedents_readCells source names
  exact (hfrom.balanced.of_own? (Segment.own?_named hlen)).dedents hdedents

/-- The names that an expression has of its own are names of the template. -/
theorem keepsOwn_readCells (hfrom : source.IsFrom template)
    (hlen : names.length = source.nested.length)
    (hr : ∀ n : String, n.toList <:+: template → r.names n n) :
    KeepsOwn r (source.readCells names) := by
  obtain ⟨b, hdedents⟩ := dedents_readCells source names
  intro n hn hwithin
  apply hr
  apply Segment.infix_of_infix_named hfrom.alternate hlen
  exact hdedents.infix_own (newline_not_mem_name hn) hwithin

theorem readCells_renamed (h : List.Forall₂ r.names names names')
    (hnames : ∀ name ∈ names, IsName name) (hnames' : ∀ name ∈ names', IsName name) :
    List.Forall₂ (Cell.Renamed r) (source.readCells names) (source.readCells names') := by
  have hgaps {names : List String} (hnames : ∀ name ∈ names, IsName name) :
      GapsOnLines (Segment.named source.segments names) := fun name hname =>
    newline_not_mem_name (hnames name (Segment.mem_of_gap_mem_named hname))
  rw [readCells, readCells, ← Segment.cellsText_named, ← Segment.cellsText_named]
  exact uncutCells_renamed (Segment.named_renamed _ h) (hgaps hnames) (hgaps hnames')

/-- Whether an expression can be read does not depend on the fresh names in it. -/
theorem readable_of_fresh (hfrom : source.IsFrom template) (h : FreshNames template names)
    (h' : FreshNames template names') (hlen : names.length = source.nested.length)
    (hlen' : names'.length = source.nested.length)
    (hread : Expr.Readable (source.reading kind names)) :
    Expr.Readable (source.reading kind names') := by
  have hsame := h.renamed h' (hlen.trans hlen'.symm)
  obtain ⟨tokens, htokens⟩ := hread.lexes
  suffices ∃ tokens', Lexes (source.reading kind names') tokens' ∧
      List.Forall₂ (Token.Renamed (h.renaming h')) tokens tokens' by
    obtain ⟨tokens', htokens', hrenamed⟩ := this
    exact Expr.readable_of_renamed htokens htokens' hrenamed hread
  rw [reading_eq h.isName] at htokens
  rw [reading_eq h'.isName]
  have hcells : LexesAlike (h.renaming h') (source.readCells names) (source.readCells names') :=
    lexes_renamed (balanced_readCells hfrom hlen) (readCells_renamed hsame h.isName h'.isName)
      (keepsOwn_readCells hfrom hlen fun n hn => .inl ⟨rfl, hn⟩) (namedGaps_readCells h.isName)
      (namedGaps_readCells h'.isName)
  cases kind with
  | scalar =>
    have hend : Closes [] := fun c hc => by cases hc
    have htokens' : Lexes (cellsText (source.readCells names) ++ []) tokens := by
      rwa [List.append_nil]
    obtain ⟨front, front', rest, rfl, hrest, hfront, hlexes⟩ := hcells hend htokens'
    cases hrest
    have hlexes' := hlexes hend .nil
    rw [List.append_nil] at hlexes'
    exact ⟨_, hlexes', List.rel_append hfront .nil⟩
  | list =>
    have hend : Closes [']'] := by
      intro c hc
      cases hc
      rfl
    obtain ⟨tokens₁, rfl, h₁⟩ := lexes_cons_mark (s := .lbracket) (by decide) htokens
    obtain ⟨front, front', rest, rfl, hrest, hfront, hlexes⟩ := hcells hend h₁
    obtain ⟨tokens₂, rfl, h₂⟩ := lexes_cons_mark (s := .rbracket) (by decide) hrest
    cases h₂
    have hlast : Lexes [']'] [.symbol .rbracket] := lexes_mark (by decide) .nil
    refine ⟨_, lexes_mark (s := .lbracket) (by decide) (hlexes hend hlast), ?_⟩
    exact .cons (.same (by simp)) (List.rel_append hfront (.cons (.same (by simp)) .nil))

end EmbeddedExpr

end ComponentMarkup
