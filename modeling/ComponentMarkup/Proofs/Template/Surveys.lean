import ComponentMarkup.Proofs.Template.Fragments
import ComponentMarkup.Proofs.Template.Stages
import ComponentMarkup.Proofs.Template.Tracing

/-!
# Nested elements in compiled templates

A pass that lowers and keeps, beside an expression, what was read for it and how many elements went
into it. An element between the parts of an embedded expression becomes one call, which stands where
the element stood, unless a comprehension binds its placeholder: then the call is lost, and the
placeholder stays in the compiled expression.
-/

namespace ComponentMarkup

open Lowering

variable {template : List Char} {parts : List (String × Expr)}

/-! ## Counting elements -/

/-- The sum of the numbers that are given to what a pass makes of a part. -/
def Element.Part.sum {α : Type} (number : α → Nat) : (part : Part) → part.Made α → Nat
  | .element _, a | .value _, a | .source .., a => number a
  | .attributes _, args => (args.map fun arg => number arg.2).sum
  | .content _, is | .items _, is => (is.map fun i => number i.2).sum
  | .item _, i => number i.2
  | .segments _, holes => ((PieceWith.gaps holes).map fun gap => number gap.2).sum

/-- A number that a pass gives to what it makes, one more for each call. -/
structure Pass.Counts {σ α : Type} (pass : Pass σ α) (number : α → Nat) : Prop where
  literal : ∀ text, number (pass.literal text) = 0
  call : ∀ path items args, number (pass.call path items args) =
    1 + (items.map fun item => number item.2).sum + (args.map fun arg => number arg.2).sum
  read : ∀ {kind span holes s a s'}, Numbering.exec (pass.read kind span holes) s = (.ok a, s') →
    number a = ((PieceWith.gaps holes).map fun gap => number gap.2).sum

section

variable {σ α : Type} {pass : Pass σ α} {number : α → Nat} {ctx : LoweringContext}

theorem Pass.Counts.part (h : pass.Counts number) (part : Element.Part) (tag : String)
    (seen : List String) {s s' : σ} {a : part.Made α}
    (hrun : Numbering.exec (pass.part ctx tag seen part) s = (.ok a, s')) :
    part.sum number a = part.elements.length := by
  induction part generalizing tag seen s s' with
  | element name attrs content span ih₁ ih₂ =>
    rw [Pass.part, Pass.element] at hrun
    split at hrun
    · obtain ⟨_, _, hthrow, -⟩ := Numbering.exec_bind_eq_ok hrun
      cases hthrow
    · obtain ⟨path, _, -, h₁⟩ := Numbering.exec_bind_eq_ok hrun
      obtain ⟨items, _, hitems, h₂⟩ := Numbering.exec_bind_eq_ok h₁
      obtain ⟨args, _, hargs, h₃⟩ := Numbering.exec_bind_eq_ok h₂
      cases h₃
      refine (h.call path items args).trans ?_
      rw [Element.Part.elements, Element.elements, List.length_cons, List.length_append, Nat.add_assoc,
        Nat.add_comm]
      exact congrArg₂ (· + · + 1) (ih₂ name [] hitems) (ih₁ name _ hargs)
  | moreAttributes name value span rest ih₁ ih₂ =>
    rw [Pass.part, Pass.attributes] at hrun
    split at hrun
    · obtain ⟨_, _, hthrow, -⟩ := Numbering.exec_bind_eq_ok hrun
      cases hthrow
    · obtain ⟨_, _, hvalue, h₁⟩ := Numbering.exec_bind_eq_ok hrun
      obtain ⟨more, _, hmore, h₂⟩ := Numbering.exec_bind_eq_ok h₁
      cases h₂
      exact (congrArg₂ (· + ·) (ih₁ tag seen hvalue) (ih₂ tag _ hmore)).trans List.length_append.symm
  | moreItems item rest ih₁ ih₂ =>
    rw [Pass.part, Pass.contentItems] at hrun
    obtain ⟨first, _, hfirst, h₁⟩ := Numbering.exec_bind_eq_ok hrun
    obtain ⟨more, _, hmore, h₂⟩ := Numbering.exec_bind_eq_ok h₁
    cases h₂
    exact (congrArg₂ (· + ·) (ih₁ tag seen hfirst) (ih₂ tag seen hmore)).trans List.length_append.symm
  | source kind span segments ih =>
    rw [Pass.part, Pass.expression] at hrun
    split at hrun
    · obtain ⟨_, _, hthrow, -⟩ := Numbering.exec_bind_eq_ok hrun
      cases hthrow
    · obtain ⟨holes, _, hholes, h₁⟩ := Numbering.exec_bind_eq_ok hrun
      exact (h.read h₁).trans (ih tag seen hholes)
  | nestedSegment text span e rest ih₁ ih₂ =>
    rw [Pass.part, Pass.pieces] at hrun
    obtain ⟨filling, _, hfilling, h₁⟩ := Numbering.exec_bind_eq_ok hrun
    obtain ⟨name, _, -, h₂⟩ := Numbering.exec_bind_eq_ok h₁
    obtain ⟨more, _, hmore, h₃⟩ := Numbering.exec_bind_eq_ok h₂
    cases h₃
    exact (congrArg₂ (· + ·) (ih₁ tag seen hfilling) (ih₂ tag seen hmore)).trans
      List.length_append.symm
  | elementItem _ ih | exprItem _ ih | spreadItem _ ih | rawSegment _ _ _ ih =>
    obtain ⟨_, _, hrun, h₁⟩ := Numbering.exec_bind_eq_ok hrun
    cases h₁
    have hcount := ih tag seen hrun
    exact hcount
  | noAttributes | noContent | noItems | noSegments =>
    cases hrun
    rfl
  | literalValue text | literalItem text =>
    cases hrun
    exact h.literal text
  | someContent _ ih | exprValue _ ih | spreadValue _ ih => exact ih tag seen hrun

end

/-! ## Marks of calls -/

theorem ConstructorPath.marks_callee (path : ConstructorPath) :
    ∃ n, path.callee.marks = [.leaf n] := by
  unfold callee
  split
  · exact ⟨_, rfl⟩
  · exact ⟨_, rfl⟩

theorem ConstructorPath.marks_call (path : ConstructorPath) (items : List (FragmentKind × Expr))
    (args : List (String × Expr)) :
    (path.call items args).marks = .call :: (path.callee.marks ++
      (items.map Prod.snd ++ args.map Prod.snd).flatMap Expr.marks) := by
  rw [call, Expr.marks, Expr.marksOfArguments, marksOfArguments_keyword, Argument.marks,
    Fragment.marks_merge, List.flatMap_append, List.flatMap_map, List.flatMap_map, List.flatMap_map]

/-! ## Readings -/

/-- The names that lowering may give to gaps. -/
def IsPlaceholder (template : List Char) (p : String) : Prop :=
  ∃ k, p = numbered (stemFor template) k

theorem IsPlaceholder.not_infix {p : String} (h : IsPlaceholder template p) :
    ¬ p.toList <:+: template := by
  intro hwithin
  obtain ⟨k, hk⟩ := h
  exact ne_numbered_of_infix hwithin k hk

namespace Reading

/-- The number of calls that are written in an expression. -/
def calls (r : Reading) : Nat :=
  match Expr.parse r.text with
  | .ok e => e.calls
  | .error _ => 0

/-- A comprehension binds the placeholder of a nested element. -/
def Binds (r : Reading) : Prop :=
  ∃ e, Expr.parse r.text = .ok e ∧ ∃ p ∈ gapNames r.pieces, p ∈ e.targets

/-- The expression was read, and each placeholder stands in it once: as a leaf, which is replaced by
the call that the nested element became, or as a name that a comprehension binds. -/
structure Placed (template : List Char) (r : Reading) (e : Expr) : Prop where
  source : IsReading template r.pieces
  parse : Expr.parse r.text = .ok e
  once : ∀ p ∈ gapNames r.pieces, e.names.count p + e.targets.count p = 1
  constructions : ∀ part ∈ r.fillings, part.2.IsConstruction
  fill : (e.fill.run r.fillings).1 = e.substitute fun n => r.fillings.lookup n

theorem placed {r : Reading} {e : Expr} (hreading : IsReading template r.pieces)
    (hparse : Expr.parse r.text = .ok e) :
    r.Placed template e where
  source := hreading
  parse := hparse
  once _ hp := hreading.occurs_once hparse hp
  constructions := hreading.constructions
  fill := hreading.fill_eq hparse

end Reading

theorem Expr.IsConstruction.calls_pos {e : Expr} (h : e.IsConstruction) : 0 < e.calls := by
  obtain ⟨path, children, args, rfl⟩ := h
  refine List.count_pos_iff.mpr ?_
  rw [Expr.marks]
  exact List.mem_cons_self

/-! ## Calls in what is filled -/

theorem sum_lookup (hnodup : (parts.map Prod.fst).Nodup) (number : Expr → Nat) (n : String) :
    (parts.map fun part => if part.1 = n then number part.2 else 0).sum =
      ((parts.lookup n).map number).getD 0 := by
  induction parts with
  | nil => rfl
  | cons part rest ih =>
    obtain ⟨name, e⟩ := part
    obtain ⟨hfresh, hnodup⟩ := List.nodup_cons.mp hnodup
    rw [List.map_cons, List.sum_cons, ih hnodup, List.lookup_cons]
    by_cases hname : name = n
    · have hnone : rest.lookup n = none := by
        refine List.lookup_eq_none_iff.mpr fun part hpart => ?_
        rw [bne_iff_ne]
        rintro rfl
        exact hfresh (List.mem_map.mpr ⟨part, hpart, hname.symm⟩)
      simp [hname, hnone]
    · have hne : (n == name) = false := beq_false_of_ne (Ne.symm hname)
      rw [hne, if_neg hname, Nat.zero_add]

theorem sum_count_cons (parts : List (String × Expr)) (n : String) (ns : List String) :
    (parts.map fun part => (n :: ns).count part.1 * part.2.calls).sum =
      (parts.map fun part => if part.1 = n then part.2.calls else 0).sum +
        (parts.map fun part => ns.count part.1 * part.2.calls).sum := by
  have hsplit : ∀ part : String × Expr, (n :: ns).count part.1 * part.2.calls =
      (if part.1 = n then part.2.calls else 0) + ns.count part.1 * part.2.calls := by
    intro part
    rw [List.count_cons]
    by_cases hn : part.1 = n
    · simp [hn, Nat.add_mul, Nat.add_comm]
    · simp [hn, Ne.symm hn]
  simp only [hsplit]
  rw [List.sum_map_add]

theorem count_call_replaced_leaf (hnodup : (parts.map Prod.fst).Nodup) (n : String) :
    (Mark.replaced (marksFor fun n => parts.lookup n) (.leaf n)).count .call =
      (parts.map fun part => if part.1 = n then part.2.calls else 0).sum := by
  rw [sum_lookup hnodup]
  show (((parts.lookup n).map Expr.marks).getD [.leaf n]).count .call = _
  cases parts.lookup n <;> rfl

/-- A call for each call among the marks, and those of what replaces the leaves. -/
theorem count_call_replaced (hnodup : (parts.map Prod.fst).Nodup) (marks : List Mark) :
    (marks.flatMap (Mark.replaced (marksFor fun n => parts.lookup n))).count .call =
      marks.count .call +
        (parts.map fun part => (marks.filterMap Mark.leaf?).count part.1 * part.2.calls).sum := by
  induction marks with
  | nil => simp
  | cons mark rest ih =>
    rw [List.flatMap_cons, List.count_append, ih]
    -- only a leaf may be replaced, and it has at most one filling
    cases mark with
    | leaf n =>
      have hleaf : (Mark.leaf n :: rest).filterMap Mark.leaf? = n :: rest.filterMap Mark.leaf? := rfl
      have hcount : (Mark.leaf n :: rest).count Mark.call = rest.count Mark.call := rfl
      rw [count_call_replaced_leaf hnodup, hleaf, hcount, sum_count_cons]
      omega
    | target n =>
      have hleaf : (Mark.target n :: rest).filterMap Mark.leaf? = rest.filterMap Mark.leaf? := rfl
      have hcount : (Mark.target n :: rest).count Mark.call = rest.count Mark.call := rfl
      have hfirst : (Mark.replaced (marksFor fun n => parts.lookup n) (.target n)).count .call = 0 :=
        rfl
      rw [hleaf, hcount, hfirst, Nat.zero_add]
    | call =>
      have hleaf : (Mark.call :: rest).filterMap Mark.leaf? = rest.filterMap Mark.leaf? := rfl
      have hcount : (Mark.call :: rest).count Mark.call = rest.count Mark.call + 1 :=
        List.count_cons_self
      have hfirst : (Mark.replaced (marksFor fun n => parts.lookup n) .call).count .call = 1 := rfl
      rw [hleaf, hcount, hfirst]
      omega

theorem Expr.calls_substitute (hnodup : (parts.map Prod.fst).Nodup) (e : Expr) :
    (e.substitute fun n => parts.lookup n).calls =
      e.calls + (parts.map fun part => e.names.count part.1 * part.2.calls).sum := by
  rw [Expr.calls, e.marks_substitute, count_call_replaced hnodup, e.lists_marks.names, Expr.calls]

/-! ## Surveys -/

/-- What lowering made, what was read for it and how many elements went into it. -/
structure Survey where
  node : Expr
  readings : List Reading
  elements : Nat

namespace Survey

/-- The number of calls for the elements and of those that are written in the expressions. -/
def total (a : Survey) : Nat :=
  a.elements + (a.readings.map Reading.calls).sum

/-- A comprehension binds the placeholder of a nested element. -/
def Lost (a : Survey) : Prop :=
  ∃ r ∈ a.readings, r.Binds

/-- The survey of a call. -/
def ofCall (path : ConstructorPath) (items : List (FragmentKind × Survey))
    (args : List (String × Survey)) : Survey :=
  let parts := items.map Prod.snd ++ args.map Prod.snd
  { node := path.call (items.map fun item => (item.1, item.2.node))
      (args.map fun arg => (arg.1, arg.2.node))
    readings := parts.flatMap readings
    elements := 1 + (parts.map elements).sum }

/-- The pieces of an expression whose gaps are filled with what was surveyed. -/
def pieces (holes : List (PieceWith Survey)) : List Piece :=
  holes.map fun
    | .copy text start => .copy text start
    | .gap name span a => .gap name span a.node

/-- The survey of an expression that was read. -/
def ofReading (kind : FragmentKind) (node : Expr) (holes : List (PieceWith Survey)) : Survey :=
  let gaps := PieceWith.gaps holes
  { node
    readings := ⟨kind, pieces holes⟩ :: gaps.flatMap (·.2.readings)
    elements := (gaps.map (·.2.elements)).sum }

end Survey

/-- Lowering that surveys what it makes. -/
def Pass.surveyed (ctx : LoweringContext) : Pass Nat Survey where
  literal text := ⟨.str text, [], 0⟩
  call := Survey.ofCall
  placeholder := Lowering.placeholder ctx
  read kind span holes := do
    let fragment ← Numbering.ofExcept (readPieces kind span (Survey.pieces holes))
    return .ofReading kind fragment.node holes

/-- The survey of an element. -/
def Element.survey (template : List Char) (vocabulary : Vocabulary) (e : Element) :
    Except CompileError Survey :=
  let ctx := contextFor template vocabulary
  (((Pass.surveyed ctx).element ctx e).exec 0).1

theorem Pass.counts_surveyed (ctx : LoweringContext) :
    (Pass.surveyed ctx).Counts Survey.elements where
  literal text := rfl
  call path items args := by
    show 1 + ((items.map Prod.snd ++ args.map Prod.snd).map Survey.elements).sum = _
    rw [List.map_append, List.sum_append, List.map_map, List.map_map, Nat.add_assoc]
    rfl
  read := by
    intro kind span holes s a s' hrun
    obtain ⟨f, _, -, h₁⟩ := Numbering.exec_bind_eq_ok hrun
    cases h₁
    rfl

/-- What a survey tells about its expression. -/
structure Survey.Sound (template : List Char) (vocabulary : Vocabulary) (a : Survey) : Prop where
  readings : ∀ r ∈ a.readings, ∃ e, r.Placed template e
  /-- A leaf with the name of a placeholder comes from the vocabulary. -/
  names : ∀ p, IsPlaceholder template p → p ∈ a.node.names →
    ∃ tag path, vocabulary.chain.resolve? tag = some path ∧ p ∈ path.callee.names
  lost_iff_targets : a.Lost ↔ ∃ p, IsPlaceholder template p ∧ p ∈ a.node.targets
  calls_le : a.node.calls ≤ a.total
  lost_iff_calls : a.Lost ↔ a.node.calls < a.total

section

variable {template : List Char} {vocabulary : Vocabulary} {β : Type} {kind : FragmentKind}
  {holes : List (PieceWith Survey)} {e : Expr} {fragments : List Fragment}
  {items : List (FragmentKind × Survey)} {args : List Argument} {pairs : List (String × Survey)}

theorem Survey.sum_total (parts : List β) (f : β → Survey) :
    (parts.map fun b => (f b).total).sum =
      (parts.map fun b => (f b).elements).sum +
        ((parts.flatMap fun b => (f b).readings).map Reading.calls).sum := by
  induction parts with
  | nil => rfl
  | cons b rest ih =>
    rw [List.map_cons, List.sum_cons, ih, List.map_cons, List.sum_cons, List.flatMap_cons,
      List.map_append, List.sum_append, Survey.total]
    omega

/-- Something is lost in one of several parts. -/
theorem exists_lost_iff {parts : List β} {f : β → Survey} :
    (∃ r ∈ parts.flatMap fun b => (f b).readings, r.Binds) ↔ ∃ b ∈ parts, (f b).Lost := by
  constructor
  · rintro ⟨r, hr, hbinds⟩
    obtain ⟨b, hb, hr⟩ := List.mem_flatMap.mp hr
    exact ⟨b, hb, r, hr, hbinds⟩
  · rintro ⟨b, hb, r, hr, hbinds⟩
    exact ⟨r, List.mem_flatMap.mpr ⟨b, hb, hr⟩, hbinds⟩

/-- Sums of numbers that do not exceed others differ where one of the numbers does. -/
theorem sum_lt_iff {parts : List β} {f g : β → Nat} (h : ∀ b ∈ parts, f b ≤ g b) :
    (parts.map f).sum < (parts.map g).sum ↔ ∃ b ∈ parts, f b < g b :=
  ⟨List.exists_lt_of_sum_lt f g, List.sum_lt_sum f g h⟩

theorem Survey.sound_literal (text : String) :
    Survey.Sound template vocabulary ⟨.str text, [], 0⟩ where
  readings := by simp
  names := by simp [Expr.str, Expr.names]
  lost_iff_targets := by simp [Survey.Lost, Expr.str, Expr.targets]
  calls_le := Nat.le_refl 0
  lost_iff_calls := by simp [Survey.Lost, Survey.total, Expr.str, Expr.calls, Expr.marks]

namespace Survey

variable {path : ConstructorPath} {items : List (FragmentKind × Survey)}
  {args : List (String × Survey)}

/-- What a call is made of, beside its callee. -/
def partsOf (items : List (FragmentKind × Survey)) (args : List (String × Survey)) : List Survey :=
  items.map Prod.snd ++ args.map Prod.snd

theorem marks_ofCall : (ofCall path items args).node.marks =
    .call :: (path.callee.marks ++ (partsOf items args).flatMap (·.node.marks)) := by
  show (path.call _ _).marks = _
  rw [path.marks_call, partsOf]
  simp only [List.map_map, List.flatMap_append, List.flatMap_map, Function.comp_def]

theorem total_ofCall : (ofCall path items args).total =
    1 + ((partsOf items args).map (·.total)).sum := by
  have hsum := sum_total (partsOf items args) id
  simp only [id_eq] at hsum
  rw [hsum]
  exact Nat.add_assoc _ _ _

theorem calls_ofCall : (ofCall path items args).node.calls =
    1 + ((partsOf items args).map (·.node.calls)).sum := by
  obtain ⟨n, hn⟩ := path.marks_callee
  rw [Expr.calls, marks_ofCall, hn, List.count_cons_self, List.count_append, List.count_flatMap,
    Nat.add_comm]
  congr 1
  exact Nat.zero_add _

theorem mem_targets_ofCall {p : String} :
    p ∈ (ofCall path items args).node.targets ↔ ∃ a ∈ partsOf items args, p ∈ a.node.targets := by
  rw [← Expr.target_mem_marks, marks_ofCall, List.mem_cons, List.mem_append, List.mem_flatMap]
  constructor
  · rintro (hmem | hmem | ⟨a, ha, hmem⟩)
    · cases hmem
    · -- the callee is a dotted name, which has no target
      obtain ⟨n, hn⟩ := path.marks_callee
      rw [hn, List.mem_singleton] at hmem
      cases hmem
    · exact ⟨a, ha, Expr.target_mem_marks.mp hmem⟩
  · rintro ⟨a, ha, hmem⟩
    exact .inr (.inr ⟨a, ha, Expr.target_mem_marks.mpr hmem⟩)

theorem lost_ofCall : (ofCall path items args).Lost ↔ ∃ a ∈ partsOf items args, a.Lost :=
  exists_lost_iff

/-- A call of a constructor has the calls and the targets of its parts. -/
theorem sound_call {tag : String} (hpath : vocabulary.chain.resolve? tag = some path)
    (hitems : ∀ item ∈ items, item.2.Sound template vocabulary)
    (hargs : ∀ arg ∈ args, arg.2.Sound template vocabulary) :
    (ofCall path items args).Sound template vocabulary := by
  have hsound : ∀ a ∈ partsOf items args, a.Sound template vocabulary := by
    intro a ha
    rw [partsOf, List.mem_append, List.mem_map, List.mem_map] at ha
    rcases ha with ⟨item, hitem, rfl⟩ | ⟨arg, harg, rfl⟩
    · exact hitems item hitem
    · exact hargs arg harg
  have hle : ∀ a ∈ partsOf items args, a.node.calls ≤ a.total :=
    fun a ha => (hsound a ha).calls_le
  refine ⟨?_, ?_, ?_, ?_, ?_⟩
  · intro r hr
    obtain ⟨a, ha, hr⟩ := List.mem_flatMap.mp hr
    exact (hsound a ha).readings r hr
  · intro p hp hmem
    rw [← Expr.leaf_mem_marks, marks_ofCall, List.mem_cons, List.mem_append, List.mem_flatMap] at hmem
    rcases hmem with hmem | hmem | ⟨a, ha, hmem⟩
    · cases hmem
    · exact ⟨tag, path, hpath, Expr.leaf_mem_marks.mp hmem⟩
    · exact (hsound a ha).names p hp (Expr.leaf_mem_marks.mp hmem)
  · rw [lost_ofCall]
    simp only [mem_targets_ofCall]
    constructor
    · rintro ⟨a, ha, hlost⟩
      obtain ⟨p, hp, hmem⟩ := (hsound a ha).lost_iff_targets.mp hlost
      exact ⟨p, hp, a, ha, hmem⟩
    · rintro ⟨p, hp, a, ha, hmem⟩
      exact ⟨a, ha, (hsound a ha).lost_iff_targets.mpr ⟨p, hp, hmem⟩⟩
  · rw [calls_ofCall, total_ofCall]
    exact Nat.add_le_add_left (List.sum_le_sum hle) 1
  · rw [lost_ofCall, calls_ofCall, total_ofCall, Nat.add_lt_add_iff_left, sum_lt_iff hle]
    exact exists_congr fun a => and_congr_right fun ha => (hsound a ha).lost_iff_calls

end Survey

/-- What replaces the leaves of an expression that was read. -/
def Survey.fillings (gaps : List (String × Survey)) : List (String × Expr) :=
  gaps.map fun gap => (gap.1, gap.2.node)

theorem Survey.filling_pieces (holes : List (PieceWith Survey)) :
    (Survey.pieces holes).filterMap Piece.filling? = Survey.fillings (PieceWith.gaps holes) := by
  induction holes with
  | nil => rfl
  | cons hole rest ih =>
    cases hole with
    | copy text start => exact ih
    | gap name span a => exact congrArg ((name, a.node) :: ·) ih

theorem Survey.gapNames_pieces (holes : List (PieceWith Survey)) :
    gapNames (Survey.pieces holes) = (PieceWith.gaps holes).map Prod.fst := by
  rw [gapNames, Survey.filling_pieces, Survey.fillings, List.map_map]
  rfl

/-- What is surveyed for the gaps of an expression that was read. -/
structure Survey.Fits (template : List Char) (vocabulary : Vocabulary) (e : Expr)
    (gaps : List (String × Survey)) : Prop where
  sound : ∀ gap ∈ gaps, gap.2.Sound template vocabulary
  nodup : (gaps.map Prod.fst).Nodup
  placeholder : ∀ gap ∈ gaps, IsPlaceholder template gap.1
  calls_pos : ∀ gap ∈ gaps, 0 < gap.2.node.calls
  once : ∀ gap ∈ gaps, e.names.count gap.1 + e.targets.count gap.1 = 1
  others : ∀ n, n ∈ e.names ∨ n ∈ e.targets → n ∈ gaps.map Prod.fst ∨ n.toList <:+: template

namespace Survey.Fits

variable {e : Expr} {gaps : List (String × Survey)} {gap : String × Survey}

theorem exists_gap_of_lookup {n : String} {c : Expr} (h : (fillings gaps).lookup n = some c) :
    ∃ gap ∈ gaps, gap.1 = n ∧ gap.2.node = c := by
  obtain ⟨gap, hgap, heq⟩ := List.mem_map.mp (Entries.mem_of_lookup h)
  cases heq
  exact ⟨gap, hgap, rfl, rfl⟩

theorem nodup_fillings (h : Survey.Fits template vocabulary e gaps) :
    ((fillings gaps).map Prod.fst).Nodup := by
  rw [fillings, List.map_map]
  exact h.nodup

theorem lookup (h : Survey.Fits template vocabulary e gaps) (hgap : gap ∈ gaps) :
    (fillings gaps).lookup gap.1 = some gap.2.node := by
  cases hlookup : (fillings gaps).lookup gap.1 with
  | none =>
    have hnone := List.lookup_eq_none_iff.mp hlookup _ (List.mem_map_of_mem hgap)
    simp at hnone
  | some c =>
    obtain ⟨other, hother, hname, rfl⟩ := exists_gap_of_lookup hlookup
    rw [List.inj_on_of_nodup_map h.nodup hother hgap hname]

/-- The call of a nested element is lost if the element is bound, and its parts may be. -/
theorem lost_iff (h : Survey.Fits template vocabulary e gaps) (hgap : gap ∈ gaps) :
    e.names.count gap.1 * gap.2.node.calls ≤ gap.2.total ∧
      (e.names.count gap.1 * gap.2.node.calls < gap.2.total ↔
        gap.1 ∈ e.targets ∨ gap.2.Lost) := by
  have honce := h.once gap hgap
  have hle := (h.sound gap hgap).calls_le
  have hpos := h.calls_pos gap hgap
  -- the placeholder stands in the expression once: not as a leaf, so it is bound, or as a leaf only
  by_cases hleaf : e.names.count gap.1 = 0
  · have hbound : gap.1 ∈ e.targets := List.count_pos_iff.mp (by omega)
    rw [hleaf, Nat.zero_mul]
    exact ⟨Nat.zero_le _, fun _ => .inl hbound, fun _ => by omega⟩
  · have hone : e.names.count gap.1 = 1 := by omega
    have hfree : gap.1 ∉ e.targets := List.count_eq_zero.mp (by omega)
    rw [hone, Nat.one_mul]
    refine ⟨hle, ?_⟩
    rw [← (h.sound gap hgap).lost_iff_calls]
    exact ⟨.inr, fun hor => hor.resolve_left hfree⟩

/-- A placeholder that is left as a target was bound, here or inside of a nested element. -/
theorem exists_target_iff (h : Survey.Fits template vocabulary e gaps) :
    (∃ p, IsPlaceholder template p ∧
        p ∈ (e.substitute fun n => (fillings gaps).lookup n).targets) ↔
      ∃ gap ∈ gaps, gap.1 ∈ e.targets ∨ gap.2.Lost := by
  constructor
  · rintro ⟨p, hp, hmem⟩
    rw [← Expr.target_mem_marks, Expr.mem_marks_substitute] at hmem
    rcases hmem with ⟨hmem, -⟩ | ⟨n, c, -, hlookup, hmem⟩
    · have htarget := Expr.target_mem_marks.mp hmem
      rcases h.others p (.inr htarget) with hname | hwithin
      · obtain ⟨gap, hgap, rfl⟩ := List.mem_map.mp hname
        exact ⟨gap, hgap, .inl htarget⟩
      · exact absurd hwithin hp.not_infix
    · obtain ⟨gap, hgap, -, rfl⟩ := exists_gap_of_lookup hlookup
      have htarget := Expr.target_mem_marks.mp hmem
      exact ⟨gap, hgap, .inr ((h.sound gap hgap).lost_iff_targets.mpr ⟨p, hp, htarget⟩)⟩
  · rintro ⟨gap, hgap, hlost⟩
    by_cases hbound : gap.1 ∈ e.targets
    · refine ⟨gap.1, h.placeholder gap hgap, ?_⟩
      rw [← Expr.target_mem_marks, Expr.mem_marks_substitute]
      exact .inl ⟨Expr.target_mem_marks.mpr hbound, fun _ hleaf => nomatch hleaf⟩
    · -- not bound, so it is a leaf, and what is lost inside of it shows in its place
      have hleaf : gap.1 ∈ e.names := by
        have honce := h.once gap hgap
        have hfree := List.count_eq_zero.mpr hbound
        exact List.count_pos_iff.mp (by omega)
      obtain ⟨p, hp, htarget⟩ :=
        (h.sound gap hgap).lost_iff_targets.mp (hlost.resolve_left hbound)
      refine ⟨p, hp, ?_⟩
      rw [← Expr.target_mem_marks, Expr.mem_marks_substitute]
      exact .inr ⟨gap.1, _, hleaf, h.lookup hgap, Expr.target_mem_marks.mpr htarget⟩

/-- No placeholder is left as a leaf. -/
theorem exists_path (h : Survey.Fits template vocabulary e gaps) {p : String}
    (hp : IsPlaceholder template p)
    (hmem : p ∈ (e.substitute fun n => (fillings gaps).lookup n).names) :
    ∃ tag path, vocabulary.chain.resolve? tag = some path ∧ p ∈ path.callee.names := by
  rw [← Expr.leaf_mem_marks, Expr.mem_marks_substitute] at hmem
  rcases hmem with ⟨hmem, hkept⟩ | ⟨n, c, -, hlookup, hmem⟩
  · rcases h.others p (.inl (Expr.leaf_mem_marks.mp hmem)) with hname | hwithin
    · -- a leaf with a filling is not kept
      obtain ⟨gap, hgap, rfl⟩ := List.mem_map.mp hname
      have hnone := hkept gap.1 rfl
      rw [h.lookup hgap] at hnone
      cases hnone
    · exact absurd hwithin hp.not_infix
  · obtain ⟨gap, hgap, -, rfl⟩ := exists_gap_of_lookup hlookup
    exact (h.sound gap hgap).names p hp (Expr.leaf_mem_marks.mp hmem)

end Survey.Fits

theorem Survey.fits_of_isReading (hreading : IsReading template (Survey.pieces holes))
    (hparse : Expr.parse (spliceExpr kind (Survey.pieces holes)).text = .ok e)
    (hgaps : ∀ gap ∈ PieceWith.gaps holes, gap.2.Sound template vocabulary) :
    Survey.Fits template vocabulary e (PieceWith.gaps holes) := by
  have hnames := Survey.gapNames_pieces holes
  have hmem : ∀ gap ∈ PieceWith.gaps holes, gap.1 ∈ gapNames (Survey.pieces holes) := by
    intro gap hgap
    rw [hnames]
    exact List.mem_map_of_mem hgap
  refine ⟨hgaps, hnames ▸ hreading.nodup, fun gap hgap => hreading.names _ (hmem gap hgap), ?_,
    fun gap hgap => hreading.occurs_once hparse (hmem gap hgap), ?_⟩
  · intro gap hgap
    refine (hreading.constructions (gap.1, gap.2.node) ?_).calls_pos
    rw [Survey.filling_pieces]
    exact List.mem_map.mpr ⟨gap, hgap, rfl⟩
  · intro n hn
    rw [← hnames]
    exact hreading.name_from hparse hn

theorem Survey.total_ofReading
    (hparse : Expr.parse (spliceExpr kind (Survey.pieces holes)).text = .ok e) (node : Expr) :
    (Survey.ofReading kind node holes).total =
      e.calls + ((PieceWith.gaps holes).map fun gap => gap.2.total).sum := by
  have hcalls : Reading.calls ⟨kind, Survey.pieces holes⟩ = e.calls := by
    unfold Reading.calls Reading.text
    rw [hparse]
  show ((PieceWith.gaps holes).map (·.2.elements)).sum +
    (Reading.calls ⟨kind, Survey.pieces holes⟩ ::
      ((PieceWith.gaps holes).flatMap (·.2.readings)).map Reading.calls).sum = _
  rw [Survey.sum_total, List.sum_cons, hcalls]
  omega

theorem Survey.lost_ofReading
    (hparse : Expr.parse (spliceExpr kind (Survey.pieces holes)).text = .ok e) (node : Expr) :
    (Survey.ofReading kind node holes).Lost ↔
      ∃ gap ∈ PieceWith.gaps holes, gap.1 ∈ e.targets ∨ gap.2.Lost := by
  have hbinds : Reading.Binds ⟨kind, Survey.pieces holes⟩ ↔
      ∃ gap ∈ PieceWith.gaps holes, gap.1 ∈ e.targets := by
    unfold Reading.Binds Reading.text
    rw [hparse, Survey.gapNames_pieces]
    constructor
    · rintro ⟨_, heq, p, hp, hmem⟩
      cases heq
      obtain ⟨gap, hgap, rfl⟩ := List.mem_map.mp hp
      exact ⟨gap, hgap, hmem⟩
    · rintro ⟨gap, hgap, hmem⟩
      exact ⟨e, rfl, gap.1, List.mem_map_of_mem hgap, hmem⟩
  show (∃ r ∈ ⟨kind, Survey.pieces holes⟩ :: (PieceWith.gaps holes).flatMap (·.2.readings),
    r.Binds) ↔ _
  rw [List.exists_mem_cons_iff, hbinds, exists_lost_iff, ← exists_or]
  refine exists_congr fun gap => ?_
  rw [← and_or_left]

/-- In an expression, each nested element is a leaf that its call replaces, or is bound and lost. -/
theorem Survey.sound_reading (hreading : IsReading template (Survey.pieces holes))
    (hparse : Expr.parse (spliceExpr kind (Survey.pieces holes)).text = .ok e)
    (hgaps : ∀ gap ∈ PieceWith.gaps holes, gap.2.Sound template vocabulary) :
    Survey.Sound template vocabulary
      (.ofReading kind (e.fill.run ((Survey.pieces holes).filterMap Piece.filling?)).1 holes) := by
  have hfits := Survey.fits_of_isReading hreading hparse hgaps
  rw [hreading.fill_eq hparse, Survey.filling_pieces]
  have hcalls : (e.substitute fun n => (Survey.fillings (PieceWith.gaps holes)).lookup n).calls =
      e.calls +
        ((PieceWith.gaps holes).map fun gap => e.names.count gap.1 * gap.2.node.calls).sum := by
    rw [Expr.calls_substitute hfits.nodup_fillings, Survey.fillings, List.map_map]
    rfl
  have hle : ∀ gap ∈ PieceWith.gaps holes,
      e.names.count gap.1 * gap.2.node.calls ≤ gap.2.total :=
    fun gap hgap => (hfits.lost_iff hgap).1
  refine ⟨?_, fun p hp hmem => hfits.exists_path hp hmem, ?_, ?_, ?_⟩
  · intro r hr
    rcases List.mem_cons.mp hr with rfl | hr
    · exact ⟨e, Reading.placed hreading hparse⟩
    · obtain ⟨gap, hgap, hr⟩ := List.mem_flatMap.mp hr
      exact (hgaps gap hgap).readings r hr
  · rw [Survey.lost_ofReading hparse]
    exact hfits.exists_target_iff.symm
  · rw [Survey.total_ofReading hparse]
    show (e.substitute _).calls ≤ _
    rw [hcalls]
    exact Nat.add_le_add_left (List.sum_le_sum hle) _
  · rw [Survey.lost_ofReading hparse, Survey.total_ofReading hparse]
    show _ ↔ (e.substitute _).calls < _
    rw [hcalls, Nat.add_lt_add_iff_left, sum_lt_iff hle]
    refine exists_congr fun gap => and_congr_right fun hgap => ?_
    exact (hfits.lost_iff hgap).2.symm

/-! ## The survey of a template -/

/-- An expression and its survey. -/
def Surveys (template : List Char) (vocabulary : Vocabulary) (_ : FragmentKind) (x : Expr)
    (a : Survey) : Prop :=
  a.node = x ∧ a.Sound template vocabulary

theorem sound_of_itemRel
    (h : List.Forall₂ (ItemRel (Surveys template vocabulary)) fragments items) :
    ∀ item ∈ items, item.2.Sound template vocabulary := by
  induction h with
  | nil => simp
  | cons hitem _ ih => exact List.forall_mem_cons.mpr ⟨hitem.2.2, ih⟩

theorem sound_of_argumentRel
    (h : List.Forall₂ (ArgumentRel (Surveys template vocabulary)) args pairs) :
    ∀ pair ∈ pairs, pair.2.Sound template vocabulary := by
  induction h with
  | nil => simp
  | cons harg _ ih =>
    obtain ⟨kind, value, -, -, hsound⟩ := harg
    exact List.forall_mem_cons.mpr ⟨hsound, ih⟩

theorem pieces_of_pieceRel {pieces : List Piece}
    (h : List.Forall₂ (PieceRel (Surveys template vocabulary)) pieces holes) :
    Survey.pieces holes = pieces ∧
      ∀ gap ∈ PieceWith.gaps holes, gap.2.Sound template vocabulary := by
  induction h with
  | nil => exact ⟨rfl, fun _ hgap => absurd hgap List.not_mem_nil⟩
  | cons hpiece _ ih =>
    obtain ⟨hpieces, hgaps⟩ := ih
    cases hpiece with
    | copy text start => exact ⟨congrArg (Piece.copy text start :: ·) hpieces, hgaps⟩
    | gap name span hfilling =>
      obtain ⟨rfl, hsound⟩ := hfilling
      refine ⟨congrArg (Piece.gap name span _ :: ·) hpieces, ?_⟩
      exact List.forall_mem_cons.mpr ⟨hsound, hgaps⟩

theorem Surveys.call {tag : String} {path : ConstructorPath}
    (hpath : vocabulary.chain.resolve? tag = some path)
    (hitems : List.Forall₂ (ItemRel (Surveys template vocabulary)) fragments items)
    (hargs : List.Forall₂ (ArgumentRel (Surveys template vocabulary)) args pairs) :
    Surveys template vocabulary .scalar
      (.call path.callee (.keyword "children" (Fragment.merge fragments).node :: args))
      (.ofCall path items pairs) := by
  refine ⟨?_, Survey.sound_call hpath (sound_of_itemRel hitems) (sound_of_argumentRel hargs)⟩
  refine (SameExpr.call ?_ ?_).symm
  · refine List.forall₂_map_right_iff.mpr (hitems.imp ?_)
    rintro f item ⟨hkind, hnode, -⟩
    exact ⟨hkind, hnode.symm⟩
  · refine List.forall₂_map_right_iff.mpr (hargs.imp ?_)
    rintro arg pair ⟨kind, value, rfl, hnode, -⟩
    exact ⟨kind, value, rfl, hnode.symm⟩

end

/-- The pass lowers and surveys what it makes. -/
theorem Pass.simulates_surveyed (template : List Char) (vocabulary : Vocabulary) :
    (Pass.surveyed (contextFor template vocabulary)).Simulates (Surveys template vocabulary)
      (fun n s => n = s) (contextFor template vocabulary) (fun source => source.IsFrom template)
      where
  literal text := ⟨rfl, Survey.sound_literal text⟩
  call hpath hitems hargs _ := Surveys.call hpath hitems hargs
  placeholder n := by
    rintro _ rfl
    exact ⟨rfl, rfl⟩
  read := by
    intro kind source n n' pieces holes hfrom hrun hpieces
    obtain ⟨rfl, hgaps⟩ := pieces_of_pieceRel hpieces
    have hreading := (piecesFrom_of_exec hrun).isReading hfrom
    unfold Pass.surveyed
    dsimp only
    refine SimAt.map_right (SimAt.ofExcept _) ?_
    rintro f _ ⟨rfl, hread⟩
    obtain ⟨e, hparse, rfl⟩ := readPieces_eq_ok hread
    exact ⟨rfl, rfl, Survey.sound_reading hreading hparse hgaps⟩

theorem Element.survey_spec {vocabulary : Vocabulary} {e : Element} {x : Expr}
    (hsources : ∀ source ∈ e.sources, source.IsFrom template)
    (h : e.lower template vocabulary = .ok x) :
    ∃ a, e.survey template vocabulary = .ok a ∧ a.node = x ∧ a.Sound template vocabulary ∧
      a.elements = e.elements.length := by
  obtain ⟨a, s', hrun, hnode, hsound⟩ :=
    (Pass.simulates_surveyed template vocabulary).exists_of_lower rfl hsources h
  refine ⟨a, congrArg Prod.fst hrun, hnode, hsound, ?_⟩
  exact (Pass.counts_surveyed _).part (.element e) e.tag [] hrun

/-- Every element of a template that compiles, nested ones included, is one call of the compiled
expression, beside the calls that are written in embedded expressions, exactly if no comprehension
binds a placeholder. Otherwise a placeholder is left, as the name that is bound there. In any case no
placeholder is left as a leaf: each leaf is replaced by the call of its nested element. -/
theorem Template.nested_elements_kept_iff {vocabulary : Vocabulary} {text : List Char} {t : Template}
    (h : Template.compile vocabulary text = .ok t) :
    ∃ tree root survey, Node.parse text = .ok tree ∧ Element.ofNode text tree = .ok root ∧
      root.survey text vocabulary = .ok survey ∧ survey.node = t.expr ∧
      (∀ r ∈ survey.readings, ∃ e, r.Placed text e) ∧
      (∀ p, IsPlaceholder text p → p ∈ t.expr.names →
        ∃ tag path, vocabulary.chain.resolve? tag = some path ∧ p ∈ path.callee.names) ∧
      ((∀ p, IsPlaceholder text p → p ∉ t.expr.targets) ↔ ∀ r ∈ survey.readings, ¬ r.Binds) ∧
      (t.expr.calls = root.elements.length + (survey.readings.map Reading.calls).sum ↔
        ∀ r ∈ survey.readings, ¬ r.Binds) := by
  obtain ⟨tree, root, hparse, hroot, hfrom, hlower⟩ := Template.exists_of_compile h
  obtain ⟨a, hsurvey, hnode, hsound, hcount⟩ := Element.survey_spec hfrom.isFrom hlower
  have hkept : (∀ r ∈ a.readings, ¬ r.Binds) ↔ ¬ a.Lost := by simp [Survey.Lost]
  refine ⟨tree, root, a, hparse, hroot, hsurvey, hnode, hsound.readings, ?_, ?_, ?_⟩
  · rw [← hnode]
    exact hsound.names
  · rw [← hnode, hkept, hsound.lost_iff_targets]
    simp
  · rw [← hnode, hkept, hsound.lost_iff_calls, ← hcount]
    have hle := hsound.calls_le
    unfold Survey.total at hle ⊢
    omega

/-- An element inside of another that a comprehension repeats: three calls for elements and one that
is written. -/
theorem Template.nested_elements_kept_iff_of_repeated :
    ∃ (t : Template) (root : Element) (survey : Survey),
      Template.compile .shared "<ul>[(<li>{f((<b/>))}</li>) for x in xs]</ul>".toList = .ok t ∧
      root.survey "<ul>[(<li>{f((<b/>))}</li>) for x in xs]</ul>".toList .shared = .ok survey ∧
      t.expr.targets = ["x"] ∧ t.expr.calls = 4 ∧ root.elements.length = 3 ∧
      (t.expr.calls = root.elements.length + (survey.readings.map Reading.calls).sum ↔
        ∀ r ∈ survey.readings, ¬ r.Binds) := by
  have hread : ∃ tree root,
      Node.parse "<ul>[(<li>{f((<b/>))}</li>) for x in xs]</ul>".toList = .ok tree ∧
      Element.ofNode "<ul>[(<li>{f((<b/>))}</li>) for x in xs]</ul>".toList tree = .ok root ∧
      ((root.lower "<ul>[(<li>{f((<b/>))}</li>) for x in xs]</ul>".toList .shared).toOption.map
        fun x => (x.targets, x.calls)) = some (["x"], 4) ∧ root.elements.length = 3 := by
    refine ⟨?tree, ?root, ?parse, ?reduce, ?lower, ?count⟩
    case parse => set_option maxRecDepth 2000 in cbv; rfl
    case reduce => cbv; rfl
    case lower => decide +kernel
    case count => rfl
  obtain ⟨tree, root, hparse, hroot, hlower, hcount⟩ := hread
  obtain ⟨t, ht, hfacts⟩ := Template.exists_of_lower hparse hroot hlower
  obtain ⟨htargets, hcalls'⟩ := Prod.mk.inj hfacts
  obtain ⟨tree', root', survey, hparse', hroot', hsurvey, -, -, -, -, hcalls⟩ :=
    Template.nested_elements_kept_iff ht
  cases hparse.symm.trans hparse'
  cases hroot.symm.trans hroot'
  exact ⟨t, root, survey, ht, hsurvey, htargets, hcalls', hcount, hcalls⟩

/-- A comprehension that binds a nested element loses it: only the call of the root is left, and the
placeholder of the element stays as a target. -/
theorem Template.nested_element_lost :
    ∃ t tree root, Template.compile .shared "<div>{[1 for (<b/>) in xs]}</div>".toList = .ok t ∧
      Node.parse "<div>{[1 for (<b/>) in xs]}</div>".toList = .ok tree ∧
      Element.ofNode "<div>{[1 for (<b/>) in xs]}</div>".toList tree = .ok root ∧
      root.elements.length = 2 ∧ t.expr.calls = 1 ∧ t.expr.targets = ["__htexpr_0"] := by
  have hread : ∃ tree root,
      Node.parse "<div>{[1 for (<b/>) in xs]}</div>".toList = .ok tree ∧
      Element.ofNode "<div>{[1 for (<b/>) in xs]}</div>".toList tree = .ok root ∧
      ((root.lower "<div>{[1 for (<b/>) in xs]}</div>".toList .shared).toOption.map
        fun x => (x.calls, x.targets)) = some (1, ["__htexpr_0"]) ∧ root.elements.length = 2 := by
    refine ⟨?tree, ?root, ?parse, ?reduce, ?lower, ?count⟩
    case parse => cbv; rfl
    case reduce => cbv; rfl
    case lower => decide +kernel
    case count => rfl
  obtain ⟨tree, root, hparse, hroot, hlower, hcount⟩ := hread
  obtain ⟨t, ht, hfacts⟩ := Template.exists_of_lower hparse hroot hlower
  obtain ⟨hcalls, htargets⟩ := Prod.mk.inj hfacts
  exact ⟨t, tree, root, ht, hparse, hroot, hcount, hcalls, htargets⟩

end ComponentMarkup
