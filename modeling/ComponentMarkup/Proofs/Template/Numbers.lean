import ComponentMarkup.Proofs.Template.Passes
import ComponentMarkup.Proofs.Template.Placeholders
import ComponentMarkup.Proofs.Template.Readings

/-!
# Lowering as a pass

Lowering is itself a pass, and simulating it tells what a run does to the counter: no number is given
out twice. The placeholders of an expression are therefore those with some ascending numbers, although
lowering the elements between them takes numbers too.
-/

namespace ComponentMarkup

variable {fragments : List Fragment} {items : List (FragmentKind × Expr)} {args : List Argument}
  {pairs : List (String × Expr)} {pieces : List Lowering.Piece} {ctx : LoweringContext}
  {e : Element} {n n' : Nat}

/-! ## The pass -/

/-- A piece whose gap is filled with an expression. -/
def PieceWith.piece : PieceWith Expr → Lowering.Piece
  | .copy text start => .copy text start
  | .gap name span filling => .gap name span filling

/-- The call that lowering makes. -/
def ConstructorPath.call (path : ConstructorPath) (items : List (FragmentKind × Expr))
    (args : List (String × Expr)) : Expr :=
  let fragments := items.map fun item => Fragment.mk item.1 item.2
  .call path.callee (.keyword "children" (Fragment.merge fragments).node ::
    args.map fun arg => .keyword arg.1 arg.2)

/-- Lowering as a pass. -/
def Pass.lowering (ctx : LoweringContext) : Pass Nat Expr where
  literal := .str
  call := ConstructorPath.call
  placeholder := Lowering.placeholder ctx
  read kind span holes := do
    let fragment ← Numbering.ofExcept (Lowering.readPieces kind span (holes.map PieceWith.piece))
    return fragment.node

/-- The same expression. -/
def SameExpr (_ : FragmentKind) (e e' : Expr) : Prop :=
  e = e'

theorem map_mk_of_itemRel (h : List.Forall₂ (ItemRel SameExpr) fragments items) :
    (items.map fun item => Fragment.mk item.1 item.2) = fragments := by
  induction h with
  | nil => rfl
  | @cons f item fragments items hitem _ ih =>
    have hnode : f.node = item.2 := hitem.2
    rw [List.map_cons, ih, ← hitem.1, ← hnode]

theorem map_keyword_of_argumentRel (h : List.Forall₂ (ArgumentRel SameExpr) args pairs) :
    (pairs.map fun pair => Argument.keyword pair.1 pair.2) = args := by
  induction h with
  | nil => rfl
  | @cons arg pair args pairs harg _ ih =>
    obtain ⟨_, value, rfl, hvalue⟩ := harg
    have hvalue : value = pair.2 := hvalue
    rw [List.map_cons, ih, ← hvalue]

theorem map_piece_of_pieceRel {holes : List (PieceWith Expr)}
    (h : List.Forall₂ (PieceRel SameExpr) pieces holes) : holes.map PieceWith.piece = pieces := by
  induction h with
  | nil => rfl
  | cons hpiece _ ih =>
    rw [List.map_cons, ih]
    cases hpiece with
    | copy text start => rfl
    | gap name span hfilling =>
      rw [← hfilling]
      rfl

theorem SameExpr.call {path : ConstructorPath}
    (hitems : List.Forall₂ (ItemRel SameExpr) fragments items)
    (hargs : List.Forall₂ (ArgumentRel SameExpr) args pairs) :
    SameExpr .scalar
      (.call path.callee (.keyword "children" (Fragment.merge fragments).node :: args))
      (path.call items pairs) := by
  unfold SameExpr ConstructorPath.call
  rw [map_mk_of_itemRel hitems, map_keyword_of_argumentRel hargs]

theorem readPieces_eq_ok {kind : FragmentKind} {span : Span} {f : Fragment}
    (h : Lowering.readPieces kind span pieces = .ok f) :
    ∃ e, Expr.parse (Lowering.spliceExpr kind pieces).text = .ok e ∧
      f = ⟨kind, (e.fill.run (pieces.filterMap Lowering.Piece.filling?)).1⟩ := by
  unfold Lowering.readPieces at h
  dsimp only at h
  split at h
  · rename_i e he
    cases h
    exact ⟨e, he, rfl⟩
  · cases h

/-! ## The counter -/

theorem exec_placeholder (ctx : LoweringContext) (n : Nat) :
    Numbering.exec (Lowering.placeholder ctx) n =
      (.ok (Lowering.numbered ctx.stem n), n + 1) := rfl

/-- What is kept when a number is given out. -/
theorem Pass.simulates_lowering (ctx : LoweringContext) {P : Nat → Prop}
    (hP : ∀ n, P n → P (n + 1)) :
    (Pass.lowering ctx).Simulates SameExpr (fun n s => n = s ∧ P n) ctx (fun _ => True) where
  literal text := rfl
  call _ hitems hargs _ := SameExpr.call hitems hargs
  placeholder n := by
    rintro _ ⟨rfl, hn⟩
    exact ⟨⟨rfl, hP n hn⟩, rfl⟩
  read := by
    intro kind source n n' pieces holes _ _ hpieces
    unfold Pass.lowering
    dsimp only
    rw [map_piece_of_pieceRel hpieces]
    refine SimAt.map_right (SimAt.ofExcept _) ?_
    rintro f _ ⟨rfl, hread⟩
    obtain ⟨e, -, rfl⟩ := readPieces_eq_ok hread
    exact ⟨rfl, rfl⟩

theorem le_of_exec_element {r : Except CompileError Expr}
    (h : Numbering.exec (Lowering.element ctx e) n = (r, n')) : n ≤ n' := by
  have hstep : ∀ k, n ≤ k → n ≤ k + 1 := fun k hk => Nat.le_succ_of_le hk
  have hsim := Pass.simAt_element (Pass.simulates_lowering ctx hstep) e (fun _ _ => trivial) n
  have hagree := hsim n ⟨rfl, Nat.le_refl n⟩
  rw [h] at hagree
  exact hagree.1.2

/-! ## Runs that succeed -/

theorem Numbering.exec_bind_eq_ok {σ α β : Type} {x : Numbering σ α} {f : α → Numbering σ β}
    {s s' : σ} {b : β} (h : Numbering.exec (x >>= f) s = (.ok b, s')) :
    ∃ a s₁, Numbering.exec x s = (.ok a, s₁) ∧ Numbering.exec (f a) s₁ = (.ok b, s') := by
  rw [Numbering.exec_bind] at h
  rcases hx : Numbering.exec x s with ⟨_ | a, s₁⟩
  · rw [hx] at h
    cases h
  · rw [hx] at h
    exact ⟨a, s₁, rfl, h⟩

/-- An element becomes the call of its constructor. -/
def Expr.IsConstruction (e : Expr) : Prop :=
  ∃ path children args,
    e = .call (ConstructorPath.callee path) (.keyword "children" children :: args)

theorem isConstruction_of_exec {x : Expr}
    (h : Numbering.exec (Lowering.element ctx e) n = (.ok x, n')) : x.IsConstruction := by
  obtain ⟨tag, attrs, content, span⟩ := e
  rw [Lowering.element] at h
  split at h
  · cases h
  · obtain ⟨path, _, -, h₁⟩ := Numbering.exec_bind_eq_ok h
    obtain ⟨children, _, -, h₂⟩ := Numbering.exec_bind_eq_ok h₁
    obtain ⟨args, _, -, h₃⟩ := Numbering.exec_bind_eq_ok h₂
    cases h₃
    exact ⟨path, _, args, rfl⟩

namespace Lowering

variable {segments : List Segment}

/-- What the pieces of an expression are, after a run from one number to another. -/
structure PiecesFrom (ctx : LoweringContext) (segments : List Segment) (n n' : Nat)
    (pieces : List Piece) : Prop where
  aligned : List.Forall₂ PieceOf segments pieces
  constructions : ∀ part ∈ pieces.filterMap Piece.filling?, part.2.IsConstruction
  le : n ≤ n'
  /-- The numbers of the placeholders ascend between the two. -/
  numbers : ∃ ks : List Nat, gapNames pieces = ks.map (numbered ctx.stem) ∧
    ks.Pairwise (· < ·) ∧ ∀ k ∈ ks, n ≤ k ∧ k < n'

theorem piecesFrom_of_exec {pieces : List Piece}
    (h : Numbering.exec (Lowering.pieces ctx segments) n = (.ok pieces, n')) :
    PiecesFrom ctx segments n n' pieces := by
  induction segments generalizing n pieces with
  | nil =>
    cases h
    exact ⟨.nil, by simp, Nat.le_refl _, [], rfl, .nil, by simp⟩
  | cons segment rest ih =>
    obtain ⟨text, span, _ | e⟩ := segment
    · rw [Lowering.pieces] at h
      obtain ⟨more, _, hmore, h₁⟩ := Numbering.exec_bind_eq_ok h
      cases h₁
      obtain ⟨haligned, hcalls, hle, hnumbers⟩ := ih hmore
      exact ⟨.cons (.copy text span) haligned, hcalls, hle, hnumbers⟩
    · rw [Lowering.pieces] at h
      obtain ⟨filling, n₁, hfilling, h₁⟩ := Numbering.exec_bind_eq_ok h
      obtain ⟨name, n₂, hname, h₂⟩ := Numbering.exec_bind_eq_ok h₁
      obtain ⟨more, _, hmore, h₃⟩ := Numbering.exec_bind_eq_ok h₂
      rw [exec_placeholder] at hname
      cases hname
      cases h₃
      -- the nested element takes its numbers first, then the gap takes the next one
      have hfirst := le_of_exec_element hfilling
      obtain ⟨haligned, hcalls, hle, ks, hnames, hsorted, hbounds⟩ := ih hmore
      refine ⟨.cons (.gap text span e _ filling) haligned,
        List.forall_mem_cons.mpr ⟨isConstruction_of_exec hfilling, hcalls⟩, by omega, n₁ :: ks,
        ?_, ?_, ?_⟩
      · rw [List.map_cons, ← hnames]
        rfl
      · refine List.pairwise_cons.mpr ⟨?_, hsorted⟩
        intro k hk
        have hk := hbounds k hk
        omega
      · intro k hk
        rcases List.mem_cons.mp hk with rfl | hk
        · omega
        · have hk := hbounds k hk
          omega

theorem PiecesFrom.nodup {pieces : List Piece} (h : PiecesFrom ctx segments n n' pieces) :
    (gapNames pieces).Nodup := by
  obtain ⟨ks, hnames, hsorted, -⟩ := h.numbers
  rw [hnames, List.Nodup, List.pairwise_map]
  refine hsorted.imp ?_
  intro i j hlt heq
  exact absurd (numbered_inj heq) (Nat.ne_of_lt hlt)

end Lowering

end ComponentMarkup
