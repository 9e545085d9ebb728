import ComponentMarkup.Eval.Basic
import ComponentMarkup.Expr.Names

/-!
# Expressions with holes

Names may be given a meaning that depends on the scope at the place where they stand. Replacing names
by expressions and evaluating the result is the same as evaluating with the meanings of these
expressions as holes.
-/

namespace ComponentMarkup

/-- Give names a meaning in a scope and in the scopes inside of it. -/
def Scope.fill (meanings : String → Option (Scope → Eval Value)) (scope : Scope) : Scope where
  frames := scope.frames
  layers := scope.layers
  holes n :=
    match meanings n with
    | some meaning => some fun frames => meaning { scope with frames }
    | none => scope.holes n

theorem Scope.enter_fill (meanings : String → Option (Scope → Eval Value)) (scope : Scope)
    (frame : Bindings) : (scope.fill meanings).enter frame = (scope.enter frame).fill meanings :=
  rfl

/-! ## Slices -/

/-- The expression is a slice, which has no value of its own. -/
def Expr.isSlice : Expr → Bool
  | .slice .. => true
  | _ => false

theorem Expr.isSlice_substitute {f : String → Option Expr}
    (hf : ∀ n c, f n = some c → c.isSlice = false) (e : Expr) :
    (e.substitute f).isSlice = e.isSlice := by
  cases e with
  | name n =>
    rw [Expr.substitute]
    cases hn : f n with
    | none => rfl
    | some c => exact hf n c hn
  | _ => rfl

variable [Natives]

/-- A subscript with an index that is no slice. -/
theorem Expr.eval_subscript {index : Expr} (h : index.isSlice = false) (e : Expr) (scope : Scope) :
    (Expr.subscript e index).eval scope =
      (do
        let v ← e.eval scope
        v.subscript (← index.eval scope)) := by
  cases index with
  | slice lower upper step => cases h
  | _ => rfl

/-! ## Filling holes -/

section

variable {f : String → Option Expr}

/-- The meanings of what replaces names. -/
abbrev meanings (f : String → Option Expr) : String → Option (Scope → Eval Value) :=
  fun n => (f n).map Expr.eval

mutual

theorem Expr.eval_substitute (hf : ∀ n c, f n = some c → c.isSlice = false) (e : Expr)
    (scope : Scope) : (e.substitute f).eval scope = e.eval (scope.fill (meanings f)) :=
  match e with
  | .constant c => rfl
  | .name n => by
    rw [Expr.substitute, Expr.eval, Scope.resolve, Scope.fill]
    dsimp only [meanings]
    cases f n <;> rfl
  | .list items | .tuple items => by
    rw [Expr.substitute, Expr.eval, Expr.eval, Expr.evalAll_substitute hf items]
  | .dict entries => by
    rw [Expr.substitute, Expr.eval, Expr.eval, Expr.evalEntries_substitute hf entries]
  | .attribute e _ | .unary _ e => by
    rw [Expr.substitute, Expr.eval, Expr.eval, e.eval_substitute hf]
  | .subscript e index => by
    -- a slice is looked at, not evaluated, so a leaf must not become one
    rw [Expr.substitute]
    cases hslice : index.isSlice with
    | false =>
      rw [Expr.eval_subscript ((Expr.isSlice_substitute hf index).trans hslice),
        Expr.eval_subscript hslice, e.eval_substitute hf, index.eval_substitute hf]
    | true =>
      have hbounds := index.bounds_substitute hf scope
      cases index with
      | slice lower upper step =>
        obtain ⟨hlower, hupper, hstep⟩ := hbounds lower upper step rfl
        rw [Expr.substitute, Expr.eval, Expr.eval, e.eval_substitute hf, hlower, hupper, hstep]
      | _ => cases hslice
  | .slice lower upper step => rfl
  | .call function args => by
    rw [Expr.substitute, Expr.eval, Expr.eval, function.eval_substitute hf,
      Argument.evalAll_substitute hf args]
  | .binary _ left right | .logic _ left right => by
    rw [Expr.substitute, Expr.eval, Expr.eval, left.eval_substitute hf, right.eval_substitute hf]
  | .compare left comparisons => by
    rw [Expr.substitute, Expr.eval, Expr.eval, left.eval_substitute hf]
    simp only [Expr.evalChain_substitute hf comparisons]
  | .conditional test body orelse => by
    rw [Expr.substitute, Expr.eval, Expr.eval, test.eval_substitute hf, body.eval_substitute hf,
      orelse.eval_substitute hf]
  | .listComp element clauses | .generator element clauses => by
    rw [Expr.substitute, Expr.eval, Expr.eval]
    refine congrArg (· >>= _) (Clause.run_substitute hf clauses (fun frame => ?_) [] [])
    rw [element.eval_substitute hf, Scope.enter_fill]
  | .dictComp key value clauses => by
    rw [Expr.substitute, Expr.eval, Expr.eval]
    refine congrArg (· >>= _) (Clause.run_substitute hf clauses (fun frame => ?_) [] [])
    rw [key.eval_substitute hf, value.eval_substitute hf, Scope.enter_fill]

/-- The bounds of a slice. -/
theorem Expr.bounds_substitute (hf : ∀ n c, f n = some c → c.isSlice = false) (e : Expr)
    (scope : Scope) (lower upper step : Option Expr) (h : e = .slice lower upper step) :
    Expr.evalBound (Expr.substituteOptional f lower) scope =
        Expr.evalBound lower (scope.fill (meanings f)) ∧
      Expr.evalBound (Expr.substituteOptional f upper) scope =
        Expr.evalBound upper (scope.fill (meanings f)) ∧
      Expr.evalBound (Expr.substituteOptional f step) scope =
        Expr.evalBound step (scope.fill (meanings f)) :=
  match e with
  | .slice l u s => by
    have hlower := Expr.evalBound_substitute hf l scope
    have hupper := Expr.evalBound_substitute hf u scope
    have hstep := Expr.evalBound_substitute hf s scope
    cases h
    exact ⟨hlower, hupper, hstep⟩

theorem Expr.evalAll_substitute (hf : ∀ n c, f n = some c → c.isSlice = false) (items : List Expr)
    (scope : Scope) :
    Expr.evalAll (Expr.substituteItems f items) scope = Expr.evalAll items (scope.fill (meanings f)) :=
  match items with
  | [] => rfl
  | e :: rest => by
    rw [Expr.substituteItems, Expr.evalAll, Expr.evalAll, e.eval_substitute hf,
      Expr.evalAll_substitute hf rest]

theorem Expr.evalEntries_substitute (hf : ∀ n c, f n = some c → c.isSlice = false)
    (entries : List (Expr × Expr)) (scope : Scope) :
    Expr.evalEntries (Expr.substituteEntries f entries) scope =
      Expr.evalEntries entries (scope.fill (meanings f)) :=
  match entries with
  | [] => rfl
  | (key, value) :: rest => by
    rw [Expr.substituteEntries, Expr.evalEntries, Expr.evalEntries, key.eval_substitute hf,
      value.eval_substitute hf, Expr.evalEntries_substitute hf rest]

theorem Expr.evalBound_substitute (hf : ∀ n c, f n = some c → c.isSlice = false)
    (bound : Option Expr) (scope : Scope) :
    Expr.evalBound (Expr.substituteOptional f bound) scope =
      Expr.evalBound bound (scope.fill (meanings f)) :=
  match bound with
  | none => rfl
  | some e => by
    rw [Expr.substituteOptional, Expr.evalBound, Expr.evalBound, e.eval_substitute hf]

theorem Expr.evalChain_substitute (hf : ∀ n c, f n = some c → c.isSlice = false)
    (comparisons : List (CompareOp × Expr)) (left : Value) (scope : Scope) :
    Expr.evalChain (Expr.substituteComparisons f comparisons) left scope =
      Expr.evalChain comparisons left (scope.fill (meanings f)) :=
  match comparisons with
  | [] => rfl
  | (op, e) :: rest => by
    rw [Expr.substituteComparisons, Expr.evalChain, Expr.evalChain, e.eval_substitute hf]
    simp only [Expr.evalChain_substitute hf rest]

theorem Expr.evalConditions_substitute (hf : ∀ n c, f n = some c → c.isSlice = false)
    (conditions : List Expr) (scope : Scope) :
    Expr.evalConditions (Expr.substituteItems f conditions) scope =
      Expr.evalConditions conditions (scope.fill (meanings f)) :=
  match conditions with
  | [] => rfl
  | e :: rest => by
    rw [Expr.substituteItems, Expr.evalConditions, Expr.evalConditions, e.eval_substitute hf,
      Expr.evalConditions_substitute hf rest]

theorem Argument.evalAll_substitute (hf : ∀ n c, f n = some c → c.isSlice = false)
    (args : List Argument) (scope : Scope) (done : Arguments) :
    Argument.evalAll (Expr.substituteArguments f args) scope done =
      Argument.evalAll args (scope.fill (meanings f)) done :=
  match args with
  | [] => rfl
  | .positional e :: rest | .keyword _ e :: rest | .unpack e :: rest => by
    rw [Expr.substituteArguments, Argument.substitute, Argument.evalAll, Argument.evalAll,
      e.eval_substitute hf]
    simp only [Argument.evalAll_substitute hf rest]
  | .unpackKeywords e :: rest => by
    rw [Expr.substituteArguments, Argument.substitute, Argument.evalAll, Argument.evalAll,
      e.eval_substitute hf]
    refine bind_congr fun v => ?_
    cases v <;> simp only [Argument.evalAll_substitute hf rest]

theorem Clause.run_substitute (hf : ∀ n c, f n = some c → c.isSlice = false)
    (clauses : List Clause) {emit emit' : Scope → Eval Contribution} {scope : Scope}
    (hemit : ∀ frame, emit (scope.enter frame) = emit' ((scope.fill (meanings f)).enter frame))
    (frame : Bindings) (rows : List Contribution) :
    Clause.run (Expr.substituteClauses f clauses) emit scope frame rows =
      Clause.run clauses emit' (scope.fill (meanings f)) frame rows :=
  match clauses with
  | [] => by rw [Expr.substituteClauses, Clause.run, Clause.run, hemit]
  | ⟨target, iter, conditions⟩ :: rest => by
    rw [Expr.substituteClauses, Clause.run, Clause.run, iter.eval_substitute hf]
    simp only [Expr.evalConditions_substitute hf conditions, Clause.run_substitute hf rest hemit,
      Scope.enter_fill]

end

end

end ComponentMarkup
