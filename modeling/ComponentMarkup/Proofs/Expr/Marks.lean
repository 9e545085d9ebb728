import ComponentMarkup.Proofs.Expr.Occurrences

/-!
# Marks of expressions

The name leaves of an expression, the names that its comprehensions bind and its calls, in one list in
the order in which its parts are visited. Replacing leaves replaces their marks by those of the
expressions that are put there, and leaves every other mark where it is.
-/

namespace ComponentMarkup

/-- Something that stands in an expression. -/
inductive Mark where
  | leaf (name : String)
  | target (name : String)
  | call
deriving DecidableEq

namespace Mark

def leaf? : Mark → Option String
  | .leaf n => some n
  | _ => none

def target? : Mark → Option String
  | .target n => some n
  | _ => none

/-- The marks in place of a mark, after leaves are replaced. -/
def replaced (f : String → Option (List Mark)) : Mark → List Mark
  | .leaf n => (f n).getD [.leaf n]
  | mark => [mark]

end Mark

mutual

/-- The marks of an expression. -/
def Expr.marks : Expr → List Mark
  | .constant _ => []
  | .name n => [.leaf n]
  | .list items => Expr.marksOfItems items
  | .tuple items => Expr.marksOfItems items
  | .dict entries => Expr.marksOfEntries entries
  | .attribute value _ => value.marks
  | .subscript value index => value.marks ++ index.marks
  | .slice lower upper step =>
    Expr.marksOfOptional lower ++ Expr.marksOfOptional upper ++ Expr.marksOfOptional step
  | .call func args => .call :: (func.marks ++ Expr.marksOfArguments args)
  | .binary _ left right => left.marks ++ right.marks
  | .unary _ operand => operand.marks
  | .logic _ left right => left.marks ++ right.marks
  | .compare left comparisons => left.marks ++ Expr.marksOfComparisons comparisons
  | .conditional test body orelse => test.marks ++ body.marks ++ orelse.marks
  | .listComp element clauses => element.marks ++ Expr.marksOfClauses clauses
  | .generator element clauses => element.marks ++ Expr.marksOfClauses clauses
  | .dictComp key value clauses => key.marks ++ value.marks ++ Expr.marksOfClauses clauses

def Expr.marksOfOptional : Option Expr → List Mark
  | none => []
  | some e => e.marks

def Expr.marksOfItems : List Expr → List Mark
  | [] => []
  | item :: rest => item.marks ++ Expr.marksOfItems rest

def Expr.marksOfEntries : List (Expr × Expr) → List Mark
  | [] => []
  | (key, value) :: rest => key.marks ++ value.marks ++ Expr.marksOfEntries rest

def Argument.marks : Argument → List Mark
  | .positional value => value.marks
  | .keyword _ value => value.marks
  | .unpack items => items.marks
  | .unpackKeywords entries => entries.marks

def Expr.marksOfArguments : List Argument → List Mark
  | [] => []
  | arg :: rest => arg.marks ++ Expr.marksOfArguments rest

def Expr.marksOfComparisons : List (CompareOp × Expr) → List Mark
  | [] => []
  | (_, right) :: rest => right.marks ++ Expr.marksOfComparisons rest

def Expr.marksOfClauses : List Clause → List Mark
  | [] => []
  | ⟨target, iter, conditions⟩ :: rest =>
    target.names.map .target ++ iter.marks ++ Expr.marksOfItems conditions ++
      Expr.marksOfClauses rest

end

/-- The number of calls in an expression. -/
def Expr.calls (e : Expr) : Nat :=
  e.marks.count .call

/-! ## Leaves and targets -/

/-- The names among marks. -/
structure Mark.Lists (marks : List Mark) (names targets : List String) : Prop where
  names : marks.filterMap Mark.leaf? = names
  targets : marks.filterMap Mark.target? = targets

namespace Mark.Lists

theorem nil : Mark.Lists [] [] [] := ⟨rfl, rfl⟩

theorem append {marks marks' : List Mark} {names names' targets targets' : List String}
    (h : Mark.Lists marks names targets) (h' : Mark.Lists marks' names' targets') :
    Mark.Lists (marks ++ marks') (names ++ names') (targets ++ targets') := by
  refine ⟨?_, ?_⟩
  · rw [List.filterMap_append, h.names, h'.names]
  · rw [List.filterMap_append, h.targets, h'.targets]

theorem call {marks : List Mark} {names targets : List String}
    (h : Mark.Lists marks names targets) : Mark.Lists (.call :: marks) names targets :=
  ⟨h.names, h.targets⟩

theorem bound (names : List String) : Mark.Lists (names.map .target) [] names := by
  induction names with
  | nil => exact nil
  | cons n rest ih => exact ⟨ih.names, congrArg (n :: ·) ih.targets⟩

end Mark.Lists

mutual

theorem Expr.lists_marks (e : Expr) : Mark.Lists e.marks e.names e.targets :=
  match e with
  | .constant _ => .nil
  | .name _ => ⟨rfl, rfl⟩
  | .list items | .tuple items => Expr.lists_items items
  | .dict entries => Expr.lists_entries entries
  | .attribute value _ | .unary _ value => value.lists_marks
  | .slice lower upper step =>
    ((Expr.lists_optional lower).append (Expr.lists_optional upper)).append (Expr.lists_optional step)
  | .call func args => (func.lists_marks.append (Expr.lists_arguments args)).call
  | .subscript left right | .binary _ left right | .logic _ left right =>
    left.lists_marks.append right.lists_marks
  | .compare left comparisons => left.lists_marks.append (Expr.lists_comparisons comparisons)
  | .conditional test body orelse =>
    (test.lists_marks.append body.lists_marks).append orelse.lists_marks
  | .listComp element clauses | .generator element clauses =>
    element.lists_marks.append (Expr.lists_clauses clauses)
  | .dictComp key value clauses =>
    (key.lists_marks.append value.lists_marks).append (Expr.lists_clauses clauses)

theorem Expr.lists_optional (e : Option Expr) :
    Mark.Lists (Expr.marksOfOptional e) (Expr.namesOfOptional e) (Expr.targetsOfOptional e) :=
  match e with
  | none => .nil
  | some e => e.lists_marks

theorem Expr.lists_items (items : List Expr) :
    Mark.Lists (Expr.marksOfItems items) (Expr.namesOfItems items) (Expr.targetsOfItems items) :=
  match items with
  | [] => .nil
  | item :: rest => item.lists_marks.append (Expr.lists_items rest)

theorem Expr.lists_entries (entries : List (Expr × Expr)) :
    Mark.Lists (Expr.marksOfEntries entries) (Expr.namesOfEntries entries)
      (Expr.targetsOfEntries entries) :=
  match entries with
  | [] => .nil
  | (key, value) :: rest =>
    (key.lists_marks.append value.lists_marks).append (Expr.lists_entries rest)

theorem Argument.lists_marks (arg : Argument) : Mark.Lists arg.marks arg.names arg.targets :=
  match arg with
  | .positional value | .keyword _ value | .unpack value | .unpackKeywords value => value.lists_marks

theorem Expr.lists_arguments (args : List Argument) :
    Mark.Lists (Expr.marksOfArguments args) (Expr.namesOfArguments args)
      (Expr.targetsOfArguments args) :=
  match args with
  | [] => .nil
  | arg :: rest => arg.lists_marks.append (Expr.lists_arguments rest)

theorem Expr.lists_comparisons (comparisons : List (CompareOp × Expr)) :
    Mark.Lists (Expr.marksOfComparisons comparisons) (Expr.namesOfComparisons comparisons)
      (Expr.targetsOfComparisons comparisons) :=
  match comparisons with
  | [] => .nil
  | (_, right) :: rest => right.lists_marks.append (Expr.lists_comparisons rest)

theorem Expr.lists_clauses (clauses : List Clause) :
    Mark.Lists (Expr.marksOfClauses clauses) (Expr.namesOfClauses clauses)
      (Expr.targetsOfClauses clauses) :=
  match clauses with
  | [] => .nil
  | ⟨target, iter, conditions⟩ :: rest =>
    (((Mark.Lists.bound target.names).append iter.lists_marks).append
      (Expr.lists_items conditions)).append (Expr.lists_clauses rest)

end

theorem Expr.leaf_mem_marks {e : Expr} {n : String} : .leaf n ∈ e.marks ↔ n ∈ e.names := by
  rw [← e.lists_marks.names, List.mem_filterMap]
  refine ⟨fun h => ⟨_, h, rfl⟩, ?_⟩
  rintro ⟨mark, hmark, hname⟩
  cases mark with
  | leaf m =>
    cases hname
    exact hmark
  | target m => cases hname
  | call => cases hname

theorem Expr.target_mem_marks {e : Expr} {n : String} : .target n ∈ e.marks ↔ n ∈ e.targets := by
  rw [← e.lists_marks.targets, List.mem_filterMap]
  refine ⟨fun h => ⟨_, h, rfl⟩, ?_⟩
  rintro ⟨mark, hmark, hname⟩
  cases mark with
  | leaf m => cases hname
  | target m =>
    cases hname
    exact hmark
  | call => cases hname

/-! ## Replacement -/

/-- The marks of what replaces a name. -/
def marksFor (f : String → Option Expr) (n : String) : Option (List Mark) :=
  (f n).map Expr.marks

theorem flatMap_replaced_target (g : String → Option (List Mark)) (names : List String) :
    (names.map Mark.target).flatMap (Mark.replaced g) = names.map Mark.target := by
  induction names with
  | nil => rfl
  | cons n rest ih => rw [List.map_cons, List.flatMap_cons, ih]; rfl

theorem flatMap_replaced_append {g : String → Option (List Mark)}
    {marks marks' more more' : List Mark} (h : marks' = marks.flatMap (Mark.replaced g))
    (h' : more' = more.flatMap (Mark.replaced g)) :
    marks' ++ more' = (marks ++ more).flatMap (Mark.replaced g) := by
  rw [List.flatMap_append, h, h']

section

variable (f : String → Option Expr)

mutual

theorem Expr.marks_substitute (e : Expr) :
    (e.substitute f).marks = e.marks.flatMap (Mark.replaced (marksFor f)) :=
  match e with
  | .constant _ => rfl
  | .name n => by
    have hmarks : (Expr.name n).marks.flatMap (Mark.replaced (marksFor f)) =
        ((f n).map Expr.marks).getD [.leaf n] := List.append_nil _
    rw [hmarks, Expr.substitute]
    cases f n <;> rfl
  | .list items | .tuple items => Expr.marks_substituteItems items
  | .dict entries => Expr.marks_substituteEntries entries
  | .attribute value _ | .unary _ value => value.marks_substitute
  | .slice lower upper step =>
    flatMap_replaced_append (flatMap_replaced_append (Expr.marks_substituteOptional lower)
      (Expr.marks_substituteOptional upper)) (Expr.marks_substituteOptional step)
  | .call func args =>
    congrArg (Mark.call :: ·)
      (flatMap_replaced_append func.marks_substitute (Expr.marks_substituteArguments args))
  | .subscript left right | .binary _ left right | .logic _ left right =>
    flatMap_replaced_append left.marks_substitute right.marks_substitute
  | .compare left comparisons =>
    flatMap_replaced_append left.marks_substitute (Expr.marks_substituteComparisons comparisons)
  | .conditional test body orelse =>
    flatMap_replaced_append (flatMap_replaced_append test.marks_substitute body.marks_substitute)
      orelse.marks_substitute
  | .listComp element clauses | .generator element clauses =>
    flatMap_replaced_append element.marks_substitute (Expr.marks_substituteClauses clauses)
  | .dictComp key value clauses =>
    flatMap_replaced_append (flatMap_replaced_append key.marks_substitute value.marks_substitute)
      (Expr.marks_substituteClauses clauses)

theorem Expr.marks_substituteOptional (e : Option Expr) :
    Expr.marksOfOptional (Expr.substituteOptional f e) =
      (Expr.marksOfOptional e).flatMap (Mark.replaced (marksFor f)) :=
  match e with
  | none => rfl
  | some e => e.marks_substitute

theorem Expr.marks_substituteItems (items : List Expr) :
    Expr.marksOfItems (Expr.substituteItems f items) =
      (Expr.marksOfItems items).flatMap (Mark.replaced (marksFor f)) :=
  match items with
  | [] => rfl
  | item :: rest => flatMap_replaced_append item.marks_substitute (Expr.marks_substituteItems rest)

theorem Expr.marks_substituteEntries (entries : List (Expr × Expr)) :
    Expr.marksOfEntries (Expr.substituteEntries f entries) =
      (Expr.marksOfEntries entries).flatMap (Mark.replaced (marksFor f)) :=
  match entries with
  | [] => rfl
  | (key, value) :: rest =>
    flatMap_replaced_append (flatMap_replaced_append key.marks_substitute value.marks_substitute)
      (Expr.marks_substituteEntries rest)

theorem Argument.marks_substitute (arg : Argument) :
    (arg.substitute f).marks = arg.marks.flatMap (Mark.replaced (marksFor f)) :=
  match arg with
  | .positional value | .keyword _ value | .unpack value | .unpackKeywords value =>
    value.marks_substitute

theorem Expr.marks_substituteArguments (args : List Argument) :
    Expr.marksOfArguments (Expr.substituteArguments f args) =
      (Expr.marksOfArguments args).flatMap (Mark.replaced (marksFor f)) :=
  match args with
  | [] => rfl
  | arg :: rest =>
    flatMap_replaced_append arg.marks_substitute (Expr.marks_substituteArguments rest)

theorem Expr.marks_substituteComparisons (comparisons : List (CompareOp × Expr)) :
    Expr.marksOfComparisons (Expr.substituteComparisons f comparisons) =
      (Expr.marksOfComparisons comparisons).flatMap (Mark.replaced (marksFor f)) :=
  match comparisons with
  | [] => rfl
  | (_, right) :: rest =>
    flatMap_replaced_append right.marks_substitute (Expr.marks_substituteComparisons rest)

theorem Expr.marks_substituteClauses (clauses : List Clause) :
    Expr.marksOfClauses (Expr.substituteClauses f clauses) =
      (Expr.marksOfClauses clauses).flatMap (Mark.replaced (marksFor f)) :=
  match clauses with
  | [] => rfl
  | ⟨target, iter, conditions⟩ :: rest =>
    -- the targets are kept, whatever their names are replaced by elsewhere
    flatMap_replaced_append (flatMap_replaced_append
      (flatMap_replaced_append (flatMap_replaced_target _ target.names).symm iter.marks_substitute)
      (Expr.marks_substituteItems conditions)) (Expr.marks_substituteClauses rest)

end

end

/-- Replaced leaves are gone, and what replaces them is there. -/
theorem Expr.mem_marks_substitute {e : Expr} {f : String → Option Expr} {mark : Mark} :
    mark ∈ (e.substitute f).marks ↔
      (mark ∈ e.marks ∧ ∀ n, mark = .leaf n → f n = none) ∨
        ∃ n c, n ∈ e.names ∧ f n = some c ∧ mark ∈ c.marks := by
  rw [e.marks_substitute, List.mem_flatMap]
  constructor
  · rintro ⟨source, hfrom, hmem⟩
    cases source with
    | leaf n =>
      have hmem : mark ∈ ((f n).map Expr.marks).getD [.leaf n] := hmem
      cases hf : f n with
      | none =>
        rw [hf] at hmem
        cases List.mem_singleton.mp hmem
        refine .inl ⟨hfrom, fun m hm => ?_⟩
        cases hm
        exact hf
      | some c =>
        rw [hf] at hmem
        exact .inr ⟨n, c, Expr.leaf_mem_marks.mp hfrom, hf, hmem⟩
    | target n =>
      cases List.mem_singleton.mp hmem
      exact .inl ⟨hfrom, fun _ hm => nomatch hm⟩
    | call =>
      cases List.mem_singleton.mp hmem
      exact .inl ⟨hfrom, fun _ hm => nomatch hm⟩
  · rintro (⟨hmem, hkept⟩ | ⟨n, c, hn, hf, hmem⟩)
    · -- a mark that is kept is its own replacement
      refine ⟨mark, hmem, ?_⟩
      cases mark with
      | leaf n =>
        show Mark.leaf n ∈ ((f n).map Expr.marks).getD [.leaf n]
        rw [hkept n rfl]
        exact List.mem_singleton_self _
      | target n => exact List.mem_singleton_self _
      | call => exact List.mem_singleton_self _
    · refine ⟨.leaf n, Expr.leaf_mem_marks.mpr hn, ?_⟩
      show mark ∈ ((f n).map Expr.marks).getD [.leaf n]
      rw [hf]
      exact hmem

end ComponentMarkup
