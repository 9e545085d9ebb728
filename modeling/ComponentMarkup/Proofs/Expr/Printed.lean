import ComponentMarkup.Expr.Printer
import ComponentMarkup.Expr.Names
import ComponentMarkup.Proofs.Expr.Lexemes

/-!
# Tokens of printed expressions

`Printed part tokens` says which tokens a part of an expression is printed as. Unlike a spelling,
the printed form is unique, has parentheses around every operation and has no optional commas. Every
expression that can be spelled has a printed form (`printed_of_spells`), as long as its floats are
written with a point and it has no attribute of an integer, whose texts are read otherwise, also after
names were replaced by printable expressions (`exists_printed_of_spells`); and the text of a part falls
into the tokens it is printed as (`lexes_print`).
-/

namespace ComponentMarkup

variable {ts : List Token} {part : Part}

/-! ## Expressions inside an expression -/

mutual

/-- An expression and the expressions inside it. -/
def Expr.subterms : Expr → List Expr
  | .constant value => [.constant value]
  | .name n => [.name n]
  | .list items => .list items :: Expr.subtermsOfItems items
  | .tuple items => .tuple items :: Expr.subtermsOfItems items
  | .dict entries => .dict entries :: Expr.subtermsOfEntries entries
  | .attribute value attr => .attribute value attr :: value.subterms
  | .subscript value index => .subscript value index :: (value.subterms ++ index.subterms)
  | .slice lower upper step =>
    .slice lower upper step :: (Expr.subtermsOfOptional lower ++
      (Expr.subtermsOfOptional upper ++ Expr.subtermsOfOptional step))
  | .call func args => .call func args :: (func.subterms ++ Expr.subtermsOfArguments args)
  | .binary op left right => .binary op left right :: (left.subterms ++ right.subterms)
  | .unary op operand => .unary op operand :: operand.subterms
  | .logic op left right => .logic op left right :: (left.subterms ++ right.subterms)
  | .compare left comparisons =>
    .compare left comparisons :: (left.subterms ++ Expr.subtermsOfComparisons comparisons)
  | .conditional test body orelse =>
    .conditional test body orelse :: (test.subterms ++ (body.subterms ++ orelse.subterms))
  | .listComp element clauses =>
    .listComp element clauses :: (element.subterms ++ Expr.subtermsOfClauses clauses)
  | .generator element clauses =>
    .generator element clauses :: (element.subterms ++ Expr.subtermsOfClauses clauses)
  | .dictComp key value clauses =>
    .dictComp key value clauses ::
      (key.subterms ++ (value.subterms ++ Expr.subtermsOfClauses clauses))

def Expr.subtermsOfOptional : Option Expr → List Expr
  | none => []
  | some e => e.subterms

def Expr.subtermsOfItems : List Expr → List Expr
  | [] => []
  | item :: rest => item.subterms ++ Expr.subtermsOfItems rest

def Expr.subtermsOfEntries : List (Expr × Expr) → List Expr
  | [] => []
  | (key, value) :: rest => key.subterms ++ (value.subterms ++ Expr.subtermsOfEntries rest)

def Argument.subterms : Argument → List Expr
  | .positional value => value.subterms
  | .keyword _ value => value.subterms
  | .unpack items => items.subterms
  | .unpackKeywords entries => entries.subterms

def Expr.subtermsOfArguments : List Argument → List Expr
  | [] => []
  | arg :: rest => arg.subterms ++ Expr.subtermsOfArguments rest

def Expr.subtermsOfComparisons : List (CompareOp × Expr) → List Expr
  | [] => []
  | (_, right) :: rest => right.subterms ++ Expr.subtermsOfComparisons rest

def Expr.subtermsOfClauses : List Clause → List Expr
  | [] => []
  | ⟨_, iter, conditions⟩ :: rest =>
    iter.subterms ++ (Expr.subtermsOfItems conditions ++ Expr.subtermsOfClauses rest)

end

/-- The expressions inside a part. -/
def Part.subterms : Part → List Expr
  | .target _ => []
  | .targets _ => []
  | .expr e => e.subterms
  | .items es => Expr.subtermsOfItems es
  | .entries es => Expr.subtermsOfEntries es
  | .argument a => a.subterms
  | .arguments args => Expr.subtermsOfArguments args
  | .links cs => Expr.subtermsOfComparisons cs
  | .clauses cs => Expr.subtermsOfClauses cs
  | .conditions es => Expr.subtermsOfItems es
  | .bound b => Expr.subtermsOfOptional b
  | .subscript e => e.subterms
  | .subscripts es => Expr.subtermsOfItems es
  | .index e => e.subterms
  | .source e => e.subterms

/-- Neither a float constant nor an attribute of an integer constant. The point of such an
attribute would be read as a part of the number. -/
def Expr.isPlain : Expr → Bool
  | .constant (.float _) => false
  | .attribute (.constant (.int _)) _ => false
  | _ => true

open Lexer (IsName IsFloat)

/-- Neither a float constant whose text is read otherwise nor an attribute of an integer constant. -/
def Expr.IsPrintable : Expr → Prop
  | .constant (.float x) => IsFloat x
  | .attribute (.constant (.int _)) _ => False
  | _ => True

theorem Expr.IsPrintable.of_isPlain {e : Expr} (h : e.isPlain = true) : e.IsPrintable := by
  unfold Expr.IsPrintable
  split
  · cases h
  · cases h
  · trivial

/-! ## Printed forms -/

/-- The comma after the only item of a tuple. -/
def loneComma {α : Type} (items : List α) : List Token :=
  if items.length = 1 then [.symbol .comma] else []

/-- The comma before further items. -/
def commaBefore {α : Type} (rest : List α) : List Token :=
  if rest.isEmpty then [] else [.symbol .comma]

/-- A part of an expression is printed as tokens. -/
inductive Printed : Part → List Token → Prop where
  -- targets
  | targetName {n} : IsName n → Printed (.target (.name n)) [.name n]
  | targetTuple {ts us} : Printed (.targets ts) us → ts ≠ [] →
      Printed (.target (.tuple ts)) (.symbol .lparen :: (us ++ loneComma ts) ++ [.symbol .rparen])
  | targetsNil : Printed (.targets []) []
  | targetsCons {t ts us vs} : Printed (.target t) us → Printed (.targets ts) vs →
      Printed (.targets (t :: ts)) (us ++ (commaBefore ts ++ vs))
  -- names and literals
  | name {n} : IsName n → Printed (.expr (.name n)) [.name n]
  | int {i : Int64} : 0 ≤ i.toInt → Printed (.expr (.constant (.int i))) [.int i]
  | float {x : Float} : IsFloat x → Printed (.expr (.constant (.float x))) [.float x]
  | none : Printed (.expr (.constant .none)) [.symbol .none]
  | true : Printed (.expr (.constant (.bool true))) [.symbol .true]
  | false : Printed (.expr (.constant (.bool false))) [.symbol .false]
  | str (text : String) : Printed (.expr (.str text)) [.str text]
  -- brackets
  | tuple {es ts} : Printed (.items es) ts →
      Printed (.expr (.tuple es)) (.symbol .lparen :: (ts ++ loneComma es) ++ [.symbol .rparen])
  | list {es ts} : Printed (.items es) ts →
      Printed (.expr (.list es)) (.symbol .lbracket :: ts ++ [.symbol .rbracket])
  | dict {es ts} : Printed (.entries es) ts →
      Printed (.expr (.dict es)) (.symbol .lbrace :: ts ++ [.symbol .rbrace])
  | generator {e cs us vs} : Printed (.expr e) us → Printed (.clauses cs) vs → cs ≠ [] →
      Printed (.expr (.generator e cs)) (.symbol .lparen :: (us ++ vs) ++ [.symbol .rparen])
  | listComp {e cs us vs} : Printed (.expr e) us → Printed (.clauses cs) vs → cs ≠ [] →
      Printed (.expr (.listComp e cs)) (.symbol .lbracket :: (us ++ vs) ++ [.symbol .rbracket])
  | dictComp {k e cs us vs ws} : Printed (.expr k) us → Printed (.expr e) vs →
      Printed (.clauses cs) ws → cs ≠ [] →
      Printed (.expr (.dictComp k e cs))
        (.symbol .lbrace :: (us ++ .symbol .colon :: (vs ++ ws)) ++ [.symbol .rbrace])
  -- attributes, subscripts and calls
  | member {e attr us} : Printed (.expr e) us → IsName attr →
      (∀ i, e ≠ .constant (.int i)) →
      Printed (.expr (.attribute e attr)) (us ++ [.symbol .dot, .name attr])
  | subscripted {e i us vs} : Printed (.expr e) us → Printed (.index i) vs →
      Printed (.expr (.subscript e i)) (us ++ (.symbol .lbracket :: vs ++ [.symbol .rbracket]))
  | call {f args us vs} : Printed (.expr f) us → Printed (.arguments args) vs →
      (args.filterMap Argument.keyword?).Nodup →
      Printed (.expr (.call f args)) (us ++ (.symbol .lparen :: vs ++ [.symbol .rparen]))
  -- operators
  | binary {a b us vs} (op : BinaryOp) : Printed (.expr a) us → Printed (.expr b) vs →
      Printed (.expr (.binary op a b))
        (.symbol .lparen :: (us ++ .symbol op.symbol :: vs) ++ [.symbol .rparen])
  | unary {a us} (op : UnaryOp) : Printed (.expr a) us →
      Printed (.expr (.unary op a))
        (.symbol .lparen :: (.symbol op.symbol :: us) ++ [.symbol .rparen])
  | logic {a b us vs} (op : BoolOp) : Printed (.expr a) us → Printed (.expr b) vs →
      Printed (.expr (.logic op a b))
        (.symbol .lparen :: (us ++ .symbol op.symbol :: vs) ++ [.symbol .rparen])
  | compare {a cs us vs} : Printed (.expr a) us → Printed (.links cs) vs → cs ≠ [] →
      Printed (.expr (.compare a cs)) (.symbol .lparen :: (us ++ vs) ++ [.symbol .rparen])
  | conditional {t a b us vs ws} : Printed (.expr a) us → Printed (.expr t) vs →
      Printed (.expr b) ws →
      Printed (.expr (.conditional t a b))
        (.symbol .lparen :: (us ++ .symbol .if :: (vs ++ .symbol .else :: ws)) ++
          [.symbol .rparen])
  -- sequences
  | itemsNil : Printed (.items []) []
  | itemsCons {e es us vs} : Printed (.expr e) us → Printed (.items es) vs →
      Printed (.items (e :: es)) (us ++ (commaBefore es ++ vs))
  | entriesNil : Printed (.entries []) []
  | entriesCons {k e es us vs ws} : Printed (.expr k) us → Printed (.expr e) vs →
      Printed (.entries es) ws →
      Printed (.entries ((k, e) :: es)) (us ++ .symbol .colon :: (vs ++ (commaBefore es ++ ws)))
  | positional {e us} : Printed (.expr e) us → Printed (.argument (.positional e)) us
  | keyword {e us n} : Printed (.expr e) us → IsName n →
      Printed (.argument (.keyword n e)) (.name n :: .symbol .assign :: us)
  | unpack {e us} : Printed (.expr e) us → Printed (.argument (.unpack e)) (.symbol .star :: us)
  | unpackKeywords {e us} : Printed (.expr e) us →
      Printed (.argument (.unpackKeywords e)) (.symbol .doubleStar :: us)
  | argumentsNil : Printed (.arguments []) []
  | argumentsCons {a args us vs} : Printed (.argument a) us → Printed (.arguments args) vs →
      Printed (.arguments (a :: args)) (us ++ (commaBefore args ++ vs))
  | linksNil : Printed (.links []) []
  | linksCons {e cs us vs} (op : CompareOp) : Printed (.expr e) us → Printed (.links cs) vs →
      Printed (.links ((op, e) :: cs)) (op.symbols.map .symbol ++ (us ++ vs))
  | clausesNil : Printed (.clauses []) []
  | clausesCons {t e conds cs us vs ws xs} : Printed (.target t) us → Printed (.expr e) vs →
      Printed (.conditions conds) ws → Printed (.clauses cs) xs →
      Printed (.clauses (⟨t, e, conds⟩ :: cs))
        (.symbol .for :: (us ++ .symbol .in :: (vs ++ (ws ++ xs))))
  | conditionsNil : Printed (.conditions []) []
  | conditionsCons {e es us vs} : Printed (.expr e) us → Printed (.conditions es) vs →
      Printed (.conditions (e :: es)) (.symbol .if :: (us ++ vs))
  -- indices
  | noBound : Printed (.bound .none) []
  | someBound {e us} : Printed (.expr e) us → Printed (.bound (.some e)) us
  | subscriptExpr {e us} : Printed (.expr e) us → Printed (.subscript e) us
  | slice {l u us vs} : Printed (.bound l) us → Printed (.bound u) vs →
      Printed (.subscript (.slice l u .none)) (us ++ .symbol .colon :: vs)
  | sliceStep {l u s us vs ws} : Printed (.bound l) us → Printed (.bound u) vs →
      Printed (.expr s) ws →
      Printed (.subscript (.slice l u (.some s)))
        (us ++ .symbol .colon :: (vs ++ .symbol .colon :: ws))
  | subscriptsNil : Printed (.subscripts []) []
  | subscriptsCons {e es us vs} : Printed (.subscript e) us → Printed (.subscripts es) vs →
      Printed (.subscripts (e :: es)) (us ++ (commaBefore es ++ vs))
  | indexOne {e us} : Printed (.subscript e) us → (∀ i is, e ≠ .tuple (i :: is)) →
      Printed (.index e) us
  /-- The items of an index that is a tuple stand in no parentheses. -/
  | indexTuple {e es us} : Printed (.subscripts (e :: es)) us →
      Printed (.index (.tuple (e :: es))) (us ++ loneComma (e :: es))
  | source {e us} : Printed (.expr e) us → Printed (.source e) us

/-! ## What is spelled can be printed -/

/-- Items are indices too. -/
theorem Printed.subscripts_of_items : ∀ {es : List Expr} {ts : List Token},
    Printed (.items es) ts → Printed (.subscripts es) ts
  | _, _, .itemsNil => .subscriptsNil
  | _, _, .itemsCons he hes => .subscriptsCons (.subscriptExpr he) hes.subscripts_of_items

/-- The index of a subscript, whose parentheses are left out if it is a tuple. -/
theorem Printed.exists_index {e : Expr} (h : Printed (.subscript e) ts) :
    ∃ us, Printed (.index e) us := by
  by_cases htuple : ∃ i is, e = .tuple (i :: is)
  · obtain ⟨i, is, rfl⟩ := htuple
    cases h with
    | subscriptExpr h =>
      cases h with
      | tuple hitems => exact ⟨_, .indexTuple hitems.subscripts_of_items⟩
  · exact ⟨ts, .indexOne h fun i is he => htuple ⟨i, is, he⟩⟩

/-- A part with every name leaf replaced for which `f` gives an expression. -/
def Part.substitute (f : String → Option Expr) : Part → Part
  | .target t => .target t
  | .targets ts => .targets ts
  | .expr e => .expr (e.substitute f)
  | .items es => .items (Expr.substituteItems f es)
  | .entries es => .entries (Expr.substituteEntries f es)
  | .argument a => .argument (a.substitute f)
  | .arguments args => .arguments (Expr.substituteArguments f args)
  | .links cs => .links (Expr.substituteComparisons f cs)
  | .clauses cs => .clauses (Expr.substituteClauses f cs)
  | .conditions es => .conditions (Expr.substituteItems f es)
  | .bound b => .bound (Expr.substituteOptional f b)
  | .subscript e => .subscript (e.substitute f)
  | .subscripts es => .subscripts (Expr.substituteItems f es)
  | .index e => .index (e.substitute f)
  | .source e => .source (e.substitute f)

section Substitute

variable {f : String → Option Expr}

theorem Expr.substituteClauses_ne_nil {clauses : List Clause} (h : clauses ≠ []) :
    Expr.substituteClauses f clauses ≠ [] := by
  cases clauses with
  | nil => exact absurd rfl h
  | cons clause rest =>
    obtain ⟨target, iter, conditions⟩ := clause
    exact List.cons_ne_nil _ _

theorem Expr.substituteComparisons_ne_nil {comparisons : List (CompareOp × Expr)}
    (h : comparisons ≠ []) : Expr.substituteComparisons f comparisons ≠ [] := by
  cases comparisons with
  | nil => exact absurd rfl h
  | cons comparison rest => exact List.cons_ne_nil _ _

theorem Expr.keywords_substituteArguments (args : List Argument) :
    (Expr.substituteArguments f args).filterMap Argument.keyword? =
      args.filterMap Argument.keyword? := by
  induction args with
  | nil => rfl
  | cons arg rest ih =>
    rw [Expr.substituteArguments]
    cases arg <;> simp [List.filterMap_cons, Argument.substitute, Argument.keyword?, ih]

/-- Whatever tokens that were read spell has a printed form after names were replaced, if all of the
result is printable and so is what replaces a name. -/
theorem exists_printed_of_spells (h : Spells part ts) (hread : ∀ t ∈ ts, Lexer.IsRead t)
    {P : Expr → Prop} (hP : ∀ s, P s → s.IsPrintable)
    (hf : ∀ n e, f n = some e → (∀ s ∈ e.subterms, P s) → ∃ us, Printed (.expr e) us)
    (hprint : ∀ s ∈ (part.substitute f).subterms, P s) : ∃ us, Printed (part.substitute f) us := by
  induction h
  -- both hypotheses fall into those about the tokens and the expressions of the parts
  all_goals
    simp only [List.forall_mem_append, List.forall_mem_cons, List.cons_append, Part.subterms,
      Expr.subterms, Expr.subtermsOfItems, Expr.subtermsOfEntries, Expr.subtermsOfArguments,
      Argument.subterms, Expr.subtermsOfComparisons, Expr.subtermsOfClauses,
      Expr.subtermsOfOptional, Part.substitute, Expr.substitute, Expr.substituteItems,
      Expr.substituteEntries, Expr.substituteArguments, Argument.substitute,
      Expr.substituteComparisons, Expr.substituteClauses, Expr.substituteOptional] at hread hprint ⊢
  case targetName n => exact ⟨_, .targetName hread.1⟩
  case targetParens ih => exact ih hread.2.1 hprint
  case targetTuple ih₁ ih₂ =>
    obtain ⟨us, hus⟩ := ih₁ hread.1 hprint
    obtain ⟨vs, hvs⟩ := ih₂ hread.2.2 hprint
    exact ⟨_, .targetTuple (.targetsCons hus hvs) (List.cons_ne_nil _ _)⟩
  case targetBracketName ih =>
    obtain ⟨us, hus⟩ := ih hread.2.1 hprint
    exact ⟨_, .targetTuple (.targetsCons hus .targetsNil) (List.cons_ne_nil _ _)⟩
  case targetBracketTuple ih => exact ih hread.2.1 hprint
  case targetsNil => exact ⟨_, .targetsNil⟩
  case targetsLast ih =>
    obtain ⟨us, hus⟩ := ih hread hprint
    exact ⟨_, .targetsCons hus .targetsNil⟩
  case targetsCons ih₁ ih₂ =>
    obtain ⟨us, hus⟩ := ih₁ hread.1 hprint
    obtain ⟨vs, hvs⟩ := ih₂ hread.2.2 hprint
    exact ⟨_, .targetsCons hus hvs⟩
  case name n =>
    cases hn : f n with
    | none => exact ⟨_, .name hread.1⟩
    | some e =>
      rw [hn] at hprint
      exact hf n e hn hprint
  case int i => exact ⟨_, .int hread.1⟩
  case float x => exact ⟨_, .float (hP _ hprint.1)⟩
  case none => exact ⟨_, .none⟩
  case true => exact ⟨_, .true⟩
  case false => exact ⟨_, .false⟩
  case strings first more => exact ⟨_, .str _⟩
  case parens ih => exact ih hread.2.1 hprint
  case emptyTuple => exact ⟨_, .tuple .itemsNil⟩
  case tuple ih₁ ih₂ =>
    obtain ⟨us, hus⟩ := ih₁ hread.2.1.1 hprint.2.1
    obtain ⟨vs, hvs⟩ := ih₂ hread.2.1.2.2 hprint.2.2
    exact ⟨_, .tuple (.itemsCons hus hvs)⟩
  case list ih =>
    obtain ⟨us, hus⟩ := ih hread.2.1 hprint.2
    exact ⟨_, .list hus⟩
  case dict ih =>
    obtain ⟨us, hus⟩ := ih hread.2.1 hprint.2
    exact ⟨_, .dict hus⟩
  case generator hne ih₁ ih₂ =>
    obtain ⟨us, hus⟩ := ih₁ hread.2.1.1 hprint.2.1
    obtain ⟨vs, hvs⟩ := ih₂ hread.2.1.2 hprint.2.2
    exact ⟨_, .generator hus hvs (Expr.substituteClauses_ne_nil hne)⟩
  case listComp hne ih₁ ih₂ =>
    obtain ⟨us, hus⟩ := ih₁ hread.2.1.1 hprint.2.1
    obtain ⟨vs, hvs⟩ := ih₂ hread.2.1.2 hprint.2.2
    exact ⟨_, .listComp hus hvs (Expr.substituteClauses_ne_nil hne)⟩
  case dictComp hne ih₁ ih₂ ih₃ =>
    obtain ⟨us, hus⟩ := ih₁ hread.2.1.1 hprint.2.1
    obtain ⟨vs, hvs⟩ := ih₂ hread.2.1.2.2.1 hprint.2.2.1
    obtain ⟨ws, hws⟩ := ih₃ hread.2.1.2.2.2 hprint.2.2.2
    exact ⟨_, .dictComp hus hvs hws (Expr.substituteClauses_ne_nil hne)⟩
  case member e _ attr _ ih =>
    obtain ⟨us, hus⟩ := ih hread.1 hprint.2
    refine ⟨_, .member hus hread.2.2.1 ?_⟩
    intro i hi
    rw [hi] at hprint
    exact hP _ hprint.1
  case subscripted ih₁ ih₂ =>
    obtain ⟨us, hus⟩ := ih₁ hread.1 hprint.2.1
    obtain ⟨vs, hvs⟩ := ih₂ hread.2.2.1 hprint.2.2
    exact ⟨_, .subscripted hus hvs⟩
  case call hkeys ih₁ ih₂ =>
    obtain ⟨us, hus⟩ := ih₁ hread.1 hprint.2.1
    obtain ⟨vs, hvs⟩ := ih₂ hread.2.2.1 hprint.2.2
    exact ⟨_, .call hus hvs (by rwa [Expr.keywords_substituteArguments])⟩
  case callGenerator hne ih₁ ih₂ ih₃ =>
    obtain ⟨us, hus⟩ := ih₁ hread.1 hprint.2.1
    obtain ⟨vs, hvs⟩ := ih₂ hread.2.2.1.1 hprint.2.2.2.1.1
    obtain ⟨ws, hws⟩ := ih₃ hread.2.2.1.2 hprint.2.2.2.1.2
    have hgenerator := Printed.generator hvs hws (Expr.substituteClauses_ne_nil hne)
    exact ⟨_, .call hus (.argumentsCons (.positional hgenerator) .argumentsNil) List.nodup_nil⟩
  case binary op _ _ ih₁ ih₂ =>
    obtain ⟨us, hus⟩ := ih₁ hread.1 hprint.2.1
    obtain ⟨vs, hvs⟩ := ih₂ hread.2.2 hprint.2.2
    exact ⟨_, .binary op hus hvs⟩
  case unary op _ ih =>
    obtain ⟨us, hus⟩ := ih hread.2 hprint.2
    exact ⟨_, .unary op hus⟩
  case logic op _ _ ih₁ ih₂ =>
    obtain ⟨us, hus⟩ := ih₁ hread.1 hprint.2.1
    obtain ⟨vs, hvs⟩ := ih₂ hread.2.2 hprint.2.2
    exact ⟨_, .logic op hus hvs⟩
  case compare hne ih₁ ih₂ =>
    obtain ⟨us, hus⟩ := ih₁ hread.1 hprint.2.1
    obtain ⟨vs, hvs⟩ := ih₂ hread.2 hprint.2.2
    exact ⟨_, .compare hus hvs (Expr.substituteComparisons_ne_nil hne)⟩
  case conditional ih₁ ih₂ ih₃ =>
    obtain ⟨us, hus⟩ := ih₁ hread.1 hprint.2.2.1
    obtain ⟨vs, hvs⟩ := ih₂ hread.2.2.1 hprint.2.1
    obtain ⟨ws, hws⟩ := ih₃ hread.2.2.2.2 hprint.2.2.2
    exact ⟨_, .conditional hus hvs hws⟩
  case itemsNil => exact ⟨_, .itemsNil⟩
  case itemsLast ih =>
    obtain ⟨us, hus⟩ := ih hread hprint.1
    exact ⟨_, .itemsCons hus .itemsNil⟩
  case itemsCons ih₁ ih₂ =>
    obtain ⟨us, hus⟩ := ih₁ hread.1 hprint.1
    obtain ⟨vs, hvs⟩ := ih₂ hread.2.2 hprint.2
    exact ⟨_, .itemsCons hus hvs⟩
  case entriesNil => exact ⟨_, .entriesNil⟩
  case entriesLast ih₁ ih₂ =>
    obtain ⟨us, hus⟩ := ih₁ hread.1 hprint.1
    obtain ⟨vs, hvs⟩ := ih₂ hread.2.2 hprint.2.1
    exact ⟨_, .entriesCons hus hvs .entriesNil⟩
  case entriesCons ih₁ ih₂ ih₃ =>
    obtain ⟨us, hus⟩ := ih₁ hread.1 hprint.1
    obtain ⟨vs, hvs⟩ := ih₂ hread.2.2.1 hprint.2.1
    obtain ⟨ws, hws⟩ := ih₃ hread.2.2.2.2 hprint.2.2
    exact ⟨_, .entriesCons hus hvs hws⟩
  case positional ih =>
    obtain ⟨us, hus⟩ := ih hread hprint
    exact ⟨_, .positional hus⟩
  case keyword n _ ih =>
    obtain ⟨us, hus⟩ := ih hread.2.2 hprint
    exact ⟨_, .keyword hus hread.1⟩
  case unpack ih =>
    obtain ⟨us, hus⟩ := ih hread.2 hprint
    exact ⟨_, .unpack hus⟩
  case unpackKeywords ih =>
    obtain ⟨us, hus⟩ := ih hread.2 hprint
    exact ⟨_, .unpackKeywords hus⟩
  case argumentsNil => exact ⟨_, .argumentsNil⟩
  case argumentsLast ih =>
    obtain ⟨us, hus⟩ := ih hread hprint.1
    exact ⟨_, .argumentsCons hus .argumentsNil⟩
  case argumentsCons ih₁ ih₂ =>
    obtain ⟨us, hus⟩ := ih₁ hread.1 hprint.1
    obtain ⟨vs, hvs⟩ := ih₂ hread.2.2 hprint.2
    exact ⟨_, .argumentsCons hus hvs⟩
  case linksNil => exact ⟨_, .linksNil⟩
  case linksCons op _ _ ih₁ ih₂ =>
    obtain ⟨us, hus⟩ := ih₁ hread.2.1 hprint.1
    obtain ⟨vs, hvs⟩ := ih₂ hread.2.2 hprint.2
    exact ⟨_, .linksCons op hus hvs⟩
  case clausesNil => exact ⟨_, .clausesNil⟩
  case clausesCons ih₁ ih₂ ih₃ ih₄ =>
    obtain ⟨us, hus⟩ := ih₁ hread.2.1 (by simp [Part.substitute, Part.subterms])
    obtain ⟨vs, hvs⟩ := ih₂ hread.2.2.2.1 hprint.1
    obtain ⟨ws, hws⟩ := ih₃ hread.2.2.2.2.1 hprint.2.1
    obtain ⟨xs, hxs⟩ := ih₄ hread.2.2.2.2.2 hprint.2.2
    exact ⟨_, .clausesCons hus hvs hws hxs⟩
  case conditionsNil => exact ⟨_, .conditionsNil⟩
  case conditionsCons ih₁ ih₂ =>
    obtain ⟨us, hus⟩ := ih₁ hread.2.1 hprint.1
    obtain ⟨vs, hvs⟩ := ih₂ hread.2.2 hprint.2
    exact ⟨_, .conditionsCons hus hvs⟩
  case noBound => exact ⟨_, .noBound⟩
  case someBound ih =>
    obtain ⟨us, hus⟩ := ih hread hprint
    exact ⟨_, .someBound hus⟩
  case subscriptExpr ih =>
    obtain ⟨us, hus⟩ := ih hread hprint
    exact ⟨_, .subscriptExpr hus⟩
  case slice ih₁ ih₂ =>
    obtain ⟨us, hus⟩ := ih₁ hread.1 hprint.2.1
    obtain ⟨vs, hvs⟩ := ih₂ hread.2.2 hprint.2.2.1
    exact ⟨_, .slice hus hvs⟩
  case sliceStep s _ _ _ _ _ _ ih₁ ih₂ ih₃ =>
    obtain ⟨us, hus⟩ := ih₁ hread.1 hprint.2.1
    obtain ⟨vs, hvs⟩ := ih₂ hread.2.2.1 hprint.2.2.1
    obtain ⟨ws, hws⟩ := ih₃ hread.2.2.2.2 hprint.2.2.2
    cases s with
    | none => exact ⟨_, .slice hus hvs⟩
    | some s =>
      cases hws with
      | someBound hws => exact ⟨_, .sliceStep hus hvs hws⟩
  case subscriptsNil => exact ⟨_, .subscriptsNil⟩
  case subscriptsLast ih =>
    obtain ⟨us, hus⟩ := ih hread hprint.1
    exact ⟨_, .subscriptsCons hus .subscriptsNil⟩
  case subscriptsCons ih₁ ih₂ =>
    obtain ⟨us, hus⟩ := ih₁ hread.1 hprint.1
    obtain ⟨vs, hvs⟩ := ih₂ hread.2.2 hprint.2
    exact ⟨_, .subscriptsCons hus hvs⟩
  case indexOne ih =>
    obtain ⟨us, hus⟩ := ih hread hprint
    exact hus.exists_index
  case indexTuple ih₁ ih₂ =>
    obtain ⟨us, hus⟩ := ih₁ hread.1 hprint.2.1
    obtain ⟨vs, hvs⟩ := ih₂ hread.2.2 hprint.2.2
    exact ⟨_, .indexTuple (.subscriptsCons hus hvs)⟩
  case sourceOne ih =>
    obtain ⟨us, hus⟩ := ih hread hprint
    exact ⟨_, .source hus⟩
  case sourceTuple ih₁ ih₂ =>
    obtain ⟨us, hus⟩ := ih₁ hread.1 hprint.2.1
    obtain ⟨vs, hvs⟩ := ih₂ hread.2.2 hprint.2.2
    exact ⟨_, .source (.tuple (.itemsCons hus hvs))⟩

end Substitute

/-- Nothing is replaced in a part if no name has a replacement. -/
theorem substitute_none_of_spells (h : Spells part ts) :
    part.substitute (fun _ => none) = part := by
  induction h <;>
    simp_all [Part.substitute, Expr.str, Expr.substitute, Expr.substituteItems,
      Expr.substituteEntries, Expr.substituteArguments, Argument.substitute,
      Expr.substituteComparisons, Expr.substituteClauses, Expr.substituteOptional]

theorem printed_of_spells (h : Spells part ts) (hread : ∀ t ∈ ts, Lexer.IsRead t)
    (hplain : ∀ s ∈ part.subterms, s.isPlain = true) : ∃ us, Printed part us := by
  have hsame := substitute_none_of_spells h
  have hprinted := exists_printed_of_spells (f := fun _ => none) h hread
    (fun s hs => Expr.IsPrintable.of_isPlain hs) (by simp) (by rwa [hsame])
  rwa [hsame] at hprinted

end ComponentMarkup
