import ComponentMarkup.Expr.Basic
import ComponentMarkup.Expr.Token

/-!
# Spellings of expressions

Which sequences of tokens spell which expression. `Spells` is the grammar of expressions without
its rules of precedence: a sequence may spell several expressions, of which the parser chooses one.
What holds of every spelling therefore holds of everything that is read.

Parts of expressions that are no expressions themselves (targets, lists of items, arguments, links
of a comparison, clauses, indices) are spelled too. They are the cases of `Part`, so that `Spells`
is one relation and one induction covers all of them.
-/

namespace ComponentMarkup

/-! ## Operators as tokens -/

/-- The token of an operator on two operands. -/
def BinaryOp.symbol : BinaryOp → Symbol
  | .add => .plus
  | .sub => .minus
  | .mul => .star
  | .div => .slash
  | .floorDiv => .doubleSlash
  | .mod => .percent
  | .pow => .doubleStar

/-- The token of an operator on one operand. -/
def UnaryOp.symbol : UnaryOp → Symbol
  | .neg => .minus
  | .pos => .plus
  | .not => .not

/-- The token of an operator that may leave its right operand out. -/
def BoolOp.symbol : BoolOp → Symbol
  | .and => .and
  | .or => .or

/-- The tokens of a comparison. -/
def CompareOp.symbols : CompareOp → List Symbol
  | .eq => [.eq]
  | .ne => [.ne]
  | .lt => [.lt]
  | .le => [.le]
  | .gt => [.gt]
  | .ge => [.ge]
  | .mem => [.in]
  | .notMem => [.not, .in]
  | .is => [.is]
  | .isNot => [.is, .not]

/-! ## Spellings -/

/-- The keyword that an argument is passed as. -/
def Argument.keyword? : Argument → Option String
  | .keyword name _ => some name
  | _ => none

/-- What a sequence of tokens can spell. -/
inductive Part where
  | target (target : Target)
  /-- Targets with commas between them, and perhaps one at the end. -/
  | targets (targets : List Target)
  | expr (e : Expr)
  /-- Expressions with commas between them, and perhaps one at the end. -/
  | items (items : List Expr)
  /-- Dictionary entries with commas between them, and perhaps one at the end. -/
  | entries (entries : List (Expr × Expr))
  | argument (arg : Argument)
  /-- Arguments with commas between them, and perhaps one at the end. -/
  | arguments (args : List Argument)
  /-- The later links of a chain of comparisons. -/
  | links (comparisons : List (CompareOp × Expr))
  /-- The clauses of a comprehension. -/
  | clauses (clauses : List Clause)
  /-- The conditions of a clause. -/
  | conditions (conditions : List Expr)
  /-- A bound or step of a slice, which may be left out. -/
  | bound (bound : Option Expr)
  /-- One index: an expression or a slice. -/
  | subscript (index : Expr)
  /-- Indices with commas between them, and perhaps one at the end. -/
  | subscripts (indices : List Expr)
  /-- What stands between the brackets of a subscript. -/
  | index (index : Expr)
  /-- A whole source. -/
  | source (e : Expr)

/-- A sequence of tokens spells a part of an expression. -/
inductive Spells : Part → List Token → Prop where
  -- targets
  | targetName (n : String) : Spells (.target (.name n)) [.name n]
  | targetParens {t ts} : Spells (.target t) ts →
      Spells (.target t) (.symbol .lparen :: ts ++ [.symbol .rparen])
  | targetTuple {t ts us vs} : Spells (.target t) us → Spells (.targets ts) vs →
      Spells (.target (.tuple (t :: ts))) (us ++ .symbol .comma :: vs)
  | targetBracketName {n ts} : Spells (.target (.name n)) ts →
      Spells (.target (.tuple [.name n])) (.symbol .lbracket :: ts ++ [.symbol .rbracket])
  | targetBracketTuple {items ts} : Spells (.target (.tuple items)) ts →
      Spells (.target (.tuple items)) (.symbol .lbracket :: ts ++ [.symbol .rbracket])
  | targetsNil : Spells (.targets []) []
  | targetsLast {t us} : Spells (.target t) us → Spells (.targets [t]) us
  | targetsCons {t ts us vs} : Spells (.target t) us → Spells (.targets ts) vs →
      Spells (.targets (t :: ts)) (us ++ .symbol .comma :: vs)
  -- names and literals
  | name (n : String) : Spells (.expr (.name n)) [.name n]
  | int (i : Int64) : Spells (.expr (.constant (.int i))) [.int i]
  | float (x : Float) : Spells (.expr (.constant (.float x))) [.float x]
  | none : Spells (.expr (.constant .none)) [.symbol .none]
  | true : Spells (.expr (.constant (.bool true))) [.symbol .true]
  | false : Spells (.expr (.constant (.bool false))) [.symbol .false]
  | strings (first : String) (more : List String) :
      Spells (.expr (.str (more.foldl (· ++ ·) first))) (.str first :: more.map .str)
  -- brackets
  | parens {e ts} : Spells (.expr e) ts →
      Spells (.expr e) (.symbol .lparen :: ts ++ [.symbol .rparen])
  | emptyTuple : Spells (.expr (.tuple [])) [.symbol .lparen, .symbol .rparen]
  | tuple {e es us vs} : Spells (.expr e) us → Spells (.items es) vs →
      Spells (.expr (.tuple (e :: es)))
        (.symbol .lparen :: (us ++ .symbol .comma :: vs) ++ [.symbol .rparen])
  | list {es ts} : Spells (.items es) ts →
      Spells (.expr (.list es)) (.symbol .lbracket :: ts ++ [.symbol .rbracket])
  | dict {es ts} : Spells (.entries es) ts →
      Spells (.expr (.dict es)) (.symbol .lbrace :: ts ++ [.symbol .rbrace])
  | generator {e cs us vs} : Spells (.expr e) us → Spells (.clauses cs) vs → cs ≠ [] →
      Spells (.expr (.generator e cs)) (.symbol .lparen :: (us ++ vs) ++ [.symbol .rparen])
  | listComp {e cs us vs} : Spells (.expr e) us → Spells (.clauses cs) vs → cs ≠ [] →
      Spells (.expr (.listComp e cs)) (.symbol .lbracket :: (us ++ vs) ++ [.symbol .rbracket])
  | dictComp {k e cs us vs ws} : Spells (.expr k) us → Spells (.expr e) vs →
      Spells (.clauses cs) ws → cs ≠ [] →
      Spells (.expr (.dictComp k e cs))
        (.symbol .lbrace :: (us ++ .symbol .colon :: (vs ++ ws)) ++ [.symbol .rbrace])
  -- attributes, subscripts and calls
  | member {e us} (attr : String) : Spells (.expr e) us →
      Spells (.expr (.attribute e attr)) (us ++ [.symbol .dot, .name attr])
  | subscripted {e i us vs} : Spells (.expr e) us → Spells (.index i) vs →
      Spells (.expr (.subscript e i)) (us ++ (.symbol .lbracket :: vs ++ [.symbol .rbracket]))
  | call {f args us vs} : Spells (.expr f) us → Spells (.arguments args) vs →
      (args.filterMap Argument.keyword?).Nodup →
      Spells (.expr (.call f args)) (us ++ (.symbol .lparen :: vs ++ [.symbol .rparen]))
  | callGenerator {f e cs us vs ws} : Spells (.expr f) us → Spells (.expr e) vs →
      Spells (.clauses cs) ws → cs ≠ [] →
      Spells (.expr (.call f [.positional (.generator e cs)]))
        (us ++ (.symbol .lparen :: (vs ++ ws) ++ [.symbol .rparen]))
  -- operators
  | binary {a b us vs} (op : BinaryOp) : Spells (.expr a) us → Spells (.expr b) vs →
      Spells (.expr (.binary op a b)) (us ++ .symbol op.symbol :: vs)
  | unary {a us} (op : UnaryOp) : Spells (.expr a) us →
      Spells (.expr (.unary op a)) (.symbol op.symbol :: us)
  | logic {a b us vs} (op : BoolOp) : Spells (.expr a) us → Spells (.expr b) vs →
      Spells (.expr (.logic op a b)) (us ++ .symbol op.symbol :: vs)
  | compare {a cs us vs} : Spells (.expr a) us → Spells (.links cs) vs → cs ≠ [] →
      Spells (.expr (.compare a cs)) (us ++ vs)
  | conditional {t a b us vs ws} : Spells (.expr a) us → Spells (.expr t) vs →
      Spells (.expr b) ws →
      Spells (.expr (.conditional t a b)) (us ++ .symbol .if :: (vs ++ .symbol .else :: ws))
  -- sequences
  | itemsNil : Spells (.items []) []
  | itemsLast {e us} : Spells (.expr e) us → Spells (.items [e]) us
  | itemsCons {e es us vs} : Spells (.expr e) us → Spells (.items es) vs →
      Spells (.items (e :: es)) (us ++ .symbol .comma :: vs)
  | entriesNil : Spells (.entries []) []
  | entriesLast {k e us vs} : Spells (.expr k) us → Spells (.expr e) vs →
      Spells (.entries [(k, e)]) (us ++ .symbol .colon :: vs)
  | entriesCons {k e es us vs ws} : Spells (.expr k) us → Spells (.expr e) vs →
      Spells (.entries es) ws →
      Spells (.entries ((k, e) :: es)) (us ++ .symbol .colon :: (vs ++ .symbol .comma :: ws))
  | positional {e us} : Spells (.expr e) us → Spells (.argument (.positional e)) us
  | keyword {e us} (n : String) : Spells (.expr e) us →
      Spells (.argument (.keyword n e)) (.name n :: .symbol .assign :: us)
  | unpack {e us} : Spells (.expr e) us → Spells (.argument (.unpack e)) (.symbol .star :: us)
  | unpackKeywords {e us} : Spells (.expr e) us →
      Spells (.argument (.unpackKeywords e)) (.symbol .doubleStar :: us)
  | argumentsNil : Spells (.arguments []) []
  | argumentsLast {a us} : Spells (.argument a) us → Spells (.arguments [a]) us
  | argumentsCons {a args us vs} : Spells (.argument a) us → Spells (.arguments args) vs →
      Spells (.arguments (a :: args)) (us ++ .symbol .comma :: vs)
  | linksNil : Spells (.links []) []
  | linksCons {e cs us vs} (op : CompareOp) : Spells (.expr e) us → Spells (.links cs) vs →
      Spells (.links ((op, e) :: cs)) (op.symbols.map .symbol ++ (us ++ vs))
  | clausesNil : Spells (.clauses []) []
  | clausesCons {t e conds cs us vs ws xs} : Spells (.target t) us → Spells (.expr e) vs →
      Spells (.conditions conds) ws → Spells (.clauses cs) xs →
      Spells (.clauses (⟨t, e, conds⟩ :: cs))
        (.symbol .for :: (us ++ .symbol .in :: (vs ++ (ws ++ xs))))
  | conditionsNil : Spells (.conditions []) []
  | conditionsCons {e es us vs} : Spells (.expr e) us → Spells (.conditions es) vs →
      Spells (.conditions (e :: es)) (.symbol .if :: (us ++ vs))
  -- indices
  | noBound : Spells (.bound .none) []
  | someBound {e us} : Spells (.expr e) us → Spells (.bound (.some e)) us
  | subscriptExpr {e us} : Spells (.expr e) us → Spells (.subscript e) us
  | slice {l u us vs} : Spells (.bound l) us → Spells (.bound u) vs →
      Spells (.subscript (.slice l u .none)) (us ++ .symbol .colon :: vs)
  | sliceStep {l u s us vs ws} : Spells (.bound l) us → Spells (.bound u) vs →
      Spells (.bound s) ws →
      Spells (.subscript (.slice l u s)) (us ++ .symbol .colon :: (vs ++ .symbol .colon :: ws))
  | subscriptsNil : Spells (.subscripts []) []
  | subscriptsLast {e us} : Spells (.subscript e) us → Spells (.subscripts [e]) us
  | subscriptsCons {e es us vs} : Spells (.subscript e) us → Spells (.subscripts es) vs →
      Spells (.subscripts (e :: es)) (us ++ .symbol .comma :: vs)
  | indexOne {e us} : Spells (.subscript e) us → Spells (.index e) us
  | indexTuple {e es us vs} : Spells (.subscript e) us → Spells (.subscripts es) vs →
      Spells (.index (.tuple (e :: es))) (us ++ .symbol .comma :: vs)
  -- whole sources
  | sourceOne {e us} : Spells (.expr e) us → Spells (.source e) us
  | sourceTuple {e es us vs} : Spells (.expr e) us → Spells (.items es) vs →
      Spells (.source (.tuple (e :: es))) (us ++ .symbol .comma :: vs)

end ComponentMarkup
