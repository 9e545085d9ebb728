import ComponentMarkup.Expr.Names
import ComponentMarkup.Proofs.Expr.Spelling

/-!
# Where the names of a source end up

A name in a source becomes a leaf of the expression, a name that a comprehension binds, the name of an
attribute or the keyword of an argument. The last two are told by the token beside them. So a name
that never stands after a point or before an equals sign occurs in the tree, as a leaf or as a target,
exactly as often as in the source.
-/

namespace ComponentMarkup

variable {p : String} {ts us : List Token} {n : Nat} {part : Part}

/-! ## Names that comprehensions bind -/

mutual

/-- The names that a target binds. -/
def Target.names : Target → List String
  | .name n => [n]
  | .tuple items => Target.namesOfAll items

/-- The names that targets bind. -/
def Target.namesOfAll : List Target → List String
  | [] => []
  | target :: rest => target.names ++ Target.namesOfAll rest

end

mutual

/-- The names that the comprehensions in an expression bind. -/
def Expr.targets : Expr → List String
  | .constant _ => []
  | .name _ => []
  | .list items => Expr.targetsOfItems items
  | .tuple items => Expr.targetsOfItems items
  | .dict entries => Expr.targetsOfEntries entries
  | .attribute value _ => value.targets
  | .subscript value index => value.targets ++ index.targets
  | .slice lower upper step =>
    Expr.targetsOfOptional lower ++ Expr.targetsOfOptional upper ++ Expr.targetsOfOptional step
  | .call func args => func.targets ++ Expr.targetsOfArguments args
  | .binary _ left right => left.targets ++ right.targets
  | .unary _ operand => operand.targets
  | .logic _ left right => left.targets ++ right.targets
  | .compare left comparisons => left.targets ++ Expr.targetsOfComparisons comparisons
  | .conditional test body orelse => test.targets ++ body.targets ++ orelse.targets
  | .listComp element clauses => element.targets ++ Expr.targetsOfClauses clauses
  | .generator element clauses => element.targets ++ Expr.targetsOfClauses clauses
  | .dictComp key value clauses => key.targets ++ value.targets ++ Expr.targetsOfClauses clauses

def Expr.targetsOfOptional : Option Expr → List String
  | none => []
  | some e => e.targets

def Expr.targetsOfItems : List Expr → List String
  | [] => []
  | item :: rest => item.targets ++ Expr.targetsOfItems rest

def Expr.targetsOfEntries : List (Expr × Expr) → List String
  | [] => []
  | (key, value) :: rest => key.targets ++ value.targets ++ Expr.targetsOfEntries rest

def Argument.targets : Argument → List String
  | .positional value => value.targets
  | .keyword _ value => value.targets
  | .unpack items => items.targets
  | .unpackKeywords entries => entries.targets

def Expr.targetsOfArguments : List Argument → List String
  | [] => []
  | arg :: rest => arg.targets ++ Expr.targetsOfArguments rest

def Expr.targetsOfComparisons : List (CompareOp × Expr) → List String
  | [] => []
  | (_, right) :: rest => right.targets ++ Expr.targetsOfComparisons rest

/-- The names that clauses bind, and those that are bound inside of them. -/
def Expr.targetsOfClauses : List Clause → List String
  | [] => []
  | ⟨target, iter, conditions⟩ :: rest =>
    target.names ++ iter.targets ++ Expr.targetsOfItems conditions ++ Expr.targetsOfClauses rest

end

/-! ## Names of parts -/

/-- The name leaves of a part. -/
def Part.leaves : Part → List String
  | .target _ => []
  | .targets _ => []
  | .expr e => e.names
  | .items es => Expr.namesOfItems es
  | .entries es => Expr.namesOfEntries es
  | .argument arg => arg.names
  | .arguments args => Expr.namesOfArguments args
  | .links cs => Expr.namesOfComparisons cs
  | .clauses cs => Expr.namesOfClauses cs
  | .conditions es => Expr.namesOfItems es
  | .bound e => Expr.namesOfOptional e
  | .subscript e => e.names
  | .subscripts es => Expr.namesOfItems es
  | .index e => e.names
  | .source e => e.names

/-- The names that comprehensions bind in a part. -/
def Part.targetNames : Part → List String
  | .target t => t.names
  | .targets ts => Target.namesOfAll ts
  | .expr e => e.targets
  | .items es => Expr.targetsOfItems es
  | .entries es => Expr.targetsOfEntries es
  | .argument arg => arg.targets
  | .arguments args => Expr.targetsOfArguments args
  | .links cs => Expr.targetsOfComparisons cs
  | .clauses cs => Expr.targetsOfClauses cs
  | .conditions es => Expr.targetsOfItems es
  | .bound e => Expr.targetsOfOptional e
  | .subscript e => e.targets
  | .subscripts es => Expr.targetsOfItems es
  | .index e => e.targets
  | .source e => e.targets

/-- How often a name is a leaf of a part or bound in it. -/
def Part.occurrences (p : String) (part : Part) : Nat :=
  part.leaves.count p + part.targetNames.count p

/-! ## Names among tokens -/

/-- The name that a token is. -/
def Token.name? : Token → Option String
  | .name n => some n
  | _ => none

/-- How often a name stands among tokens. -/
def nameCount (p : String) (ts : List Token) : Nat :=
  (ts.filterMap Token.name?).count p

theorem nameCount_append (p : String) (ts us : List Token) :
    nameCount p (ts ++ us) = nameCount p ts + nameCount p us := by
  rw [nameCount, List.filterMap_append, List.count_append]
  rfl

theorem nameCount_nil (p : String) : nameCount p [] = 0 := rfl

theorem nameCount_cons_symbol (p : String) (s : Symbol) (ts : List Token) :
    nameCount p (.symbol s :: ts) = nameCount p ts := rfl

theorem nameCount_cons_name (p n : String) (ts : List Token) :
    nameCount p (.name n :: ts) = (if n = p then 1 else 0) + nameCount p ts := by
  have hcons : (Token.name n :: ts).filterMap Token.name? = n :: ts.filterMap Token.name? := rfl
  rw [nameCount, nameCount, hcons, List.count_cons, Nat.add_comm]
  simp only [beq_iff_eq]

theorem nameCount_symbols (p : String) (symbols : List Symbol) :
    nameCount p (symbols.map .symbol) = 0 := by
  induction symbols with
  | nil => rfl
  | cons s symbols ih => exact ih

theorem nameCount_strings (p : String) (texts : List String) :
    nameCount p (texts.map .str) = 0 := by
  induction texts with
  | nil => rfl
  | cons text texts ih => exact ih

/-- A name stands after a point or before an equals sign. -/
def Labels (p : String) (ts : List Token) : Prop :=
  [.symbol .dot, .name p] <:+: ts ∨ [.name p, .symbol .assign] <:+: ts

theorem Labels.of_infix (h : Labels p us) (hus : us <:+: ts) : Labels p ts :=
  h.imp (·.trans hus) (·.trans hus)

theorem Labels.append_left (h : Labels p ts) : Labels p (ts ++ us) :=
  h.of_infix (List.prefix_append ts us).isInfix

theorem Labels.append_right (h : Labels p us) : Labels p (ts ++ us) :=
  h.of_infix (List.suffix_append ts us).isInfix

theorem Labels.cons {t : Token} (h : Labels p ts) : Labels p (t :: ts) :=
  h.of_infix (List.suffix_cons t ts).isInfix

/-- A number of occurrences accounts for the tokens, unless some of them are labels. -/
def Accounts (p : String) (n : Nat) (ts : List Token) : Prop :=
  n ≤ nameCount p ts ∧ (n = nameCount p ts ∨ Labels p ts)

/-- A single token that is a name counts once, and any other not at all. -/
theorem nameCount_singleton (p : String) (t : Token) :
    nameCount p [t] = if t.name? = some p then 1 else 0 := by
  cases t with
  | name n => simp [nameCount_cons_name, nameCount_nil, Token.name?]
  | symbol s => rfl
  | int i => rfl
  | float x => rfl
  | str text => rfl

theorem accounts_attribute (h : Accounts p n us) (attr : String) :
    Accounts p n (us ++ [.symbol .dot, .name attr]) := by
  obtain ⟨hle, heq⟩ := h
  rw [Accounts, nameCount_append, nameCount_cons_symbol, nameCount_singleton]
  refine ⟨by omega, ?_⟩
  by_cases hattr : attr = p
  · subst hattr
    exact .inr (.inl (List.suffix_append us _).isInfix)
  · rw [if_neg (by simpa [Token.name?] using hattr)]
    exact heq.imp_right Labels.append_left

theorem accounts_keyword (h : Accounts p n us) (name : String) :
    Accounts p n (.name name :: .symbol .assign :: us) := by
  obtain ⟨hle, heq⟩ := h
  rw [Accounts, nameCount_cons_name, nameCount_cons_symbol]
  refine ⟨by omega, ?_⟩
  by_cases hname : name = p
  · subst hname
    exact .inr (.inr ⟨[], us, rfl⟩)
  · rw [if_neg hname, Nat.zero_add]
    exact heq.imp_right fun h => h.cons.cons

/-- The names among the tokens of a part are its leaves, the names that are bound in it, and labels. -/
theorem Spells.accounts (h : Spells part ts) : Accounts p (part.occurrences p) ts := by
  induction h with
  | member attr _ ih => exact accounts_attribute ih attr
  | keyword name _ ih => exact accounts_keyword ih name
  | strings first more =>
    have hnone : nameCount p (.str first :: more.map .str) = 0 := nameCount_strings p (first :: more)
    rw [Accounts, hnone]
    exact ⟨Nat.le_refl 0, .inl rfl⟩
  | _ =>
    simp only [Accounts, Part.occurrences, Part.leaves, Part.targetNames, Target.names,
      Target.namesOfAll, Expr.names, Expr.targets, Expr.namesOfItems, Expr.targetsOfItems,
      Expr.namesOfEntries, Expr.targetsOfEntries, Argument.names, Argument.targets,
      Expr.namesOfArguments, Expr.targetsOfArguments, Expr.namesOfClauses, Expr.targetsOfClauses,
      Expr.namesOfOptional, Expr.targetsOfOptional, Expr.namesOfComparisons,
      Expr.targetsOfComparisons, List.count_append, List.count_nil, nameCount_append,
      nameCount_cons_symbol, nameCount_symbols, nameCount_nil] at *
    grind [nameCount_singleton, Token.name?, Labels.append_left, Labels.append_right, Labels.cons]

/-- A name that is no label occurs in the tree as often as among the tokens. -/
theorem Spells.occurrences_eq (h : Spells part ts) (hp : ¬ Labels p ts) :
    part.occurrences p = nameCount p ts :=
  h.accounts.2.resolve_right hp

/-- The leaves of a tree and the names bound in it stand among the tokens. -/
theorem Spells.name_mem (h : Spells part ts) {n : String}
    (hn : n ∈ part.leaves ∨ n ∈ part.targetNames) : .name n ∈ ts := by
  have hle := (h.accounts (p := n)).1
  have hpos : 0 < part.occurrences n := by
    rw [Part.occurrences]
    rcases hn with hn | hn
    · exact Nat.add_pos_left (List.count_pos_iff.mpr hn) _
    · exact Nat.add_pos_right _ (List.count_pos_iff.mpr hn)
  have hmem : n ∈ ts.filterMap Token.name? := List.count_pos_iff.mp (Nat.lt_of_lt_of_le hpos hle)
  obtain ⟨t, ht, hname⟩ := List.mem_filterMap.mp hmem
  cases t with
  | name m =>
    cases hname
    exact ht
  | symbol s => cases hname
  | int i => cases hname
  | float x => cases hname
  | str text => cases hname

/-- Something that stands only once in a list splits it in one way. -/
theorem append_cons_inj_of_not_mem {α : Type} {a : α} {l r l' r' : List α} (hl : a ∉ l') (hr : a ∉ r')
    (h : l ++ a :: r = l' ++ a :: r') : l = l' ∧ r = r' := by
  rcases List.append_eq_append_iff.mp h with ⟨mid, rfl, hmid⟩ | ⟨mid, rfl, hmid⟩
  · cases mid with
    | nil => exact ⟨(List.append_nil l).symm, (List.cons.inj hmid).2⟩
    | cons b mid =>
      obtain ⟨rfl, -⟩ := List.cons.inj hmid
      exact absurd (by simp) hl
  · cases mid with
    | nil => exact ⟨List.append_nil l', (List.cons.inj hmid).2.symm⟩
    | cons b mid =>
      obtain ⟨-, rfl⟩ := List.cons.inj hmid
      exact absurd (by simp) hr

/-- A name that stands once, between parentheses, is no label. -/
theorem not_labels_of_parens (hts : .name p ∉ ts) (hus : .name p ∉ us) :
    ¬ Labels p (ts ++ [.symbol .lparen, .name p, .symbol .rparen] ++ us) := by
  have hassoc : ts ++ [.symbol .lparen, .name p, .symbol .rparen] ++ us =
      (ts ++ [.symbol .lparen]) ++ .name p :: (.symbol .rparen :: us) := by simp
  have hbefore : .name p ∉ ts ++ [Token.symbol .lparen] := by simp [hts]
  have hafter : .name p ∉ Token.symbol .rparen :: us := by simp [hus]
  rw [hassoc]
  rintro (⟨x, y, hsplit⟩ | ⟨x, y, hsplit⟩)
  · rw [← List.singleton_append, ← List.append_assoc, List.append_assoc,
      List.singleton_append] at hsplit
    have hpoint := (append_cons_inj_of_not_mem hbefore hafter hsplit).1
    cases (List.append_inj' hpoint rfl).2
  · rw [List.append_assoc] at hsplit
    have hassign := (append_cons_inj_of_not_mem hbefore hafter hsplit).2
    cases hassign

end ComponentMarkup
