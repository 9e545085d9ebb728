import ComponentMarkup.Proofs.Expr.Scanning
import Mathlib.Algebra.Ring.Int.Defs

/-!
# Brackets in spellings

Every bracket in the spelling of an expression has its counterpart there. So an expression that is
spelled with one pair of brackets around all of its tokens is a list: any other expression that begins
with a bracket goes on after the counterpart.
-/

namespace ComponentMarkup

variable {ts : List Token} {e : Expr}

/-- Every bracket among the tokens has its counterpart. -/
inductive BalancedTokens : List Token → Prop where
  | nil : BalancedTokens []
  | other {t rest} : t.isBracket = false → BalancedTokens rest → BalancedTokens (t :: rest)
  | group {s s' inner rest} : (s, s') ∈ Symbol.brackets → BalancedTokens inner →
      BalancedTokens rest → BalancedTokens (.symbol s :: inner ++ .symbol s' :: rest)

namespace BalancedTokens

variable {us : List Token}

theorem append (h : BalancedTokens ts) (h' : BalancedTokens us) : BalancedTokens (ts ++ us) := by
  induction h with
  | nil => exact h'
  | other ht _ ih => exact .other ht ih
  | @group s s' inner rest hs hinner _ _ ih =>
    have hassoc : .symbol s :: inner ++ .symbol s' :: rest ++ us =
        .symbol s :: inner ++ .symbol s' :: (rest ++ us) := by simp
    rw [hassoc]
    exact .group hs hinner ih

/-- Tokens between brackets. -/
theorem wrap {s s' : Symbol} (hs : (s, s') ∈ Symbol.brackets) (h : BalancedTokens ts) :
    BalancedTokens (.symbol s :: ts ++ [.symbol s']) :=
  .group hs h .nil

/-- Tokens with one that is no bracket between them. -/
theorem join {t : Token} (ht : t.isBracket = false) (h : BalancedTokens ts)
    (h' : BalancedTokens us) : BalancedTokens (ts ++ t :: us) :=
  h.append (.other ht h')

theorem of_others (h : ∀ t ∈ ts, t.isBracket = false) : BalancedTokens ts := by
  induction ts with
  | nil => exact .nil
  | cons t ts ih =>
    exact .other (h t List.mem_cons_self) (ih fun x hx => h x (List.mem_cons_of_mem t hx))

end BalancedTokens

/-! ## Depth -/

/-- How many more brackets a token opens than it closes. -/
def Token.rise : Token → Int
  | .symbol s =>
    if Symbol.brackets.any (·.1 == s) then 1 else if Symbol.brackets.any (·.2 == s) then -1 else 0
  | _ => 0

/-- How many more brackets are opened than closed. -/
def depth (ts : List Token) : Int :=
  (ts.map Token.rise).sum

theorem depth_cons (t : Token) (ts : List Token) : depth (t :: ts) = t.rise + depth ts := by
  rw [depth, depth, List.map_cons, List.sum_cons]

theorem depth_append (ts us : List Token) : depth (ts ++ us) = depth ts + depth us := by
  rw [depth, depth, depth, List.map_append, List.sum_append]

theorem rise_of_isBracket {t : Token} (h : t.isBracket = false) : t.rise = 0 := by
  cases t with
  | symbol s => cases s <;> first | rfl | cases h
  | name n => rfl
  | int i => rfl
  | float x => rfl
  | str s => rfl

theorem rise_of_mem_brackets {s s' : Symbol} (h : (s, s') ∈ Symbol.brackets) :
    (Token.symbol s).rise = 1 ∧ (Token.symbol s').rise = -1 := by
  simp only [Symbol.brackets, List.mem_cons, Prod.mk.injEq, List.not_mem_nil, or_false] at h
  rcases h with ⟨rfl, rfl⟩ | ⟨rfl, rfl⟩ | ⟨rfl, rfl⟩ <;> exact ⟨rfl, rfl⟩

namespace BalancedTokens

variable {us : List Token}

theorem depth_eq (h : BalancedTokens ts) : depth ts = 0 := by
  induction h with
  | nil => rfl
  | other ht _ ih => rw [depth_cons, rise_of_isBracket ht, ih, Int.add_zero]
  | group hs _ _ ih₁ ih₂ =>
    obtain ⟨hopen, hclose⟩ := rise_of_mem_brackets hs
    rw [depth_append, depth_cons, depth_cons, hopen, hclose, ih₁, ih₂]
    rfl

/-- No more brackets are closed than were opened before. -/
theorem depth_nonneg {vs : List Token} (h : BalancedTokens ts) (hsplit : us ++ vs = ts) :
    0 ≤ depth us := by
  induction h generalizing us vs with
  | nil =>
    rw [(List.append_eq_nil_iff.mp hsplit).1]
    exact Int.le_refl 0
  | other ht _ ih =>
    cases us with
    | nil => exact Int.le_refl 0
    | cons u us =>
      obtain ⟨rfl, hrest⟩ := List.cons.inj hsplit
      have hus := ih hrest
      rw [depth_cons, rise_of_isBracket ht]
      omega
  | @group s s' inner rest hs hinner _ ih₁ ih₂ =>
    obtain ⟨hopen, hclose⟩ := rise_of_mem_brackets hs
    cases us with
    | nil => exact Int.le_refl 0
    | cons u us =>
      obtain ⟨rfl, hrest⟩ := List.cons.inj hsplit
      rw [depth_cons, hopen]
      rcases List.append_eq_append_iff.mp hrest with ⟨mid, hmid, -⟩ | ⟨mid, rfl, hmid⟩
      · -- the part ends inside of the brackets
        have hus := ih₁ hmid.symm
        omega
      · -- it holds the inner tokens, which do not count, and may go on after the closing bracket
        rw [depth_append, hinner.depth_eq]
        cases mid with
        | nil =>
          have hzero : depth [] = 0 := rfl
          omega
        | cons m mid =>
          obtain ⟨rfl, hmore⟩ := List.cons.inj hmid
          have hafter := ih₂ hmore.symm
          rw [depth_cons, hclose]
          omega

/-- Between brackets only the whole is balanced. -/
theorem eq_nil_of_wrap {s s' : Symbol} (hs : (s, s') ∈ Symbol.brackets) {inner : List Token}
    (hinner : BalancedTokens inner) (hts : BalancedTokens ts) (hne : ts ≠ [])
    (hsplit : ts ++ us = .symbol s :: inner ++ [.symbol s']) : us = [] := by
  obtain ⟨hopen, -⟩ := rise_of_mem_brackets hs
  cases ts with
  | nil => exact absurd rfl hne
  | cons t ts =>
    obtain ⟨rfl, hrest⟩ := List.cons.inj hsplit
    have hdepth := hts.depth_eq
    rw [depth_cons, hopen] at hdepth
    rcases List.append_eq_append_iff.mp hrest with ⟨mid, hmid, -⟩ | ⟨mid, hmid, hlast⟩
    · have hnonneg := hinner.depth_nonneg hmid.symm
      omega
    · cases mid with
      | nil =>
        rw [hmid, List.append_nil, hinner.depth_eq] at hdepth
        omega
      | cons m mid =>
        have hempty := (List.cons.inj hlast).2
        exact (List.append_eq_nil_iff.mp hempty.symm).2

end BalancedTokens

/-! ## Spellings -/

theorem isBracket_binaryOp (op : BinaryOp) : (Token.symbol op.symbol).isBracket = false := by
  cases op <;> rfl

theorem isBracket_unaryOp (op : UnaryOp) : (Token.symbol op.symbol).isBracket = false := by
  cases op <;> rfl

theorem isBracket_boolOp (op : BoolOp) : (Token.symbol op.symbol).isBracket = false := by
  cases op <;> rfl

theorem balanced_compareOp (op : CompareOp) : BalancedTokens (op.symbols.map .symbol) := by
  cases op with
  | notMem => exact .other rfl (.other rfl .nil)
  | isNot => exact .other rfl (.other rfl .nil)
  | _ => exact .other rfl .nil

theorem Spells.balanced {part : Part} (h : Spells part ts) : BalancedTokens ts := by
  induction h with
  -- brackets around a part
  | targetParens _ ih | targetBracketName _ ih | targetBracketTuple _ ih | parens _ ih | list _ ih
  | dict _ ih => exact ih.wrap (by decide)
  | emptyTuple => exact .wrap (by decide) .nil
  | tuple _ _ ih₁ ih₂ => exact (ih₁.join rfl ih₂).wrap (by decide)
  | generator _ _ _ ih₁ ih₂ | listComp _ _ _ ih₁ ih₂ => exact (ih₁.append ih₂).wrap (by decide)
  | dictComp _ _ _ _ ih₁ ih₂ ih₃ => exact (ih₁.join rfl (ih₂.append ih₃)).wrap (by decide)
  -- brackets after a part
  | subscripted _ _ ih₁ ih₂ | call _ _ _ ih₁ ih₂ => exact ih₁.append (ih₂.wrap (by decide))
  | callGenerator _ _ _ _ ih₁ ih₂ ih₃ => exact ih₁.append ((ih₂.append ih₃).wrap (by decide))
  -- single tokens
  | targetName _ | name _ | int _ | float _ | none | true | false => exact .other rfl .nil
  | strings first more =>
    refine .of_others ?_
    intro t ht
    rcases List.mem_cons.mp ht with rfl | ht
    · rfl
    · obtain ⟨text, -, rfl⟩ := List.mem_map.mp ht
      rfl
  -- parts with marks between them
  | member attr _ ih => exact ih.append (.other rfl (.other rfl .nil))
  | binary op _ _ ih₁ ih₂ => exact ih₁.join (isBracket_binaryOp op) ih₂
  | unary op _ ih => exact .other (isBracket_unaryOp op) ih
  | logic op _ _ ih₁ ih₂ => exact ih₁.join (isBracket_boolOp op) ih₂
  | compare _ _ _ ih₁ ih₂ => exact ih₁.append ih₂
  | targetTuple _ _ ih₁ ih₂ | targetsCons _ _ ih₁ ih₂ | itemsCons _ _ ih₁ ih₂
  | entriesLast _ _ ih₁ ih₂ | argumentsCons _ _ ih₁ ih₂ | slice _ _ ih₁ ih₂
  | subscriptsCons _ _ ih₁ ih₂ | indexTuple _ _ ih₁ ih₂ | sourceTuple _ _ ih₁ ih₂ =>
    exact ih₁.join rfl ih₂
  | conditional _ _ _ ih₁ ih₂ ih₃ | entriesCons _ _ _ ih₁ ih₂ ih₃ | sliceStep _ _ _ ih₁ ih₂ ih₃ =>
    exact ih₁.join rfl (ih₂.join rfl ih₃)
  | keyword n _ ih => exact .other rfl (.other rfl ih)
  | unpack _ ih | unpackKeywords _ ih => exact .other rfl ih
  | linksCons op _ _ ih₁ ih₂ => exact (balanced_compareOp op).append (ih₁.append ih₂)
  | clausesCons _ _ _ _ ih₁ ih₂ ih₃ ih₄ =>
    exact .other rfl (ih₁.join rfl (ih₂.append (ih₃.append ih₄)))
  | conditionsCons _ _ ih₁ ih₂ => exact .other rfl (ih₁.append ih₂)
  -- nothing, and parts that stand for others
  | targetsNil | itemsNil | entriesNil | argumentsNil | linksNil | clausesNil | conditionsNil
  | noBound | subscriptsNil => exact .nil
  | targetsLast _ ih | itemsLast _ ih | positional _ ih | argumentsLast _ ih | someBound _ ih
  | subscriptExpr _ ih | subscriptsLast _ ih | indexOne _ ih | sourceOne _ ih => exact ih

theorem Spells.ne_nil (h : Spells (.expr e) ts) : ts ≠ [] := by
  generalize hpart : Part.expr e = part at h
  induction h generalizing e with
  | member _ _ _ => simp
  | subscripted _ _ _ _ => simp
  | call _ _ _ _ _ => simp
  | callGenerator _ _ _ _ _ _ _ => simp
  | binary _ _ _ _ _ => simp
  | logic _ _ _ _ _ => simp
  | conditional _ _ _ _ _ _ => simp
  | compare _ _ _ ih _ =>
    intro hnil
    exact ih rfl (List.append_eq_nil_iff.mp hnil).1
  | _ => first | (cases hpart; done) | simp

theorem Spells.links_ne_nil {cs : List (CompareOp × Expr)} (h : Spells (.links cs) ts)
    (hcs : cs ≠ []) : ts ≠ [] := by
  cases h with
  | linksNil => exact absurd rfl hcs
  | linksCons op he _ =>
    intro hnil
    have hrest := (List.append_eq_nil_iff.mp hnil).2
    exact he.ne_nil (List.append_eq_nil_iff.mp hrest).1

/-- The bracket that displays of lists and dicts begin with, and the comprehensions that make them. -/
def Expr.opener? : Expr → Option Symbol
  | .list _ | .listComp .. => some .lbracket
  | .dict _ | .dictComp .. => some .lbrace
  | _ => none

/-- An expression with one pair of brackets around all of its tokens is what these brackets make.
Parentheses are left out: they may stand around any expression. -/
theorem Spells.opener?_of_wrap {s s' : Symbol} (hs : (s, s') ∈ Symbol.brackets)
    (hparen : s ≠ .lparen) (hts : BalancedTokens ts)
    (h : Spells (.source e) (.symbol s :: ts ++ [.symbol s'])) : e.opener? = some s := by
  -- a part in front of other tokens would have to be the whole
  have hwhole : ∀ {e us vs}, Spells (.expr e) us →
      us ++ vs = .symbol s :: ts ++ [.symbol s'] → vs = [] := by
    intro e us vs hus hsplit
    exact BalancedTokens.eq_nil_of_wrap hs hts hus.balanced hus.ne_nil hsplit
  have hfirst : (Token.symbol s :: ts ++ [Token.symbol s']).head? = some (Token.symbol s) := rfl
  have hopen := (rise_of_mem_brackets hs).1
  generalize Token.symbol s :: ts ++ [Token.symbol s'] = all at h hwhole hfirst
  cases h with
  | sourceTuple hus _ => cases hwhole hus rfl
  | sourceOne h =>
    cases h with
    | list _ | listComp _ _ _ | dict _ | dictComp _ _ _ _ =>
      cases hfirst
      rfl
    | parens _ | emptyTuple | tuple _ _ | generator _ _ _ =>
      cases hfirst
      exact absurd rfl hparen
    | member _ hus | subscripted hus _ | call hus _ _ | callGenerator hus _ _ _ | binary _ hus _
    | logic _ hus _ | conditional hus _ _ => cases hwhole hus rfl
    | compare hus hvs hcs => exact absurd (hwhole hus rfl) (hvs.links_ne_nil hcs)
    | unary op _ =>
      cases hfirst
      cases op <;> cases hopen
    | _ => cases hfirst <;> cases hopen

theorem Spells.isList_of_brackets (hts : BalancedTokens ts)
    (h : Spells (.source e) (.symbol .lbracket :: ts ++ [.symbol .rbracket])) :
    (∃ items, e = .list items) ∨ ∃ element clauses, e = .listComp element clauses := by
  have hopener := h.opener?_of_wrap (by decide) (by decide) hts
  cases e with
  | list items => exact .inl ⟨items, rfl⟩
  | listComp element clauses => exact .inr ⟨element, clauses, rfl⟩
  | _ => cases hopener

theorem Spells.isDict_of_braces (hts : BalancedTokens ts)
    (h : Spells (.source e) (.symbol .lbrace :: ts ++ [.symbol .rbrace])) :
    (∃ entries, e = .dict entries) ∨ ∃ key value clauses, e = .dictComp key value clauses := by
  have hopener := h.opener?_of_wrap (by decide) (by decide) hts
  cases e with
  | dict entries => exact .inl ⟨entries, rfl⟩
  | dictComp key value clauses => exact .inr ⟨key, value, clauses, rfl⟩
  | _ => cases hopener

end ComponentMarkup
