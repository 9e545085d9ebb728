import ComponentMarkup.Proofs.Expr.Leaving
import ComponentMarkup.Proofs.Expr.PrintedText
import ComponentMarkup.Proofs.Expr.Reading

/-!
# Reading printed expressions

A printed expression is read back as the expression it was printed from. Every printed expression
is an atom with trailers, since operations stand in parentheses. So it is read by `atom` and
`trailers`, and all levels of precedence above them pass it on, as long as the token after it binds
more loosely than the level. The bounds on the depth of recursion are met because twelve calls per
token suffice.
-/

namespace ComponentMarkup

open ComponentMarkup.Parser

variable {t : Option Token} {ts : List Token}

/-! ## How tightly a token binds to the expression before it -/

/-- The tightest level at which a symbol continues the expression before it: 1 for conditional
expressions, 2 and up for the levels of operators, 9 for trailers, and 0 if it does not. -/
def Symbol.binding : Symbol → Nat
  | .if => 1
  | .or => 2
  | .and => 3
  | .eq | .ne | .lt | .le | .gt | .ge | .in | .not | .is => 4
  | .plus | .minus => 5
  | .star | .slash | .doubleSlash | .percent => 6
  | .doubleStar => 8
  | .lparen | .lbracket | .dot => 9
  | _ => 0

/-- How tightly the next token continues the expression before it. A string literal is joined to one
before it. -/
def binding : Option Token → Nat
  | some (.symbol s) => s.binding
  | some (.str _) => 10
  | _ => 0

theorem binding_cons (s : Symbol) (ts : List Token) :
    binding (Token.symbol s :: ts).head? = s.binding := rfl

/-- The place of a level in the order of `binding`. -/
def Parser.Level.rank : Level → Nat
  | .or => 2
  | .and => 3
  | .not => 4
  | .comparison => 4
  | .sum => 5
  | .product => 6
  | .sign => 8
  | .power => 8

theorem joiner?_eq_none (h : binding t < l.rank) : joiner? l t = none := by
  unfold joiner?
  split
  all_goals first | rfl | exact absurd h (by decide)

theorem comparison?_eq_none {u : Option Token} (h : binding t < 4) : comparison? t u = none := by
  unfold comparison?
  split
  all_goals first | rfl | exact absurd h (by decide)

theorem head?_ne_of_binding (h : binding ts.head? < s.binding) : ts.head? ≠ some (.symbol s) := by
  intro heq
  rw [heq] at h
  exact absurd h (Nat.lt_irrefl _)

/-- The tokens that an atom begins with. -/
def Token.opens : Token → Bool
  | .symbol s => s ∈ [Symbol.lparen, .lbracket, .lbrace, .none, .true, .false]
  | _ => true

/-! ## Passing an operand on through the levels -/

/-- An expression is read at a level, at every depth from `n` on. -/
def ReadsAt (l : Level) (n : Nat) (ts : List Token) (e : Expr) (vs : List Token) : Prop :=
  ∀ d, n ≤ d → Leaves (level d l) ts e vs

/-- An atom and its trailers. -/
def Parser.primary (depth : Nat) : Parser Expr :=
  atom depth >>= trailers depth

namespace ReadsAt

variable {ts us vs : List Token} {a b e : Expr} {m n : Nat} {here next l : Level}

theorem mono (h : ReadsAt l n ts e vs) (hmn : n ≤ m) : ReadsAt l m ts e vs :=
  fun d hd => h d (Nat.le_trans hmn hd)

/-- A reader of the next deeper level gives one of this level. -/
theorem of_step (h : ∀ d, n ≤ d → Leaves (level (d + 1) l) ts e vs) : ReadsAt l (n + 1) ts e vs := by
  intro d hd
  obtain ⟨k, rfl⟩ : ∃ k, d = k + 1 := ⟨d - 1, by omega⟩
  exact h k (by omega)

theorem power (h : ∀ d, n ≤ d → Leaves (primary d) ts e vs) (hquiet : binding vs.head? < 8) :
    ReadsAt .power (n + 1) ts e vs := by
  refine of_step fun d hd => ?_
  rw [level, ← bind_assoc]
  refine (h d hd).bind (Leaves.eatOther (head?_ne_of_binding (s := .doubleStar) hquiet) ?_)
  exact Leaves.pure e vs

theorem sign (h : ReadsAt .power n ts e vs) (hhead : ∃ t, ts.head? = some t ∧ t.opens = true) :
    ReadsAt .sign (n + 1) ts e vs := by
  refine of_step fun d hd => ?_
  obtain ⟨t, ht, hopens⟩ := hhead
  rw [level]
  refine Leaves.peek ?_
  rw [ht]
  split
  · next heq =>
    cases heq
    exact absurd hopens (by decide)
  · next heq =>
    cases heq
    exact absurd hopens (by decide)
  · exact h d hd

/-- The levels of left-associative operators and the levels of their operands. -/
def joinedLevels : List (Level × Level) :=
  [(.or, .and), (.and, .not), (.sum, .product), (.product, .sign)]

theorem level_joined (hlevels : (here, next) ∈ joinedLevels) (d : Nat) :
    level (d + 1) here = level d next >>= fun left => joined d here next left := by
  simp only [joinedLevels, List.mem_cons, Prod.mk.injEq, List.not_mem_nil, or_false] at hlevels
  rcases hlevels with ⟨rfl, rfl⟩ | ⟨rfl, rfl⟩ | ⟨rfl, rfl⟩ | ⟨rfl, rfl⟩ <;> rw [level]

theorem leaves_joined (hd : 0 < d) (hquiet : binding vs.head? < here.rank) :
    Leaves (joined d here next e) vs e vs := by
  obtain ⟨k, rfl⟩ : ∃ k, d = k + 1 := ⟨d - 1, by omega⟩
  rw [joined]
  refine Leaves.peek ?_
  rw [joiner?_eq_none hquiet]
  exact Leaves.pure e vs

/-- An operand without operators of this level. -/
theorem operand (hlevels : (here, next) ∈ joinedLevels) (h : ReadsAt next n ts e vs) (hn : 0 < n)
    (hquiet : binding vs.head? < here.rank) : ReadsAt here (n + 1) ts e vs := by
  refine of_step fun d hd => ?_
  rw [level_joined hlevels]
  exact (h d hd).bind (leaves_joined (by omega) hquiet)

/-- Two operands with an operator of this level between them. -/
theorem join {op : Expr → Expr → Expr} (hlevels : (here, next) ∈ joinedLevels)
    (hop : joiner? here (some (.symbol s)) = some op)
    (hleft : ReadsAt next n ts a (.symbol s :: us)) (hright : ReadsAt next n us b vs) (hn : 0 < n)
    (hquiet : binding vs.head? < here.rank) : ReadsAt here (n + 2) ts (op a b) vs := by
  refine of_step fun d hd => ?_
  obtain ⟨k, rfl⟩ : ∃ k, d = k + 1 := ⟨d - 1, by omega⟩
  rw [level_joined hlevels]
  refine (hleft (k + 1) (by omega)).bind ?_
  rw [joined]
  refine Leaves.peek ?_
  rw [List.head?_cons, hop]
  refine Leaves.skip ((hright k (by omega)).bind ?_)
  exact leaves_joined (by omega) hquiet

theorem comparison (h : ReadsAt .sum n ts e vs) (hn : 0 < n) (hquiet : binding vs.head? < 4) :
    ReadsAt .comparison (n + 1) ts e vs := by
  refine of_step fun d hd => ?_
  obtain ⟨k, rfl⟩ : ∃ k, d = k + 1 := ⟨d - 1, by omega⟩
  have hnone : Leaves (comparisons (k + 1)) vs [] vs := by
    rw [comparisons]
    refine Leaves.peek (Leaves.peekSecond ?_)
    rw [comparison?_eq_none hquiet]
    exact Leaves.pure [] vs
  rw [level]
  exact (h (k + 1) hd).bind (hnone.bind (Leaves.pure e vs))

theorem not (h : ReadsAt .comparison n ts e vs) (hhead : ts.head? ≠ some (.symbol .not)) :
    ReadsAt .not (n + 1) ts e vs := by
  refine of_step fun d hd => ?_
  rw [level]
  exact Leaves.eatOther hhead (h d hd)

theorem or (h : ReadsAt .not n ts e vs) (hn : 0 < n) (hquiet : binding vs.head? < 2) :
    ReadsAt .or (n + 2) ts e vs := by
  have hand : ReadsAt .and (n + 1) ts e vs :=
    h.operand (by decide) hn (Nat.lt_trans hquiet (by decide))
  exact hand.operand (by decide) (Nat.succ_pos n) hquiet

theorem test (h : ReadsAt .or n ts e vs) (hhead : ts.head? ≠ some (.symbol .lambda))
    (hquiet : binding vs.head? < 1) (d : Nat) (hd : n + 1 ≤ d) : Leaves (test d) ts e vs := by
  obtain ⟨k, rfl⟩ : ∃ k, d = k + 1 := ⟨d - 1, by omega⟩
  rw [Parser.test]
  refine Leaves.checkOther hhead ((h k (by omega)).bind ?_)
  exact Leaves.eatOther (head?_ne_of_binding (s := .if) hquiet) (Leaves.pure e vs)

theorem test_of_sum (h : ReadsAt .sum n ts e vs) (hn : 0 < n)
    (hnot : ts.head? ≠ some (.symbol .not)) (hlambda : ts.head? ≠ some (.symbol .lambda))
    (hquiet : binding vs.head? < 1) (d : Nat) (hd : n + 5 ≤ d) : Leaves (Parser.test d) ts e vs := by
  have hcomparison := h.comparison hn (by omega)
  have hor := (hcomparison.not hnot).or (Nat.succ_pos _) (by omega)
  exact hor.test hlambda hquiet d (by omega)

end ReadsAt

/-! ## Operands -/

/-- Tokens that are read as an expression of the tightest level, with whatever trailers follow. -/
structure Operand (e : Expr) (ts : List Token) : Prop where
  opens : ∃ t rest, ts = t :: rest ∧ t.opens = true
  /-- The tokens do not look like a keyword argument. -/
  noKeyword : ∀ n rest, ts = .name n :: rest → rest.head? ≠ some (.symbol .assign)
  primary : ∀ d, 12 * ts.length ≤ d → ∃ d', d ≤ d' + ts.length ∧
    ∀ us b ws, binding us.head? < 10 → Leaves (trailers d' e) us b ws →
      Leaves (primary d) (ts ++ us) b ws

namespace Operand

variable {e : Expr} {ts us : List Token} {s : Symbol} {d : Nat}

theorem length_pos (h : Operand e ts) : 0 < ts.length := by
  obtain ⟨t, rest, rfl, -⟩ := h.opens
  exact Nat.succ_pos _

theorem head?_append (h : Operand e ts) (us : List Token) :
    ∃ t, (ts ++ us).head? = some t ∧ t.opens = true := by
  obtain ⟨t, rest, rfl, hopens⟩ := h.opens
  exact ⟨t, rfl, hopens⟩

theorem head?_ne (h : Operand e ts) (us : List Token) (hs : (Token.symbol s).opens = false) :
    (ts ++ us).head? ≠ some (.symbol s) := by
  obtain ⟨t, ht, hopens⟩ := h.head?_append us
  rw [ht]
  rintro heq
  cases heq
  rw [hs] at hopens
  exact absurd hopens (by decide)

theorem leaves_trailers (hd : 0 < d) (hquiet : binding us.head? < 9) :
    Leaves (trailers d e) us e us := by
  obtain ⟨k, rfl⟩ : ∃ k, d = k + 1 := ⟨d - 1, by omega⟩
  rw [trailers]
  refine Leaves.peek ?_
  split
  · next heq => exact absurd heq (head?_ne_of_binding (s := .lparen) hquiet)
  · next heq => exact absurd heq (head?_ne_of_binding (s := .lbracket) hquiet)
  · next heq => exact absurd heq (head?_ne_of_binding (s := .dot) hquiet)
  · exact Leaves.pure e us

theorem leaves_primary (h : Operand e ts) (hd : 12 * ts.length ≤ d)
    (hquiet : binding us.head? < 9) : Leaves (Parser.primary d) (ts ++ us) e us := by
  have hpos := h.length_pos
  obtain ⟨d', hd', hrun⟩ := h.primary d hd
  exact hrun us e us (by omega) (leaves_trailers (by omega) hquiet)

theorem power (h : Operand e ts) (hquiet : binding us.head? < 8) :
    ReadsAt .power (12 * ts.length + 1) (ts ++ us) e us :=
  ReadsAt.power (fun _ hd => h.leaves_primary hd (by omega)) hquiet

theorem sign (h : Operand e ts) (hquiet : binding us.head? < 8) :
    ReadsAt .sign (12 * ts.length + 2) (ts ++ us) e us :=
  (h.power hquiet).sign (h.head?_append us)

theorem product (h : Operand e ts) (hquiet : binding us.head? < 6) :
    ReadsAt .product (12 * ts.length + 3) (ts ++ us) e us :=
  (h.sign (by omega)).operand (by decide) (Nat.succ_pos _) hquiet

theorem sum (h : Operand e ts) (hquiet : binding us.head? < 5) :
    ReadsAt .sum (12 * ts.length + 4) (ts ++ us) e us :=
  (h.product (by omega)).operand (by decide) (Nat.succ_pos _) hquiet

theorem not (h : Operand e ts) (hquiet : binding us.head? < 4) :
    ReadsAt .not (12 * ts.length + 6) (ts ++ us) e us :=
  ((h.sum (by omega)).comparison (Nat.succ_pos _) hquiet).not (h.head?_ne us (by decide))

theorem and (h : Operand e ts) (hquiet : binding us.head? < 3) :
    ReadsAt .and (12 * ts.length + 7) (ts ++ us) e us :=
  (h.not (by omega)).operand (by decide) (Nat.succ_pos _) hquiet

theorem or (h : Operand e ts) (hquiet : binding us.head? < 2) :
    ReadsAt .or (12 * ts.length + 8) (ts ++ us) e us :=
  (h.and (by omega)).operand (by decide) (Nat.succ_pos _) hquiet

theorem test (h : Operand e ts) (hquiet : binding us.head? < 1) (hd : 12 * ts.length + 9 ≤ d) :
    Leaves (Parser.test d) (ts ++ us) e us :=
  (h.or (by omega)).test (h.head?_ne us (by decide)) hquiet d hd

/-- An operand before a symbol that does not continue it. -/
theorem testBefore (h : Operand e ts) (hs : s.binding = 0) (hd : 12 * ts.length + 9 ≤ d) :
    Leaves (Parser.test d) (ts ++ .symbol s :: us) e (.symbol s :: us) :=
  h.test (by rw [binding_cons, hs]; exact Nat.zero_lt_one) hd

/-- What `atom` reads is an operand. -/
theorem ofAtom (hopens : ∃ t rest, ts = t :: rest ∧ t.opens = true)
    (hkey : ∀ n rest, ts = .name n :: rest → rest.head? ≠ some (.symbol .assign))
    (hatom : ∀ d us, 12 * ts.length ≤ d → binding us.head? < 10 →
      Leaves (atom d) (ts ++ us) e us) : Operand e ts := by
  refine ⟨hopens, hkey, fun d hd => ⟨d, by omega, fun us b ws hquiet htrailers => ?_⟩⟩
  exact (hatom d us hd hquiet).bind htrailers

theorem ofToken {t : Token} (hopens : t.opens = true)
    (hatom : ∀ d us, binding us.head? < 10 → Leaves (atom (d + 1)) (t :: us) e us) :
    Operand e [t] := by
  refine ofAtom ⟨t, [], rfl, hopens⟩ ?_ fun d us hd hquiet => ?_
  · intro n rest heq
    cases heq
    simp
  · obtain ⟨k, rfl⟩ : ∃ k, d = k + 1 := ⟨d - 1, by simp at hd; omega⟩
    exact hatom k us hquiet

/-- What is read after an opening bracket is an operand. -/
theorem ofOpening (hs : (Token.symbol s).opens = true) (h : ∀ d us, 12 * ts.length ≤ d →
    Leaves (atom (d + 1)) (.symbol s :: (ts ++ us)) e us) : Operand e (.symbol s :: ts) := by
  refine ofAtom ⟨_, ts, rfl, hs⟩ (fun n rest heq => by cases heq) fun d us hd _ => ?_
  rw [List.length_cons] at hd
  obtain ⟨k, rfl⟩ : ∃ k, d = k + 1 := ⟨d - 1, by omega⟩
  exact h k us (by omega)

theorem ofParens (ts : List Token) (h : ∀ d us, 12 * ts.length ≤ d →
    Leaves (parenthesized d) (ts ++ us) e us) : Operand e (.symbol .lparen :: ts) := by
  refine ofOpening rfl fun d us hd => ?_
  rw [atom]
  exact Leaves.peek (Leaves.skip (h d us hd))

theorem ofBrackets (ts : List Token) (h : ∀ d us, 12 * ts.length ≤ d →
    Leaves (bracketed d) (ts ++ us) e us) : Operand e (.symbol .lbracket :: ts) := by
  refine ofOpening rfl fun d us hd => ?_
  rw [atom]
  exact Leaves.peek (Leaves.skip (h d us hd))

theorem ofBraces (ts : List Token) (h : ∀ d us start, 12 * ts.length ≤ d →
    Leaves (braced d start) (ts ++ us) e us) : Operand e (.symbol .lbrace :: ts) := by
  refine ofOpening rfl fun d us hd => ?_
  rw [atom]
  exact Leaves.peek (Leaves.offset fun start => Leaves.skip (h d us start hd))

/-- An operation between parentheses, which is read as one expression. -/
theorem ofOperation {t : Token} {rest : List Token} (hts : ts = t :: rest)
    (hclose : t ≠ .symbol .rparen)
    (h : ∀ d us, 12 * ts.length + 11 ≤ d →
      Leaves (Parser.test d) (ts ++ .symbol .rparen :: us) e (.symbol .rparen :: us)) :
    Operand e (.symbol .lparen :: ts ++ [.symbol .rparen]) := by
  refine ofParens (ts ++ [.symbol .rparen]) fun d us hd => ?_
  rw [List.length_append, List.length_singleton] at hd
  obtain ⟨k, rfl⟩ : ∃ k, d = k + 1 := ⟨d - 1, by omega⟩
  rw [List.append_assoc, parenthesized]
  refine Leaves.eatOther ?_ ((h k us (by omega)).bind ?_)
  · rw [hts]
    exact fun heq => hclose (Option.some.inj heq)
  · exact Leaves.checkOther (by simp) (Leaves.eatNext (Leaves.pure e us))

theorem trailer {e' : Expr} (h : Operand e ts)
    (hus : ∃ t rest, us = t :: rest ∧ t ≠ .symbol .assign ∧ binding (some t) < 10)
    (hrun : ∀ d ws b xs, 12 * us.length ≤ d + 2 → binding ws.head? < 10 →
      Leaves (trailers d e') ws b xs → Leaves (trailers (d + 1) e) (us ++ ws) b xs) :
    Operand e' (ts ++ us) := by
  obtain ⟨u, urest, hu, hassign, hbind⟩ := hus
  obtain ⟨t, rest, hts, hopens⟩ := h.opens
  refine ⟨⟨t, rest ++ us, by rw [hts]; rfl, hopens⟩, ?_, fun d hd => ?_⟩
  · intro n more heq
    rw [hts, List.cons_append, List.cons.injEq] at heq
    obtain ⟨rfl, rfl⟩ := heq
    have hkey := h.noKeyword n rest hts
    cases rest with
    | nil =>
      rw [hu]
      exact fun heq => hassign (Option.some.inj heq)
    | cons r rest => exact hkey
  · rw [List.length_append] at hd
    obtain ⟨d', hd', hprimary⟩ := h.primary d (by omega)
    have hlen : 0 < us.length := by
      rw [hu]
      exact Nat.succ_pos _
    have hpos := h.length_pos
    obtain ⟨k, rfl⟩ : ∃ k, d' = k + 1 := ⟨d' - 1, by omega⟩
    refine ⟨k, by rw [List.length_append]; omega, fun ws b xs hquiet htrailers => ?_⟩
    rw [List.append_assoc]
    refine hprimary _ b xs ?_ (hrun k ws b xs (by omega) hquiet htrailers)
    rw [hu]
    exact hbind

end Operand

/-! ## Items -/

/-- Tokens that are read as one item of a collection: an operand, or an operand after its sign. -/
structure Item (e : Expr) (ts : List Token) : Prop where
  starts : ∃ t rest, ts = t :: rest ∧
    (t.opens = true ∨ t = .symbol .minus ∨ t = .symbol .plus)
  test : ∀ {us : List Token} {d : Nat}, binding us.head? < 1 → 12 * ts.length + 9 ≤ d →
    Leaves (Parser.test d) (ts ++ us) e us

theorem Operand.item (h : Operand e ts) : Item e ts := by
  obtain ⟨t, rest, hts, hopens⟩ := h.opens
  exact ⟨⟨t, rest, hts, .inl hopens⟩, fun hquiet hd => h.test hquiet hd⟩

/-- A sign takes the operand after it. -/
theorem Operand.signed (h : Operand a ts) {op : UnaryOp} (hop : op ∈ [UnaryOp.neg, .pos]) :
    Item (.unary op a) (.symbol op.symbol :: ts) := by
  simp only [List.mem_cons, List.not_mem_nil, or_false] at hop
  refine ⟨⟨_, ts, rfl, .inr ?_⟩, fun {us d} hquiet hd => ?_⟩
  · rcases hop with rfl | rfl
    · exact .inl rfl
    · exact .inr rfl
  · rw [List.length_cons] at hd
    have hsign : ReadsAt .sign (12 * ts.length + 3) (.symbol op.symbol :: (ts ++ us))
        (.unary op a) us := by
      refine ReadsAt.of_step fun d hd => ?_
      have hoperand : Leaves (level d .sign) (ts ++ us) a us := h.sign (by omega) d hd
      rw [level]
      rcases hop with rfl | rfl <;> exact Leaves.peek (Leaves.skip hoperand.map)
    have hproduct : ReadsAt .product _ _ _ us :=
      hsign.operand (by decide) (by omega) (Nat.lt_trans hquiet (by decide))
    have hsum : ReadsAt .sum _ _ _ us :=
      hproduct.operand (by decide) (by omega) (Nat.lt_trans hquiet (by decide))
    refine hsum.test_of_sum (by omega) ?_ ?_ hquiet d (by omega) <;>
    rcases hop with rfl | rfl <;> simp [UnaryOp.symbol]

namespace Item

variable {e : Expr} {ts : List Token}

theorem length_pos (h : Item e ts) : 0 < ts.length := by
  obtain ⟨t, rest, rfl, -⟩ := h.starts
  exact Nat.succ_pos _

theorem head?_ne (h : Item e ts) (us : List Token)
    (hs : (Token.symbol s).opens = false ∧ s ≠ .minus ∧ s ≠ .plus) :
    (ts ++ us).head? ≠ some (.symbol s) := by
  obtain ⟨hopens, hminus, hplus⟩ := hs
  obtain ⟨t, rest, rfl, ht⟩ := h.starts
  intro heq
  cases heq
  rcases ht with ht | ht | ht
  · exact absurd (hopens.symm.trans ht) (by decide)
  · exact hminus (Token.symbol.inj ht)
  · exact hplus (Token.symbol.inj ht)

end Item

end ComponentMarkup
