import ComponentMarkup.Proofs.Expr.Taking

/-!
# What a reader of tokens leaves

`Leaves p ts a vs` says of a reader `p`: with the tokens `ts` ahead it succeeds, its result is `a`,
and the tokens `vs` remain. The rules follow the steps that readers are made of, so that a run on
known tokens is followed step by step.
-/

namespace ComponentMarkup.Parser

variable {symbol : Symbol}

variable {α β : Type} {p : Parser α} {f : α → Parser β} {a : α} {b : β} {ts us vs : List Token}

/-- With the tokens `ts` ahead, the reader returns `a` and leaves `vs`. -/
def Leaves (p : Parser α) (ts : List Token) (a : α) (vs : List Token) : Prop :=
  ∀ ⦃input : ParserInput⦄, input.tokens.map (·.token) = ts →
    ∃ out, p input = .ok (a, out) ∧ out.tokens.map (·.token) = vs

namespace Leaves

theorem pure (a : α) (ts : List Token) : Leaves (pure a) ts a ts :=
  fun input hts => ⟨input, rfl, hts⟩

theorem bind (hp : Leaves p ts a us) (hf : Leaves (f a) us b vs) : Leaves (p >>= f) ts b vs := by
  intro input hts
  obtain ⟨mid, hmid, hus⟩ := hp hts
  obtain ⟨out, hout, hvs⟩ := hf hus
  exact ⟨out, bind_eq_ok.mpr ⟨a, mid, hmid, hout⟩, hvs⟩

/-- A reader and what is made of its result. -/
theorem map {g : α → β} (hp : Leaves p ts a vs) :
    Leaves (p >>= fun a => Pure.pure (g a)) ts (g a) vs :=
  hp.bind (Leaves.pure (g a) vs)

theorem peek {f : Option Token → Parser β} (h : Leaves (f ts.head?) ts b vs) :
    Leaves (peek? >>= f) ts b vs := by
  have hpeek : Leaves peek? ts ts.head? ts :=
    fun input hts => ⟨input, by rw [peek?_run, ← hts, List.head?_map], hts⟩
  exact hpeek.bind h

theorem peekSecond {f : Option Token → Parser β} (h : Leaves (f (ts.drop 1).head?) ts b vs) :
    Leaves (peekSecond? >>= f) ts b vs := by
  have hpeek : Leaves peekSecond? ts (ts.drop 1).head? ts :=
    fun input hts => ⟨input, by rw [peekSecond?_run, ← hts, ← List.map_drop, List.head?_map], hts⟩
  exact hpeek.bind h

theorem offset {f : Nat → Parser β} (h : ∀ n, Leaves (f n) ts b vs) :
    Leaves (offset >>= f) ts b vs := by
  intro input hts
  obtain ⟨out, hout, hvs⟩ := h _ hts
  exact ⟨out, hout, hvs⟩

theorem skip {f : Unit → Parser β} {count : Nat} (h : Leaves (f ()) (ts.drop count) b vs) :
    Leaves (skip count >>= f) ts b vs := by
  have hskip : Leaves (Parser.skip count) ts () (ts.drop count) :=
    fun input hts => ⟨_, skip_run count input, by rw [← hts, List.map_drop]⟩
  exact hskip.bind h

theorem check {symbol : Symbol} {f : Bool → Parser β}
    (h : Leaves (f (isSymbol symbol ts.head?)) ts b vs) : Leaves (check symbol >>= f) ts b vs := by
  have hcheck : Leaves (Parser.check symbol) ts (isSymbol symbol ts.head?) ts :=
    fun input hts => ⟨input, by rw [check_run, ← hts, List.head?_map], hts⟩
  exact hcheck.bind h

theorem checkNext {f : Bool → Parser β} (h : Leaves (f true) (.symbol symbol :: ts) b vs) :
    Leaves (Parser.check symbol >>= f) (.symbol symbol :: ts) b vs := by
  refine check ?_
  rwa [List.head?_cons, isSymbol_iff.mpr rfl]

theorem checkOther {f : Bool → Parser β} (hne : ts.head? ≠ some (.symbol symbol))
    (h : Leaves (f false) ts b vs) : Leaves (Parser.check symbol >>= f) ts b vs := by
  refine check ?_
  rwa [Bool.eq_false_iff.mpr fun hsym => hne (isSymbol_iff.mp hsym)]

theorem eatNext {f : Bool → Parser β} (h : Leaves (f true) ts b vs) :
    Leaves (eat symbol >>= f) (.symbol symbol :: ts) b vs := by
  have heat : Leaves (eat symbol) (.symbol symbol :: ts) true ts := by
    intro input hts
    obtain ⟨t, rest, htokens, ht, hrest⟩ := List.map_eq_cons_iff.mp hts
    refine ⟨⟨rest, input.stop⟩, ?_, hrest⟩
    rw [eat_run, if_pos (isSymbol_head_iff.mpr ⟨t, rest, htokens, ht⟩), htokens]
    rfl
  exact heat.bind h

theorem eatOther {f : Bool → Parser β} (hne : ts.head? ≠ some (.symbol symbol))
    (h : Leaves (f false) ts b vs) : Leaves (eat symbol >>= f) ts b vs := by
  have heat : Leaves (eat symbol) ts false ts := by
    intro input hts
    refine ⟨input, ?_, hts⟩
    rw [eat_run, if_neg]
    intro hsym
    rw [isSymbol_iff, ← List.head?_map, hts] at hsym
    exact hne hsym
  exact heat.bind h

theorem expect {symbol : Symbol} {f : Unit → Parser β} (h : Leaves (f ()) ts b vs) :
    Leaves (expect symbol >>= f) (.symbol symbol :: ts) b vs := by
  have hexpect : Leaves (Parser.expect symbol) (.symbol symbol :: ts) () ts :=
    eatNext (Leaves.pure () ts)
  exact hexpect.bind h

theorem atCloser {symbol : Symbol} (hsymbol : symbol ∈ [Symbol.rparen, .rbracket, .rbrace])
    {f : Bool → Parser β} (h : Leaves (f true) (.symbol symbol :: ts) b vs) :
    Leaves (atCloser >>= f) (.symbol symbol :: ts) b vs := by
  refine Leaves.bind (peek ?_) h
  simp only [List.mem_cons, List.not_mem_nil, or_false] at hsymbol
  rcases hsymbol with rfl | rfl | rfl <;> exact Leaves.pure true _

theorem notAtCloser {t : Token} (ht : ∀ symbol ∈ [Symbol.rparen, .rbracket, .rbrace],
    t ≠ .symbol symbol) {f : Bool → Parser β} (h : Leaves (f false) (t :: ts) b vs) :
    Leaves (Parser.atCloser >>= f) (t :: ts) b vs := by
  refine Leaves.bind (peek ?_) h
  rw [List.head?_cons]
  split
  · next heq => cases heq
  · next heq => exact absurd (Option.some.inj heq) (ht .rparen (by decide))
  · next heq => exact absurd (Option.some.inj heq) (ht .rbracket (by decide))
  · next heq => exact absurd (Option.some.inj heq) (ht .rbrace (by decide))
  · exact Leaves.pure false _

end Leaves

end ComponentMarkup.Parser
