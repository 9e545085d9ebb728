import ComponentMarkup.Proofs.Expr.Spelling
import ComponentMarkup.Proofs.Expr.Taking

/-!
# What is read is spelled

Every expression that the parser returns is spelled by the tokens that it took. The functions of the
descent call each other, so the statement about all of them, `Sound`, is one induction on the bound
of the recursion: each function of depth `d + 1` is sound if those of depth `d` are.
-/

namespace ComponentMarkup.Parser

/-! ## Specifications -/

/-- Further parts after a comma. -/
def AfterComma {α : Type} (part : List α → Part) (parts : List α) (ts : List Token) : Prop :=
  ∃ us, ts = .symbol .comma :: us ∧ Spells (part parts) us

/-- Further parts after a comma, or nothing if no comma is ahead. -/
def Further {α : Type} (P : List Token → Prop) (part : List α → Part) (parts : List α)
    (ts : List Token) : Prop :=
  (parts = [] ∧ ts = [] ∧ ∃ ahead, P ahead ∧ ahead.head? ≠ some (.symbol .comma)) ∨
    AfterComma part parts ts

/-- Clauses; there are none only if no `for` is ahead. -/
def ClausesAhead (P : List Token → Prop) (clauses : List Clause) (ts : List Token) : Prop :=
  Spells (.clauses clauses) ts ∧
    (clauses = [] → ∃ ahead, P ahead ∧ ahead.head? ≠ some (.symbol .for))

/-- What an operator or a trailer adds to an expression that was spelled by `us`. -/
def Extends (us : List Token) (e : Expr) (vs : List Token) : Prop :=
  Spells (.expr e) (us ++ vs)

/-- Keywords of arguments are distinct and new. -/
def KeywordsFresh (used : List String) (args : List Argument) : Prop :=
  (args.filterMap Argument.keyword?).Nodup ∧ ∀ k ∈ args.filterMap Argument.keyword?, k ∉ used

/-- The arguments of a call after those in `done`, through the closing parenthesis; or a single
comprehension, if there were none yet. -/
def ArgumentsTo (done : List Argument) (used : List String) (args : List Argument)
    (ts : List Token) : Prop :=
  (∃ more us, args = done.reverse ++ more ∧ ts = us ++ [.symbol .rparen] ∧
    Spells (.arguments more) us ∧ KeywordsFresh used more) ∨
  (done = [] ∧ ∃ e cs us vs, args = [.positional (.generator e cs)] ∧
    ts = us ++ vs ++ [.symbol .rparen] ∧ Spells (.expr e) us ∧ Spells (.clauses cs) vs ∧ cs ≠ [])

/-- What follows an argument: nothing but the closing parenthesis, or a comma and more of them. -/
def NextArguments (done : List Argument) (used : List String) (args : List Argument)
    (ts : List Token) : Prop :=
  ∃ more, args = done.reverse ++ more ∧ KeywordsFresh used more ∧
    ((more = [] ∧ ts = [.symbol .rparen]) ∨
      ∃ us, ts = .symbol .comma :: us ++ [.symbol .rparen] ∧ Spells (.arguments more) us)

/-- All functions of the descent, at one bound of the recursion, return what they took. -/
structure Sound (depth : Nat) : Prop where
  target : Takes anyTokens (target depth) fun t ts => Spells (.target t) ts
  targetList : Takes anyTokens (targetList depth) fun t ts => Spells (.target t) ts
  moreTargets : ∀ P, Takes P (moreTargets depth) (Further P .targets)
  test : Takes anyTokens (test depth) fun e ts => Spells (.expr e) ts
  level : ∀ l, Takes anyTokens (level depth l) fun e ts => Spells (.expr e) ts
  joined : ∀ here next {left us}, Spells (.expr left) us →
    Takes anyTokens (joined depth here next left) (Extends us)
  comparisons : Takes anyTokens (comparisons depth) fun cs ts => Spells (.links cs) ts
  trailers : ∀ {e us}, Spells (.expr e) us → Takes anyTokens (trailers depth e) (Extends us)
  atom : Takes anyTokens (atom depth) fun e ts => Spells (.expr e) ts
  parenthesized : Takes anyTokens (parenthesized depth)
    fun e ts => Spells (.expr e) (.symbol .lparen :: ts)
  bracketed : Takes anyTokens (bracketed depth)
    fun e ts => Spells (.expr e) (.symbol .lbracket :: ts)
  braced : ∀ start, Takes anyTokens (braced depth start)
    fun e ts => Spells (.expr e) (.symbol .lbrace :: ts)
  moreItems : ∀ P, Takes P (moreItems depth) (Further P .items)
  moreEntries : ∀ P, Takes P (moreEntries depth) (Further P .entries)
  forClauses : ∀ P, Takes P (forClauses depth) (ClausesAhead P)
  conditionList : Takes anyTokens (conditionList depth) fun es ts => Spells (.conditions es) ts
  arguments : ∀ done used, Takes anyTokens (arguments depth done used) (ArgumentsTo done used)
  nextArgument : ∀ done used, done ≠ [] →
    Takes anyTokens (nextArgument depth done used) (NextArguments done used)
  subscripts : Takes anyTokens (subscripts depth) fun e ts => Spells (.index e) ts
  moreSubscripts : ∀ P, Takes P (moreSubscripts depth) (Further P .subscripts)
  subscript : Takes anyTokens (subscript depth) fun e ts => Spells (.subscript e) ts
  sliceAfter : ∀ {lower us}, Spells (.bound lower) us →
    Takes anyTokens (sliceAfter depth lower) fun e vs => Spells (.subscript e) (us ++ vs)
  slicePart : Takes anyTokens (slicePart depth) fun e ts => Spells (.bound e) ts

/-- With the bound used up nothing is returned. -/
theorem sound_zero : Sound 0 := by
  constructor <;> intros <;> exact Takes.unexpected

/-! ## Steps -/

variable {depth : Nat} {P : List Token → Prop} {ts us : List Token} {t : Option Token}
  {op : CompareOp} {count : Nat} {e : Expr} {used : List String} {arg : Argument}
  {args done : List Argument}

theorem Further.afterComma {α : Type} {part : List α → Part} {parts : List α}
    (h : Further (fun ts => P ts ∧ ts.head? = some (.symbol .comma)) part parts ts) :
    AfterComma part parts ts := by
  rcases h with ⟨-, -, ahead, ⟨-, hcomma⟩, hne⟩ | h
  · exact absurd hcomma hne
  · exact h

theorem ClausesAhead.ne_nil {cs : List Clause}
    (h : ClausesAhead (fun ts => P ts ∧ ts.head? = some (.symbol .for)) cs ts) : cs ≠ [] := by
  intro hnil
  obtain ⟨ahead, ⟨-, hfor⟩, hne⟩ := h.2 hnil
  exact hne hfor

theorem target_succ (ih : Sound depth) :
    Takes anyTokens (target (depth + 1)) fun t ts => Spells (.target t) ts := by
  rw [target]
  refine Takes.peek fun t => ?_
  split
  · exact Takes.skipNext (Takes.pure (Spells.targetName _))
  · refine Takes.skipNext (ih.targetList.bind fun t us ht => Takes.expect (Takes.pure ?_))
    exact Spells.targetParens ht
  · refine Takes.skipNext (ih.targetList.bind fun t us ht => Takes.expect (Takes.pure ?_))
    cases t with
    | name n => exact Spells.targetBracketName ht
    | tuple items => exact Spells.targetBracketTuple ht
  · exact Takes.unexpected

theorem targetList_succ (ih : Sound depth) :
    Takes anyTokens (targetList (depth + 1)) fun t ts => Spells (.target t) ts := by
  rw [targetList]
  refine ih.target.bind fun t us ht => Takes.check ?_ ?_
  · refine (ih.moreTargets _).map fun ts vs hts => ?_
    obtain ⟨ws, rfl, hws⟩ := hts.afterComma
    exact Spells.targetTuple ht hws
  · exact Takes.pure (by simpa using ht)

theorem moreTargets_succ (ih : Sound depth) :
    Takes P (moreTargets (depth + 1)) (Further P .targets) := by
  rw [moreTargets]
  refine Takes.eat (Takes.peek fun t => ?_) ?_
  · -- a closing token or `in` ends the list, and the comma before it was the last
    split
    any_goals exact Takes.pure (.inr ⟨[], rfl, Spells.targetsNil⟩)
    · refine ih.target.ofAny.bind fun t us ht => (ih.moreTargets _).map fun ts vs hts => .inr ?_
      rcases hts with ⟨rfl, rfl, -⟩ | ⟨ws, rfl, hws⟩
      · exact ⟨us, by simp, Spells.targetsLast ht⟩
      · exact ⟨_, rfl, Spells.targetsCons ht hws⟩
  · exact Takes.pureAt fun ts hts => .inl ⟨rfl, rfl, ts, hts⟩

/-! ### Operators -/

theorem joiner?_spells {l : Level} {join : Expr → Expr → Expr} (h : joiner? l t = some join) :
    ∃ symbol, t = some (.symbol symbol) ∧
      ∀ {a b us vs}, Spells (.expr a) us → Spells (.expr b) vs →
        Spells (.expr (join a b)) (us ++ .symbol symbol :: vs) := by
  unfold joiner? at h
  split at h <;> cases h
  · exact ⟨_, rfl, Spells.logic .or⟩
  · exact ⟨_, rfl, Spells.logic .and⟩
  · exact ⟨_, rfl, Spells.binary .add⟩
  · exact ⟨_, rfl, Spells.binary .sub⟩
  · exact ⟨_, rfl, Spells.binary .mul⟩
  · exact ⟨_, rfl, Spells.binary .div⟩
  · exact ⟨_, rfl, Spells.binary .floorDiv⟩
  · exact ⟨_, rfl, Spells.binary .mod⟩

theorem comparison?_count {u : Option Token} (h : comparison? t u = some (op, count)) :
    op.symbols.length = count := by
  unfold comparison? at h
  split at h <;> cases h <;> rfl

/-- A comparison that was recognized by the tokens ahead is spelled by them. -/
theorem comparison?_prefix (h : comparison? ts.head? (ts.drop 1).head? = some (op, count)) :
    op.symbols.map Token.symbol <+: ts := by
  match ts with
  | [] => simp [comparison?] at h
  | [t] =>
    simp only [List.head?_cons, List.drop_one, List.tail_cons, List.head?_nil] at h
    unfold comparison? at h
    split at h <;> cases h <;> simp_all [CompareOp.symbols]
  | t :: u :: rest =>
    simp only [List.head?_cons, List.drop_one, List.tail_cons] at h
    unfold comparison? at h
    split at h <;> cases h <;> simp_all [CompareOp.symbols]

theorem joined_succ (ih : Sound depth) (here next : Level) {left : Expr} {us : List Token}
    (hleft : Spells (.expr left) us) :
    Takes anyTokens (joined (depth + 1) here next left) (Extends us) := by
  rw [joined]
  refine Takes.peek fun t => ?_
  split
  · next join hjoin =>
    obtain ⟨symbol, rfl, hspells⟩ := joiner?_spells hjoin
    refine Takes.skipNext ((ih.level next).bind fun right vs hright => ?_)
    refine (ih.joined here next (hspells hleft hright)).mono fun e ws he => ?_
    simpa [Extends] using he
  · exact Takes.pure (by simpa [Extends] using hleft)

theorem comparisons_succ (ih : Sound depth) :
    Takes anyTokens (comparisons (depth + 1)) fun cs ts => Spells (.links cs) ts := by
  rw [comparisons]
  refine Takes.peek fun t => Takes.peekSecond fun u => ?_
  split
  · next op count hop =>
    refine Takes.skip (op.symbols.map .symbol) ?_ ?_ ?_
    · rw [List.length_map]
      exact comparison?_count hop
    · rintro ts ⟨⟨-, rfl⟩, rfl⟩
      exact comparison?_prefix hop
    · refine (ih.level .sum).bind fun e us he => ih.comparisons.map fun cs vs hcs => ?_
      exact Spells.linksCons op he hcs
  · exact Takes.pure Spells.linksNil

theorem level_succ (ih : Sound depth) (l : Level) :
    Takes anyTokens (level (depth + 1) l) fun e ts => Spells (.expr e) ts := by
  cases l with
  | or =>
    rw [level]
    exact (ih.level .and).bind fun e us he => ih.joined .or .and he
  | and =>
    rw [level]
    exact (ih.level .not).bind fun e us he => ih.joined .and .not he
  | not =>
    rw [level]
    refine Takes.eat ((ih.level .not).map fun e us he => ?_) (ih.level .comparison).ofAny
    exact Spells.unary .not he
  | comparison =>
    rw [level]
    refine (ih.level .sum).bind fun e us he => ih.comparisons.bind fun cs vs hcs => ?_
    cases cs with
    | nil =>
      cases hcs
      exact Takes.pure (by simpa using he)
    | cons c cs => exact Takes.pure (by simpa using Spells.compare he hcs (by simp))
  | sum =>
    rw [level]
    exact (ih.level .product).bind fun e us he => ih.joined .sum .product he
  | product =>
    rw [level]
    exact (ih.level .sign).bind fun e us he => ih.joined .product .sign he
  | sign =>
    rw [level]
    refine Takes.peek fun t => ?_
    split
    · exact Takes.skipNext ((ih.level .sign).map fun e us he => Spells.unary .neg he)
    · exact Takes.skipNext ((ih.level .sign).map fun e us he => Spells.unary .pos he)
    · exact (ih.level .power).ofAny
  | power =>
    rw [level]
    refine ih.atom.bind fun e us he => (ih.trailers he).bind fun base vs hbase => ?_
    refine Takes.eat ((ih.level .sign).map fun e' ws he' => ?_) (Takes.pure ?_)
    · simpa [BinaryOp.symbol] using Spells.binary .pow hbase he'
    · simpa [Extends] using hbase

theorem test_succ (ih : Sound depth) :
    Takes anyTokens (test (depth + 1)) fun e ts => Spells (.expr e) ts := by
  rw [test]
  refine Takes.check (Takes.offset fun n => Takes.throw_bind) ?_
  refine (ih.level .or).bind fun body us hbody => Takes.eat ?_ (Takes.pure (by simpa using hbody))
  refine (ih.level .or).bind fun condition vs hcondition => Takes.expect ?_
  refine ih.test.map fun orelse ws horelse => ?_
  simpa using Spells.conditional hbody hcondition horelse

/-! ### Atoms and what follows them -/

theorem trailers_succ (ih : Sound depth) (he : Spells (.expr e) us) :
    Takes anyTokens (trailers (depth + 1) e) (Extends us) := by
  rw [trailers]
  refine Takes.peek fun t => ?_
  split
  · refine Takes.skipNext ((ih.arguments [] []).bind fun args vs hargs => ?_)
    have hcall : Spells (.expr (.call e args)) (us ++ .symbol .lparen :: vs) := by
      rcases hargs with ⟨more, ws, rfl, rfl, hws, hfresh⟩ | ⟨-, e', cs, ws, xs, rfl, rfl, he', hcs, hne⟩
      · exact Spells.call he hws hfresh.1
      · simpa using Spells.callGenerator he he' hcs hne
    refine (ih.trailers hcall).mono fun e' ws he' => ?_
    simpa [Extends] using he'
  · refine Takes.skipNext (ih.subscripts.bind fun index vs hindex => Takes.expect ?_)
    refine (ih.trailers (Spells.subscripted he hindex)).mono fun e' ws he' => ?_
    simpa [Extends] using he'
  · refine Takes.skipNext (Takes.peek fun t => ?_)
    split
    · next attr =>
      refine Takes.skipNext ((ih.trailers (Spells.member attr he)).mono fun e' ws he' => ?_)
      simpa [Extends] using he'
    · exact Takes.unexpected
  · exact Takes.pure (by simpa [Extends] using he)

/-- Adjacent string literals are joined to the text before them. -/
theorem adjacentStrings_takes (depth : Nat) (text : String) :
    Takes anyTokens (adjacentStrings depth text) fun joined ts =>
      ∃ more : List String, joined = more.foldl (· ++ ·) text ∧ ts = more.map .str := by
  induction depth generalizing text with
  | zero => exact Takes.pure ⟨[], rfl, rfl⟩
  | succ depth ih =>
    rw [adjacentStrings]
    refine Takes.peek fun t => ?_
    split
    · next s =>
      refine Takes.skipNext ((ih (text ++ s)).mono fun joined ts hts => ?_)
      obtain ⟨more, rfl, rfl⟩ := hts
      exact ⟨s :: more, rfl, rfl⟩
    · exact Takes.pure ⟨[], rfl, rfl⟩

theorem atom_succ (ih : Sound depth) :
    Takes anyTokens (atom (depth + 1)) fun e ts => Spells (.expr e) ts := by
  rw [atom]
  refine Takes.peek fun t => ?_
  split
  · exact Takes.skipNext (Takes.pure (Spells.name _))
  · exact Takes.skipNext (Takes.pure (Spells.int _))
  · exact Takes.skipNext (Takes.pure (Spells.float _))
  · exact Takes.skipNext (Takes.pure Spells.none)
  · exact Takes.skipNext (Takes.pure Spells.true)
  · exact Takes.skipNext (Takes.pure Spells.false)
  · next first =>
    refine Takes.skipNext ((adjacentStrings_takes depth first).map fun text ts hts => ?_)
    obtain ⟨more, rfl, rfl⟩ := hts
    exact Spells.strings first more
  · exact Takes.skipNext ih.parenthesized
  · exact Takes.skipNext ih.bracketed
  · exact Takes.offset fun start => Takes.skipNext (ih.braced start)
  · exact Takes.unexpected

theorem parenthesized_succ (ih : Sound depth) :
    Takes anyTokens (parenthesized (depth + 1))
      fun e ts => Spells (.expr e) (.symbol .lparen :: ts) := by
  rw [parenthesized]
  refine Takes.eat (Takes.pure Spells.emptyTuple) (ih.test.ofAny.bind fun first us hfirst => ?_)
  refine Takes.check ?_ (Takes.eat (Takes.pure ?_) ?_)
  · refine (ih.forClauses _).bind fun clauses vs hclauses => Takes.expect (Takes.pure ?_)
    simpa using Spells.generator hfirst hclauses.1 hclauses.ne_nil
  · exact Spells.parens hfirst
  · refine (ih.moreItems _).bind fun items vs hitems => Takes.expect (Takes.pureAt fun ts hts => ?_)
    rcases hitems with ⟨rfl, rfl, -⟩ | ⟨ws, rfl, hws⟩
    · -- no comma followed, so the parenthesis ahead would have been taken before
      exact absurd rfl hts.2
    · simpa using Spells.tuple hfirst hws

theorem bracketed_succ (ih : Sound depth) :
    Takes anyTokens (bracketed (depth + 1))
      fun e ts => Spells (.expr e) (.symbol .lbracket :: ts) := by
  rw [bracketed]
  refine Takes.eat (Takes.pure (Spells.list Spells.itemsNil)) ?_
  refine ih.test.ofAny.bind fun first us hfirst => Takes.check ?_ ?_
  · refine (ih.forClauses _).bind fun clauses vs hclauses => Takes.expect (Takes.pure ?_)
    simpa using Spells.listComp hfirst hclauses.1 hclauses.ne_nil
  · refine (ih.moreItems _).bind fun items vs hitems => Takes.expect (Takes.pure ?_)
    rcases hitems with ⟨rfl, rfl, -⟩ | ⟨ws, rfl, hws⟩
    · simpa using Spells.list (Spells.itemsLast hfirst)
    · simpa using Spells.list (Spells.itemsCons hfirst hws)

theorem braced_succ (ih : Sound depth) (start : Nat) :
    Takes anyTokens (braced (depth + 1) start)
      fun e ts => Spells (.expr e) (.symbol .lbrace :: ts) := by
  rw [braced]
  refine Takes.eat (Takes.pure (Spells.dict Spells.entriesNil)) ?_
  refine ih.test.ofAny.bind fun key us hkey => Takes.eat ?_ Takes.throw_bind
  refine ih.test.ofAny.bind fun value vs hvalue => Takes.check ?_ ?_
  · refine (ih.forClauses _).bind fun clauses ws hclauses => Takes.expect (Takes.pure ?_)
    simpa using Spells.dictComp hkey hvalue hclauses.1 hclauses.ne_nil
  · refine (ih.moreEntries _).bind fun entries ws hentries => Takes.expect (Takes.pure ?_)
    rcases hentries with ⟨rfl, rfl, -⟩ | ⟨xs, rfl, hxs⟩
    · simpa using Spells.dict (Spells.entriesLast hkey hvalue)
    · simpa using Spells.dict (Spells.entriesCons hkey hvalue hxs)

/-! ### Sequences and clauses -/

theorem moreItems_succ (ih : Sound depth) :
    Takes P (moreItems (depth + 1)) (Further P .items) := by
  rw [moreItems]
  refine Takes.eat (Takes.atCloser fun atEnd => ?_) ?_
  · split
    · exact Takes.pure (.inr ⟨[], rfl, Spells.itemsNil⟩)
    · refine ih.test.ofAny.bind fun e us he => (ih.moreItems _).map fun es vs hes => .inr ?_
      rcases hes with ⟨rfl, rfl, -⟩ | ⟨ws, rfl, hws⟩
      · exact ⟨us, by simp, Spells.itemsLast he⟩
      · exact ⟨_, rfl, Spells.itemsCons he hws⟩
  · exact Takes.pureAt fun ts hts => .inl ⟨rfl, rfl, ts, hts⟩

theorem moreEntries_succ (ih : Sound depth) :
    Takes P (moreEntries (depth + 1)) (Further P .entries) := by
  rw [moreEntries]
  refine Takes.eat (Takes.atCloser fun atEnd => ?_) ?_
  · split
    · exact Takes.pure (.inr ⟨[], rfl, Spells.entriesNil⟩)
    · refine ih.test.ofAny.bind fun key us hkey => Takes.expect ?_
      refine ih.test.ofAny.bind fun value vs hvalue => ?_
      refine (ih.moreEntries _).map fun entries ws hentries => .inr ?_
      rcases hentries with ⟨rfl, rfl, -⟩ | ⟨xs, rfl, hxs⟩
      · exact ⟨_, by simp, Spells.entriesLast hkey hvalue⟩
      · exact ⟨_, by simp, Spells.entriesCons hkey hvalue hxs⟩
  · exact Takes.pureAt fun ts hts => .inl ⟨rfl, rfl, ts, hts⟩

theorem moreSubscripts_succ (ih : Sound depth) :
    Takes P (moreSubscripts (depth + 1)) (Further P .subscripts) := by
  rw [moreSubscripts]
  refine Takes.eat (Takes.atCloser fun atEnd => ?_) ?_
  · split
    · exact Takes.pure (.inr ⟨[], rfl, Spells.subscriptsNil⟩)
    · refine ih.subscript.ofAny.bind fun e us he => ?_
      refine (ih.moreSubscripts _).map fun es vs hes => .inr ?_
      rcases hes with ⟨rfl, rfl, -⟩ | ⟨ws, rfl, hws⟩
      · exact ⟨us, by simp, Spells.subscriptsLast he⟩
      · exact ⟨_, rfl, Spells.subscriptsCons he hws⟩
  · exact Takes.pureAt fun ts hts => .inl ⟨rfl, rfl, ts, hts⟩

theorem conditionList_succ (ih : Sound depth) :
    Takes anyTokens (conditionList (depth + 1)) fun es ts => Spells (.conditions es) ts := by
  rw [conditionList]
  refine Takes.eat ?_ (Takes.pure Spells.conditionsNil)
  refine (ih.level .or).bind fun e us he => ih.conditionList.map fun es vs hes => ?_
  exact Spells.conditionsCons he hes

theorem forClauses_succ (ih : Sound depth) :
    Takes P (forClauses (depth + 1)) (ClausesAhead P) := by
  rw [forClauses]
  refine Takes.eat ?_ (Takes.pureAt fun ts hts => ⟨Spells.clausesNil, fun _ => ⟨ts, hts⟩⟩)
  refine ih.targetList.ofAny.bind fun target us htarget => Takes.expect ?_
  refine (ih.level .or).ofAny.bind fun iter vs hiter => ?_
  refine ih.conditionList.ofAny.bind fun conditions ws hconditions => ?_
  refine (ih.forClauses _).map fun clauses xs hclauses => ⟨?_, by simp⟩
  simpa using Spells.clausesCons htarget hiter hconditions hclauses.1

/-! ### Arguments -/

theorem KeywordsFresh.nil (used : List String) : KeywordsFresh used [] := by
  simp [KeywordsFresh]

theorem KeywordsFresh.cons_plain (h : KeywordsFresh used args) (hplain : arg.keyword? = none) :
    KeywordsFresh used (arg :: args) := by
  simpa [KeywordsFresh, List.filterMap_cons, hplain] using h

/-- A keyword that is new now is used up for the arguments after it. -/
theorem KeywordsFresh.cons_keyword {name : String} (h : KeywordsFresh (name :: used) args)
    (hnew : name ∉ used) : KeywordsFresh used (.keyword name e :: args) := by
  obtain ⟨hnodup, hfresh⟩ := h
  have hfilter : (Argument.keyword name e :: args).filterMap Argument.keyword? =
      name :: args.filterMap Argument.keyword? := rfl
  rw [KeywordsFresh, hfilter]
  refine ⟨List.nodup_cons.mpr ⟨fun hmem => ?_, hnodup⟩, fun k hk => ?_⟩
  · exact hfresh name hmem (by simp)
  · rcases List.mem_cons.mp hk with rfl | hk
    · exact hnew
    · exact fun hused => hfresh k hk (List.mem_cons_of_mem _ hused)

theorem NextArguments.cons {used' : List String} {vs : List Token}
    (harg : Spells (.argument arg) us) (h : NextArguments (arg :: done) used' args vs)
    (hfresh : ∀ more, KeywordsFresh used' more → KeywordsFresh used (arg :: more)) :
    ArgumentsTo done used args (us ++ vs) := by
  obtain ⟨more, rfl, hkeys, ⟨rfl, rfl⟩ | ⟨ws, rfl, hws⟩⟩ := h
  · exact .inl ⟨[arg], us, by simp, rfl, Spells.argumentsLast harg, hfresh [] hkeys⟩
  · refine .inl ⟨arg :: more, us ++ .symbol .comma :: ws, by simp, by simp, ?_, hfresh more hkeys⟩
    exact Spells.argumentsCons harg hws

theorem arguments_succ (ih : Sound depth) (done : List Argument) (used : List String) :
    Takes anyTokens (arguments (depth + 1) done used) (ArgumentsTo done used) := by
  rw [arguments]
  refine Takes.peek fun t => Takes.peekSecond fun u => ?_
  split
  · refine Takes.skipKnown (fun ts hts => hts.1.2) (Takes.pure ?_)
    exact .inl ⟨[], [], by simp, rfl, Spells.argumentsNil, KeywordsFresh.nil used⟩
  · refine Takes.skipKnown (fun ts hts => hts.1.2) (ih.test.bind fun e us he => ?_)
    refine (ih.nextArgument (.unpack e :: done) used (by simp)).mono fun args vs hargs => ?_
    exact hargs.cons (Spells.unpack he) fun more hmore => hmore.cons_plain rfl
  · refine Takes.skipKnown (fun ts hts => hts.1.2) (ih.test.bind fun e us he => ?_)
    refine (ih.nextArgument (.unpackKeywords e :: done) used (by simp)).mono fun args vs hargs => ?_
    exact hargs.cons (Spells.unpackKeywords he) fun more hmore => hmore.cons_plain rfl
  · next name =>
    split
    · exact Takes.offset fun n => Takes.throw_bind
    · next hused =>
      refine Takes.skip [.name name, .symbol .assign] rfl ?_ (ih.test.bind fun e us he => ?_)
      · rintro (_ | ⟨t, _ | ⟨u, rest⟩⟩) ⟨⟨-, h₁⟩, h₂⟩
        · simp at h₁
        · simp at h₂
        · simp_all
      · refine (ih.nextArgument (.keyword name e :: done) (name :: used) (by simp)).mono
          fun args vs hargs => ?_
        have hnew : name ∉ used := by simpa using hused
        have hall := hargs.cons (Spells.keyword name he) fun more hmore => hmore.cons_keyword hnew
        simpa using hall
  · refine ih.test.ofAny.bind fun e us he => Takes.check ?_ ?_
    · split
      · next hempty =>
        have hdone : done = [] := by simpa using hempty
        refine (ih.forClauses _).bind fun clauses vs hclauses => Takes.expect (Takes.pure ?_)
        exact .inr ⟨hdone, e, clauses, us, vs, rfl, by simp, he, hclauses.1, hclauses.ne_nil⟩
      · refine (ih.nextArgument (.positional e :: done) used (by simp)).ofAny.mono
          fun args vs hargs => ?_
        exact hargs.cons (Spells.positional he) fun more hmore => hmore.cons_plain rfl
    · simp only [Bool.and_false, Bool.false_eq_true, if_false]
      refine (ih.nextArgument (.positional e :: done) used (by simp)).ofAny.mono
        fun args vs hargs => ?_
      exact hargs.cons (Spells.positional he) fun more hmore => hmore.cons_plain rfl

theorem nextArgument_succ (ih : Sound depth) (used : List String) (hdone : done ≠ []) :
    Takes anyTokens (nextArgument (depth + 1) done used) (NextArguments done used) := by
  rw [nextArgument]
  refine Takes.eat ((ih.arguments done used).ofAny.mono fun args us hargs => ?_)
    (Takes.expect (Takes.pure ?_))
  · rcases hargs with ⟨more, vs, rfl, rfl, hvs, hfresh⟩ | ⟨hnil, -⟩
    · exact ⟨more, rfl, hfresh, .inr ⟨vs, rfl, hvs⟩⟩
    · exact absurd hnil hdone
  · exact ⟨[], by simp, KeywordsFresh.nil used, .inl ⟨rfl, rfl⟩⟩

/-! ### Subscripts -/

theorem slicePart_succ (ih : Sound depth) :
    Takes anyTokens (slicePart (depth + 1)) fun e ts => Spells (.bound e) ts := by
  rw [slicePart]
  refine Takes.peek fun t => ?_
  split
  any_goals exact Takes.pure Spells.noBound
  · exact ih.test.ofAny.map fun e us he => Spells.someBound he

theorem sliceAfter_succ (ih : Sound depth) {lower : Option Expr}
    (hlower : Spells (.bound lower) us) :
    Takes anyTokens (sliceAfter (depth + 1) lower) fun e vs => Spells (.subscript e) (us ++ vs) := by
  rw [sliceAfter]
  refine Takes.expect (ih.slicePart.ofAny.bind fun upper vs hupper => Takes.eat ?_ (Takes.pure ?_))
  · refine ih.slicePart.ofAny.map fun step ws hstep => ?_
    exact Spells.sliceStep hlower hupper hstep
  · simpa using Spells.slice hlower hupper

theorem subscript_succ (ih : Sound depth) :
    Takes anyTokens (subscript (depth + 1)) fun e ts => Spells (.subscript e) ts := by
  rw [subscript]
  refine Takes.check (ih.sliceAfter Spells.noBound).ofAny ?_
  refine ih.test.bind fun lower us hlower => Takes.check ?_ (Takes.pure ?_)
  · exact (ih.sliceAfter (Spells.someBound hlower)).ofAny
  · simpa using Spells.subscriptExpr hlower

theorem subscripts_succ (ih : Sound depth) :
    Takes anyTokens (subscripts (depth + 1)) fun e ts => Spells (.index e) ts := by
  rw [subscripts]
  refine ih.subscript.bind fun first us hfirst => Takes.check ?_ (Takes.pure ?_)
  · refine (ih.moreSubscripts _).map fun es vs hes => ?_
    obtain ⟨ws, rfl, hws⟩ := hes.afterComma
    exact Spells.indexTuple hfirst hws
  · simpa using Spells.indexOne hfirst

/-! ## Soundness -/

theorem sound_succ (ih : Sound depth) : Sound (depth + 1) where
  target := target_succ ih
  targetList := targetList_succ ih
  moreTargets _ := moreTargets_succ ih
  test := test_succ ih
  level := level_succ ih
  joined := joined_succ ih
  comparisons := comparisons_succ ih
  trailers := trailers_succ ih
  atom := atom_succ ih
  parenthesized := parenthesized_succ ih
  bracketed := bracketed_succ ih
  braced := braced_succ ih
  moreItems _ := moreItems_succ ih
  moreEntries _ := moreEntries_succ ih
  forClauses _ := forClauses_succ ih
  conditionList := conditionList_succ ih
  arguments := arguments_succ ih
  nextArgument _ used hdone := nextArgument_succ ih used hdone
  subscripts := subscripts_succ ih
  moreSubscripts _ := moreSubscripts_succ ih
  subscript := subscript_succ ih
  sliceAfter := sliceAfter_succ ih
  slicePart := slicePart_succ ih

/-- The descent is sound at every bound. -/
theorem sound (depth : Nat) : Sound depth := by
  induction depth with
  | zero => exact sound_zero
  | succ depth ih => exact sound_succ ih

theorem expressionList_takes (depth : Nat) :
    Takes anyTokens (expressionList depth) fun e ts => Spells (.source e) ts := by
  rw [expressionList]
  refine (sound depth).test.bind fun first us hfirst => Takes.check ?_ (Takes.pure ?_)
  · refine ((sound depth).moreItems _).map fun es vs hes => ?_
    obtain ⟨ws, rfl, hws⟩ := hes.afterComma
    exact Spells.sourceTuple hfirst hws
  · simpa using Spells.sourceOne hfirst

end ComponentMarkup.Parser

namespace ComponentMarkup

/-- An expression that was read from a source is spelled by all of its tokens. -/
theorem Expr.spells_of_parse {source : List Char} {e : Expr} (h : Expr.parse source = .ok e) :
    ∃ tokens, Lexer.tokenize source = .ok tokens ∧ Spells (.source e) (tokens.map (·.token)) := by
  unfold Expr.parse at h
  cases htokens : Lexer.tokenize source with
  | error err => simp [htokens, bind, Except.bind] at h
  | ok tokens =>
    refine ⟨tokens, rfl, ?_⟩
    simp only [htokens, bind, Except.bind] at h
    split at h
    · cases h
    · next v hrun =>
      obtain ⟨e', out⟩ := v
      obtain ⟨used, happ, hspells⟩ := Parser.expressionList_takes _ trivial hrun
      cases hout : out.tokens with
      | nil =>
        simp only [hout] at h
        cases h
        obtain rfl : tokens = used := by simpa [hout] using happ
        exact hspells
      | cons t ts => simp [hout] at h

end ComponentMarkup
