import ComponentMarkup.Template.Cache
import Mathlib.Logic.Function.Basic

/-!
# Sessions with a cache

In a session chains and argument names are made, copied and changed in any order, vocabularies are
put together from them, and one cache is asked for templates and cleared. A cache knows the parts of
a vocabulary by their identities only. Main statement: its answers are those of compiling every time.
-/

namespace ComponentMarkup

/-- The vocabularies of a session and what they are put together from. A later change of a chain or
of argument names does not change a vocabulary that has them. -/
structure Session where
  next : Identity
  chains : List ProviderChain
  names : List ArgumentNames
  vocabularies : List Vocabulary

namespace Session

variable {n : Identity} {r : Register} {s : Session} {v : Vocabulary} {cache : TemplateCache}
  {text : List Char}

/-- What can be done to the parts of vocabularies. They are told by their place in the session. -/
inductive Change where
  | newChain
  | copyChain (chain : Nat)
  | push (chain : Nat) (provider : String → Option ConstructorPath)
  | newNames
  | copyNames (names : Nat)
  | insert (names : Nat) (attr argument : String)
  | collect (pairs : List (String × String))
  | choose (chain names : Nat)

/-- Everything that can be done in a session. -/
inductive Request where
  | change (c : Change)
  | get (vocabulary : Nat) (text : List Char)
  | clear

/-- At first there is the shared vocabulary. -/
def start : Session where
  next := Vocabulary.firstIdentity
  chains := [Vocabulary.shared.chain]
  names := [Vocabulary.shared.arguments]
  vocabularies := [.shared]

/-- The session after a change. There is none if a part is not in the session. -/
def change (s : Session) : Change → Option Session
  | .newChain =>
    let (chain, next) := ProviderChain.new.run s.next
    some { s with next, chains := s.chains ++ [chain] }
  | .copyChain i => do
    let chain ← s.chains[i]?
    return { s with chains := s.chains ++ [chain] }
  | .push i provider => do
    let chain ← s.chains[i]?
    let (chain, next) := (chain.push provider).run s.next
    return { s with next, chains := s.chains.set i chain }
  | .newNames =>
    let (names, next) := ArgumentNames.new.run s.next
    some { s with next, names := s.names ++ [names] }
  | .copyNames i => do
    let names ← s.names[i]?
    return { s with names := s.names ++ [names] }
  | .insert i attr argument => do
    let names ← s.names[i]?
    let (names, next) := (names.insert attr argument).run s.next
    return { s with next, names := s.names.set i names }
  | .collect pairs =>
    let (names, next) := (ArgumentNames.ofPairs pairs).run s.next
    some { s with next, names := s.names ++ [names] }
  | .choose i j => do
    let chain ← s.chains[i]?
    let names ← s.names[j]?
    return { s with vocabularies := s.vocabularies ++ [⟨chain, names⟩] }

/-- The answers to the requests for templates, by a cache. What names a part that is not in the
session is passed over. -/
def answers (s : Session) (cache : TemplateCache) :
    List Request → List (Except TemplateError Template)
  | [] => []
  | .change c :: rest => answers ((s.change c).getD s) cache rest
  | .get i text :: rest =>
    match s.vocabularies[i]? with
    | some v => (cache.get v text).1.result :: answers s (cache.get v text).2 rest
    | none => answers s cache rest
  | .clear :: rest => answers s cache.clear rest

/-- The answers to the requests for templates, each compiled when it is asked for. -/
def compiled (s : Session) : List Request → List (Except TemplateError Template)
  | [] => []
  | .change c :: rest => compiled ((s.change c).getD s) rest
  | .get i text :: rest =>
    match s.vocabularies[i]? with
    | some v => Template.compile v text :: compiled s rest
    | none => compiled s rest
  | .clear :: rest => compiled s rest

/-! ## What identities stand for -/

/-- What was made under each identity. -/
structure Register where
  providers : Identity → List (String → Option ConstructorPath)
  entries : Identity → Entries String String

namespace Register

variable {r' : Register} {chain : ProviderChain} {names : ArgumentNames} {n' : Identity}

/-- The vocabulary whose parts have the given identities. -/
def vocabulary (r : Register) (chain names : Identity) : Vocabulary :=
  ⟨⟨chain, r.providers chain⟩, ⟨names, r.entries names⟩⟩

/-- Two registers say the same of all identities below one that was not given out yet. -/
def AgreeBelow (n : Identity) (r r' : Register) : Prop :=
  ∀ id < n, r'.providers id = r.providers id ∧ r'.entries id = r.entries id

theorem AgreeBelow.refl (n : Identity) (r : Register) : AgreeBelow n r r :=
  fun _ _ => ⟨rfl, rfl⟩

theorem AgreeBelow.vocabulary_eq (h : AgreeBelow n r r') {chain names : Identity}
    (hchain : chain < n) (hnames : names < n) :
    r'.vocabulary chain names = r.vocabulary chain names := by
  simp only [vocabulary, (h chain hchain).1, (h names hnames).2]

/-- A chain is the one that was made under its identity. -/
def HasChain (r : Register) (n : Identity) (chain : ProviderChain) : Prop :=
  chain.id < n ∧ chain.providers = r.providers chain.id

/-- Argument names are the ones that were made under their identity. -/
def HasNames (r : Register) (n : Identity) (names : ArgumentNames) : Prop :=
  names.id < n ∧ names.entries = r.entries names.id

/-- A chain with an identity that was not given out yet can be registered. -/
theorem exists_hasChain (r : Register) (hid : n ≤ chain.id) (hlt : chain.id < n') :
    ∃ r', AgreeBelow n r r' ∧ r'.HasChain n' chain := by
  refine ⟨{ r with providers := Function.update r.providers chain.id chain.providers }, ?_, hlt, ?_⟩
  · intro id hlt'
    exact ⟨Function.update_of_ne (Nat.ne_of_lt (Nat.lt_of_lt_of_le hlt' hid)) _ _, rfl⟩
  · exact (Function.update_self chain.id chain.providers r.providers).symm

theorem exists_hasNames (r : Register) (hid : n ≤ names.id) (hlt : names.id < n') :
    ∃ r', AgreeBelow n r r' ∧ r'.HasNames n' names := by
  refine ⟨{ r with entries := Function.update r.entries names.id names.entries }, ?_, hlt, ?_⟩
  · intro id hlt'
    exact ⟨rfl, Function.update_of_ne (Nat.ne_of_lt (Nat.lt_of_lt_of_le hlt' hid)) _ _⟩
  · exact (Function.update_self names.id names.entries r.entries).symm

theorem HasChain.mono (h : r.HasChain n chain) (hagree : AgreeBelow n r r') (hle : n ≤ n') :
    r'.HasChain n' chain :=
  ⟨Nat.lt_of_lt_of_le h.1 hle, h.2.trans (hagree _ h.1).1.symm⟩

theorem HasNames.mono (h : r.HasNames n names) (hagree : AgreeBelow n r r') (hle : n ≤ n') :
    r'.HasNames n' names :=
  ⟨Nat.lt_of_lt_of_le h.1 hle, h.2.trans (hagree _ h.1).2.symm⟩

/-- What a cache keeps are compilations under the vocabularies that its keys stand for. -/
def Keeps (r : Register) (n : Identity) (cache : TemplateCache) : Prop :=
  ∀ key c, (key, c) ∈ cache.entries → key.chain < n ∧ key.arguments < n ∧
    c.result = Template.compile (r.vocabulary key.chain key.arguments) key.text

theorem Keeps.mono (h : r.Keeps n cache) (hagree : AgreeBelow n r r') (hle : n ≤ n') :
    r'.Keeps n' cache := by
  intro key c hmem
  obtain ⟨hchain, hnames, hresult⟩ := h key c hmem
  refine ⟨Nat.lt_of_lt_of_le hchain hle, Nat.lt_of_lt_of_le hnames hle, ?_⟩
  rw [hagree.vocabulary_eq hchain hnames]
  exact hresult

end Register

/-! ## One change -/

/-- All parts and vocabularies of a session are registered. -/
structure Follows (r : Register) (s : Session) : Prop where
  chains : ∀ chain ∈ s.chains, r.HasChain s.next chain
  names : ∀ names ∈ s.names, r.HasNames s.next names
  vocabularies : ∀ v ∈ s.vocabularies,
    r.HasChain s.next v.chain ∧ r.HasNames s.next v.arguments

section

variable {r r' : Register} {s : Session} {chains : List ProviderChain} {all : List ArgumentNames}

theorem Follows.mono (h : s.Follows r) (hagree : r.AgreeBelow s.next r') (hle : s.next ≤ n) :
    Follows r' { s with next := n } where
  chains := fun chain hmem => (h.chains chain hmem).mono hagree hle
  names := fun names hmem => (h.names names hmem).mono hagree hle
  vocabularies := fun v hmem =>
    ⟨(h.vocabularies v hmem).1.mono hagree hle, (h.vocabularies v hmem).2.mono hagree hle⟩

theorem Follows.withChain (h : s.Follows r) {chain : ProviderChain}
    (hchain : r.HasChain s.next chain) (hchains : ∀ c ∈ chains, c ∈ s.chains ∨ c = chain) :
    Follows r { s with chains } := by
  refine ⟨fun c hc => ?_, h.names, h.vocabularies⟩
  obtain hc | rfl := hchains c hc
  · exact h.chains c hc
  · exact hchain

theorem Follows.withNames (h : s.Follows r) {names : ArgumentNames}
    (hnames : r.HasNames s.next names) (hall : ∀ n ∈ all, n ∈ s.names ∨ n = names) :
    Follows r { s with names := all } := by
  refine ⟨h.chains, fun n hn => ?_, h.vocabularies⟩
  obtain hn | rfl := hall n hn
  · exact h.names n hn
  · exact hnames

/-- A session that goes on from another one: what was registered stays so. -/
def Extends (r : Register) (s s' : Session) : Prop :=
  s.next ≤ s'.next ∧ ∃ r', r.AgreeBelow s.next r' ∧ s'.Follows r'

theorem Follows.extends_newChain (h : s.Follows r) (chain : ProviderChain)
    (hid : s.next ≤ chain.id) (hlt : chain.id < n)
    (hchains : ∀ c ∈ chains, c ∈ s.chains ∨ c = chain) :
    Extends r s { s with next := n, chains } := by
  obtain ⟨r', hagree, hchain⟩ := r.exists_hasChain hid hlt
  have hle : s.next ≤ n := Nat.le_of_lt (Nat.lt_of_le_of_lt hid hlt)
  exact ⟨hle, r', hagree, (h.mono hagree hle).withChain hchain hchains⟩

theorem Follows.extends_newNames (h : s.Follows r) (names : ArgumentNames)
    (hid : s.next ≤ names.id) (hlt : names.id < n) (hall : ∀ n ∈ all, n ∈ s.names ∨ n = names) :
    Extends r s { s with next := n, names := all } := by
  obtain ⟨r', hagree, hnames⟩ := r.exists_hasNames hid hlt
  have hle : s.next ≤ n := Nat.le_of_lt (Nat.lt_of_le_of_lt hid hlt)
  exact ⟨hle, r', hagree, (h.mono hagree hle).withNames hnames hall⟩

end

theorem id_foldlM_insert {m : Identity} (pairs : List (String × String)) (names : ArgumentNames)
    (hle : n ≤ names.id) (hlt : names.id < m) :
    ∃ made m', (pairs.foldlM (fun (names : ArgumentNames) (attr, argument) =>
        names.insert attr argument) names : Fresh ArgumentNames).run m = (made, m') ∧
      n ≤ made.id ∧ made.id < m' := by
  induction pairs generalizing names m with
  | nil => exact ⟨names, m, rfl, hle, hlt⟩
  | cons pair rest ih =>
    rw [List.foldlM_cons]
    exact ih ((names.insert pair.1 pair.2).run m).1
      (Nat.le_of_lt (Nat.lt_of_le_of_lt hle hlt)) (Nat.lt_succ_self m)

/-- The names made from pairs have an identity that was taken for them. -/
theorem id_ofPairs (pairs : List (String × String)) (n : Identity) :
    n ≤ ((ArgumentNames.ofPairs pairs).run n).1.id ∧
      ((ArgumentNames.ofPairs pairs).run n).1.id < ((ArgumentNames.ofPairs pairs).run n).2 := by
  obtain ⟨made, m', hrun, hle, hlt⟩ :=
    id_foldlM_insert pairs ⟨n, []⟩ (Nat.le_refl n) (Nat.lt_succ_self n)
  have hpairs : (ArgumentNames.ofPairs pairs).run n = (made, m') := hrun
  rw [hpairs]
  exact ⟨hle, hlt⟩

theorem mem_or_eq_of_mem_concat {α : Type} {xs : List α} {x y : α} (h : y ∈ xs ++ [x]) :
    y ∈ xs ∨ y = x := by
  simpa using h

theorem Follows.change {s' : Session} (h : s.Follows r) {c : Change} (hc : s.change c = some s') :
    Extends r s s' := by
  -- copies keep the identity of the original, everything else that is made takes a new one
  cases c with
  | newChain =>
    cases hc
    exact h.extends_newChain (ProviderChain.new.run s.next).1 (Nat.le_refl _) (Nat.lt_succ_self _)
      fun _ => mem_or_eq_of_mem_concat
  | copyChain i =>
    obtain ⟨chain, hchain, hs⟩ := Option.bind_eq_some_iff.mp hc
    cases hs
    have hmem := h.chains chain (List.mem_of_getElem? hchain)
    exact ⟨Nat.le_refl _, r, .refl _ _, h.withChain hmem fun _ => mem_or_eq_of_mem_concat⟩
  | push i provider =>
    obtain ⟨chain, -, hs⟩ := Option.bind_eq_some_iff.mp hc
    cases hs
    exact h.extends_newChain ((chain.push provider).run s.next).1 (Nat.le_refl _)
      (Nat.lt_succ_self _) fun _ => List.mem_or_eq_of_mem_set
  | newNames =>
    cases hc
    exact h.extends_newNames (ArgumentNames.new.run s.next).1 (Nat.le_refl _) (Nat.lt_succ_self _)
      fun _ => mem_or_eq_of_mem_concat
  | copyNames i =>
    obtain ⟨names, hnames, hs⟩ := Option.bind_eq_some_iff.mp hc
    cases hs
    have hmem := h.names names (List.mem_of_getElem? hnames)
    exact ⟨Nat.le_refl _, r, .refl _ _, h.withNames hmem fun _ => mem_or_eq_of_mem_concat⟩
  | insert i attr argument =>
    obtain ⟨names, -, hs⟩ := Option.bind_eq_some_iff.mp hc
    cases hs
    exact h.extends_newNames ((names.insert attr argument).run s.next).1 (Nat.le_refl _)
      (Nat.lt_succ_self _) fun _ => List.mem_or_eq_of_mem_set
  | collect pairs =>
    cases hc
    obtain ⟨hle, hlt⟩ := id_ofPairs pairs s.next
    exact h.extends_newNames _ hle hlt fun _ => mem_or_eq_of_mem_concat
  | choose i j =>
    obtain ⟨chain, hchain, hs⟩ := Option.bind_eq_some_iff.mp hc
    obtain ⟨names, hnames, hs⟩ := Option.bind_eq_some_iff.mp hs
    cases hs
    refine ⟨Nat.le_refl _, r, .refl _ _, h.chains, h.names, fun v hv => ?_⟩
    obtain hv | rfl := mem_or_eq_of_mem_concat hv
    · exact h.vocabularies v hv
    · exact ⟨h.chains chain (List.mem_of_getElem? hchain), h.names names (List.mem_of_getElem? hnames)⟩

/-! ## One lookup -/

theorem Register.HasChain.vocabulary_eq (hchain : r.HasChain n v.chain)
    (hnames : r.HasNames n v.arguments) : r.vocabulary v.chain.id v.arguments.id = v := by
  simp only [Register.vocabulary, ← hchain.2, ← hnames.2]

theorem get_of_lookup {c : Compilation}
    (h : cache.entries.lookup (TemplateCache.keyFor v text) = some c) :
    cache.get v text = (c, { cache with hits := cache.hits + 1 }) := by
  simp only [TemplateCache.get, h]

theorem get_of_not_lookup (h : cache.entries.lookup (TemplateCache.keyFor v text) = none) :
    cache.get v text = (⟨cache.misses, Template.compile v text⟩,
      ⟨cache.entries ++ [(TemplateCache.keyFor v text, ⟨cache.misses, Template.compile v text⟩)],
        cache.hits, cache.misses + 1⟩) := by
  simp only [TemplateCache.get, h]

/-- A lookup gives the compilation under a registered vocabulary, and afterwards the cache still
keeps what its keys stand for. -/
theorem Register.Keeps.get (h : r.Keeps n cache) (hchain : r.HasChain n v.chain)
    (hnames : r.HasNames n v.arguments) (text : List Char) :
    (cache.get v text).1.result = Template.compile v text ∧ r.Keeps n (cache.get v text).2 := by
  have hv := hchain.vocabulary_eq hnames
  cases hlookup : cache.entries.lookup (TemplateCache.keyFor v text) with
  | some c =>
    obtain ⟨-, -, hresult⟩ := h (TemplateCache.keyFor v text) c (Entries.mem_of_lookup hlookup)
    rw [get_of_lookup hlookup]
    exact ⟨hresult.trans (congrArg (Template.compile · text) hv), h⟩
  | none =>
    rw [get_of_not_lookup hlookup]
    refine ⟨rfl, fun key c hmem => ?_⟩
    obtain hmem | heq := mem_or_eq_of_mem_concat hmem
    · exact h key c hmem
    · cases heq
      exact ⟨hchain.1, hnames.1, congrArg (Template.compile · text) hv.symm⟩

/-! ## Whole sessions -/

theorem Follows.answers_eq (h : s.Follows r) (hcache : r.Keeps s.next cache)
    (requests : List Request) : s.answers cache requests = s.compiled requests := by
  -- A change extends the register, so it is general in the induction.
  induction requests generalizing r s cache with
  | nil => rfl
  | cons request rest ih =>
    cases request with
    | change c =>
      simp only [answers, compiled]
      cases hc : s.change c with
      | none => exact ih h hcache
      | some s' =>
        obtain ⟨hle, r', hagree, h'⟩ := h.change hc
        exact ih h' (hcache.mono hagree hle)
    | get i text =>
      simp only [answers, compiled]
      cases hv : s.vocabularies[i]? with
      | none => exact ih h hcache
      | some v =>
        obtain ⟨hchain, hnames⟩ := h.vocabularies v (List.mem_of_getElem? hv)
        obtain ⟨hresult, hcache'⟩ := hcache.get hchain hnames text
        exact congrArg₂ List.cons hresult (ih h hcache')
    | clear => exact ih h (fun _ _ hmem => absurd hmem List.not_mem_nil)

theorem follows_start : ∃ r, start.Follows r := by
  refine ⟨⟨fun _ => Vocabulary.shared.chain.providers, fun _ => Vocabulary.shared.arguments.entries⟩,
    ?_, ?_, ?_⟩
  all_goals
    intro x hx
    obtain rfl := List.mem_singleton.mp hx
  · exact ⟨by decide, rfl⟩
  · exact ⟨by decide, rfl⟩
  · exact ⟨⟨by decide, rfl⟩, by decide, rfl⟩

/-- A cache gives what compiling gives, a template or an error, to every request for a template,
whatever was made, copied, changed, asked for and cleared before. -/
theorem answers_eq_compiled (requests : List Request) :
    start.answers .empty requests = start.compiled requests := by
  obtain ⟨r, h⟩ := follows_start
  exact h.answers_eq (fun _ _ hmem => absurd hmem List.not_mem_nil) requests

end Session

end ComponentMarkup
