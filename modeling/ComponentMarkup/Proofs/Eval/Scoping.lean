import Mathlib.Data.List.Basic
import ComponentMarkup.Proofs.Eval.Holes
import ComponentMarkup.Proofs.Expr.FreeNames

/-!
# What evaluation depends on

An expression is evaluated in two scopes that know the same names inside of comprehensions but have
different layers of bindings. If both scopes say the same about the free names of the expression, then
both evaluations have the same outcome: `Expr.matches_eval`.

A comprehension has one frame for all its clauses and rounds, which is filled as the clauses run. Where
a name is bound by the comprehensions around it, it is in one of their frames whenever it is looked up;
nothing is assumed of such names.

The errors that may occur are counted in: read with one scope on both sides, the statement says that an
evaluation fails with errors of operations and of free names only. So an expression whose free names
have a meaning never fails for a name without one, if native functions do not.
-/

namespace ComponentMarkup

variable {α β γ : Type} {N : String → Prop} {P Q : α → Prop} {R : β → Prop} {n : String}
  {frame : Bindings}

/-! ## Frames -/

theorem mem_keys_insert {name : String} {v : Value} :
    n ∈ (Entries.insert name v frame).map Prod.fst ↔ n = name ∨ n ∈ frame.map Prod.fst := by
  induction frame with
  | nil => simp [Entries.insert]
  | cons entry rest ih =>
    obtain ⟨k, u⟩ := entry
    rw [Entries.insert]
    by_cases hk : k = name
    · simp [hk]
    · simp only [beq_iff_eq, hk, if_false, List.map_cons, List.mem_cons, ih]
      exact or_left_comm

/-- A frame has the names that another one had, and some more. -/
structure Bindings.Extends (frame : Bindings) (more : List String) (frame' : Bindings) : Prop where
  kept : frame.map Prod.fst ⊆ frame'.map Prod.fst
  added : more ⊆ frame'.map Prod.fst

mutual

/-- Binding a target puts its names into the frame. -/
theorem extends_of_bind (target : Target) {v : Value} {frame frame' : Bindings}
    (h : target.bind v frame = .ok frame') : frame.Extends target.names frame' :=
  match target with
  | .name n => by
    cases h
    exact ⟨fun _ hm => mem_keys_insert.mpr (.inr hm),
      fun _ hm => mem_keys_insert.mpr (.inl (List.mem_singleton.mp hm))⟩
  | .tuple targets => by
    rw [Target.bind] at h
    cases hitems : v.iterate with
    | error err =>
      rw [hitems] at h
      cases h
    | ok items =>
      rw [hitems] at h
      change (if _ then _ else if _ then _ else Target.bindAll targets items frame) = _ at h
      by_cases hfew : items.length < targets.length
      · rw [if_pos hfew] at h
        cases h
      · rw [if_neg hfew] at h
        by_cases hmany : targets.length < items.length
        · rw [if_pos hmany] at h
          cases h
        · rw [if_neg hmany] at h
          exact extends_of_bindAll targets (Nat.le_of_not_lt hfew) h

theorem extends_of_bindAll (targets : List Target) {values : List Value} {frame frame' : Bindings}
    (hlength : targets.length ≤ values.length)
    (h : Target.bindAll targets values frame = .ok frame') :
    frame.Extends (Target.namesOfAll targets) frame' :=
  match targets with
  | [] => by
    rw [Target.bindAll] at h
    · cases h
      exact ⟨fun _ hm => hm, List.nil_subset _⟩
    · simp
  | target :: rest => by
    cases values with
    | nil => cases hlength
    | cons v values =>
      rw [Target.bindAll] at h
      cases hfirst : target.bind v frame with
      | error err =>
        rw [hfirst] at h
        cases h
      | ok middle =>
        rw [hfirst] at h
        have hone := extends_of_bind target hfirst
        have hmore := extends_of_bindAll rest (Nat.le_of_succ_le_succ hlength) h
        refine ⟨fun _ hm => hmore.kept (hone.kept hm), ?_⟩
        rw [Target.namesOfAll]
        exact List.append_subset.mpr ⟨fun _ hm => hmore.kept (hone.added hm), hmore.added⟩

end

/-- No name is a hole. -/
class Scope.Plain (scope : Scope) : Prop where
  holes (n : String) : scope.holes n = none

instance (layers : List Bindings) : (Scope.ofLayers layers).Plain :=
  ⟨fun _ => rfl⟩

instance (scope : Scope) [h : scope.Plain] (frame : Bindings) : (scope.enter frame).Plain :=
  ⟨h.holes⟩

theorem Scope.lookup_enter (scope : Scope) (frame : Bindings) (n : String) :
    (scope.enter frame).lookup n =
      match frame.lookup n with
      | some v => .ok v
      | none => scope.lookup n := by
  rw [Scope.enter, Scope.lookup, lookupLayers, List.findSome?_cons]
  cases frame.lookup n <;> rfl

/-- Entries extended by others: the others come first. -/
theorem Entries.lookup_insertAll {entries more : Bindings} (h : (more.map Prod.fst).Nodup)
    (n : String) :
    List.lookup n (Entries.insertAll entries more) =
      (List.lookup n more).or (List.lookup n entries) := by
  induction more generalizing entries with
  | nil => rfl
  | cons entry rest ih =>
    obtain ⟨k, v⟩ := entry
    rw [List.map_cons, List.nodup_cons] at h
    change List.lookup n (Entries.insertAll (Entries.insert k v entries) rest) = _
    rw [ih h.2]
    by_cases hn : n = k
    · -- the name is not given again, so its value stays
      subst hn
      have hrest : List.lookup n rest = none := by
        rw [List.lookup_eq_none_iff]
        intro entry hentry
        exact bne_iff_ne.mpr fun heq => h.1 (List.mem_map.mpr ⟨entry, hentry, heq.symm⟩)
      rw [hrest, Entries.lookup_insert_self, List.lookup_cons_self]
      rfl
    · rw [Entries.lookup_insert_of_ne hn, List.lookup_cons, beq_false_of_ne hn]

section

variable [Natives]

/-! ## Evaluations with the same outcome -/

/-- An error that may occur where some names are without a meaning. -/
inductive EvalError.Within (N : String → Prop) : EvalError → Prop where
  | unbound {name : String} : N name → Within N (.unbound name)
  | operation (err : OperationError) : Within N (.operation err)
  /-- The error of a native function. -/
  | raised {id : Identity} {args : Arguments} {next : Identity} {err : EvalError} :
    Natives.call id args next = .error err → Within N err

/-- Two computations give the same result, which has a property, or the same error. -/
inductive Concur (N : String → Prop) (Q : α → Prop) :
    Except EvalError α → Except EvalError α → Prop where
  | ok {a : α} : Q a → Concur N Q (.ok a) (.ok a)
  | error {err : EvalError} : err.Within N → Concur N Q (.error err) (.error err)

/-- Two evaluations have the same outcome from every state. -/
def Matches (N : String → Prop) (Q : α → Prop) (x y : Eval α) : Prop :=
  ∀ next, Concur N (fun a => Q a.1) (x next) (y next)

/-- Two evaluations have the same outcome, whatever it is. -/
abbrev Alongside (N : String → Prop) (x y : Eval α) : Prop :=
  Matches N (fun _ => True) x y

namespace Matches

variable {x y : Eval α} {r : Except OperationError α} {f g : α → Eval β}

theorem pure {a : α} (h : Q a) : Matches N Q (pure a) (pure a) :=
  fun _ => .ok h

theorem throw {err : OperationError} :
    Matches N Q (throw (.operation err)) (throw (.operation err)) :=
  fun _ => .error (.operation err)

theorem lift (hQ : ∀ a, r = .ok a → Q a) : Matches N Q (liftM r) (liftM r) := by
  intro next
  cases r with
  | ok a => exact .ok (hQ a rfl)
  | error err => exact .error (.operation err)

theorem bind (h : Matches N Q x y) (hfg : ∀ a, Q a → Matches N R (f a) (g a)) :
    Matches N R (x >>= f) (y >>= g) := by
  intro next
  have hnext := h next
  change Concur N _ (x next >>= fun p => f p.1 p.2) (y next >>= fun p => g p.1 p.2)
  generalize x next = r, y next = r' at hnext ⊢
  cases hnext with
  | ok ha => exact hfg _ ha _
  | error herr => exact .error herr

/-- A step that is the same on both sides. -/
theorem step (hfg : ∀ a, r = .ok a → Matches N R (f a) (g a)) :
    Matches N R (liftM r >>= f) (liftM r >>= g) :=
  (lift fun _ ha => ha).bind hfg

theorem ite {c : Prop} [Decidable c] {x' y' : Eval α} (h : Matches N Q x y)
    (h' : Matches N Q x' y') : Matches N Q (if c then x else x') (if c then y else y') := by
  by_cases hc : c
  · rwa [if_pos hc, if_pos hc]
  · rwa [if_neg hc, if_neg hc]

theorem imp (h : Matches N Q x y) (hPQ : ∀ a, Q a → P a) : Matches N P x y := by
  intro next
  have hnext := h next
  generalize x next = r, y next = r' at hnext ⊢
  cases hnext with
  | ok ha => exact .ok (hPQ _ ha)
  | error herr => exact .error herr

theorem foldlM {f g : α → γ → Eval α} (hstep : ∀ a c, Q a → Matches N Q (f a c) (g a c))
    (items : List γ) {a : α} (ha : Q a) : Matches N Q (items.foldlM f a) (items.foldlM g a) := by
  induction items generalizing a with
  | nil => exact pure ha
  | cons item items ih =>
    rw [List.foldlM_cons, List.foldlM_cons]
    exact (hstep a item ha).bind fun b hb => ih hb

end Matches

theorem Value.matches_attribute (v : Value) (attr : String) :
    Alongside N (v.attribute attr) (v.attribute attr) := by
  unfold Value.attribute
  split
  case h_1 name members =>
    cases members.lookup attr with
    | some member => exact .pure trivial
    | none => exact .throw
  case h_2 name props =>
    cases props.lookup attr with
    | some prop => exact .pure trivial
    | none => exact .throw
  case h_3 =>
    cases v.method? attr with
    | some m => exact fun _ => .ok trivial
    | none => exact .throw

theorem Value.matches_invoke (function : Value) (args : Arguments) :
    Alongside N (function.invoke args) (function.invoke args) := by
  unfold Value.invoke
  split
  next id _ =>
    intro next
    cases hcall : Natives.call id args next with
    | ok v => exact .ok trivial
    | error err => exact .error (.raised hcall)
  next => exact Matches.lift fun _ _ => trivial

/-! ## Scopes -/

/-- Two scopes say the same about a name. -/
def ResolvesAlike (N : String → Prop) (scope scope' : Scope) (n : String) : Prop :=
  Concur N (fun _ => True) (scope.lookup n) (scope'.lookup n)

theorem ResolvesAlike.resolve
    {scope scope' : Scope} [scope.Plain] [scope'.Plain]
    (h : ResolvesAlike N scope scope' n) : Alongside N (scope.resolve n) (scope'.resolve n) := by
  intro next
  unfold ResolvesAlike at h
  rw [Scope.resolve, Scope.resolve, Scope.Plain.holes, Scope.Plain.holes]
  dsimp only
  generalize scope.lookup n = x, scope'.lookup n = y at h ⊢
  cases h with
  | ok _ => exact .ok trivial
  | error herr => exact .error herr

/-- A name that the frame has, or about which the scopes around say the same. -/
theorem ResolvesAlike.inside {scope scope' : Scope}
    (h : n ∈ frame.map Prod.fst ∨ ResolvesAlike N scope scope' n) :
    ResolvesAlike N (scope.enter frame) (scope'.enter frame) n := by
  rw [ResolvesAlike, Scope.lookup_enter, Scope.lookup_enter]
  cases hfound : frame.lookup n with
  | some v => exact .ok trivial
  | none =>
    -- the frame does not have the name, so the scopes around are asked
    refine h.resolve_left fun hn => ?_
    obtain ⟨entry, hentry, rfl⟩ := List.mem_map.mp hn
    exact absurd rfl (bne_iff_ne.mp (List.lookup_eq_none_iff.mp hfound entry hentry))

/-! ## Expressions -/

/-- A round of a comprehension leaves a frame that has all the names it had. -/
def KeepsNames (frame : Bindings) (x : Bindings × List Contribution) : Prop :=
  frame.map Prod.fst ⊆ x.1.map Prod.fst

mutual

/-- Both evaluations of an expression have the same outcome if the scopes say the same about its free
names. -/
theorem Expr.matches_eval (e : Expr)
    {scope scope' : Scope} [scope.Plain] [scope'.Plain]
    (hfree : ∀ n ∈ e.freeNames, ResolvesAlike N scope scope' n) :
    Alongside N (e.eval scope) (e.eval scope') :=
  match e with
  | .constant _ => Matches.pure trivial
  | .name n => by
    rw [Expr.eval, Expr.eval]
    exact (hfree n List.mem_cons_self).resolve
  | .list items | .tuple items => by
    rw [Expr.eval, Expr.eval]
    exact (Expr.matches_evalAll items hfree).bind fun _ _ => Matches.pure trivial
  | .dict entries => by
    rw [Expr.eval, Expr.eval]
    exact (Expr.matches_evalEntries entries hfree).bind fun _ _ => Matches.pure trivial
  | .attribute value attr => by
    rw [Expr.eval, Expr.eval]
    exact (Expr.matches_eval value hfree).bind fun v _ => v.matches_attribute attr
  | .subscript value index => by
    rw [Expr.freeNames, List.forall_mem_append] at hfree
    have hvalue := Expr.matches_eval value hfree.1
    have hindex := Expr.matches_eval index hfree.2
    have hbounds := Expr.matches_bounds index hfree.2
    cases hslice : index.isSlice with
    | false =>
      rw [Expr.eval_subscript hslice, Expr.eval_subscript hslice]
      refine hvalue.bind fun v _ => hindex.bind fun i _ => ?_
      exact Matches.lift fun _ _ => trivial
    | true =>
      -- a slice is looked at, not evaluated
      cases index with
      | slice lower upper step =>
        rw [Expr.eval, Expr.eval]
        exact hvalue.bind fun v _ => hbounds lower upper step rfl v
      | _ => cases hslice
  | .slice _ _ _ => Matches.throw
  | .call function args => by
    rw [Expr.freeNames, List.forall_mem_append] at hfree
    rw [Expr.eval, Expr.eval]
    refine (Expr.matches_eval function hfree.1).bind fun f _ => ?_
    exact (Argument.matches_evalAll args hfree.2 .empty).bind fun args _ => f.matches_invoke args
  | .binary op left right => by
    rw [Expr.freeNames, List.forall_mem_append] at hfree
    rw [Expr.eval, Expr.eval]
    refine (Expr.matches_eval left hfree.1).bind fun a _ => ?_
    refine (Expr.matches_eval right hfree.2).bind fun b _ => ?_
    exact Matches.lift fun _ _ => trivial
  | .unary op operand => by
    rw [Expr.eval, Expr.eval]
    refine (Expr.matches_eval operand hfree).bind fun a _ => ?_
    exact Matches.lift fun _ _ => trivial
  | .logic op left right => by
    rw [Expr.freeNames, List.forall_mem_append] at hfree
    rw [Expr.eval, Expr.eval]
    refine (Expr.matches_eval left hfree.1).bind fun a _ => ?_
    exact Matches.ite (Matches.pure trivial) (Expr.matches_eval right hfree.2)
  | .compare left comparisons => by
    rw [Expr.freeNames, List.forall_mem_append] at hfree
    rw [Expr.eval, Expr.eval]
    refine (Expr.matches_eval left hfree.1).bind fun a _ => ?_
    exact (Expr.matches_evalChain comparisons hfree.2 a).bind fun _ _ => Matches.pure trivial
  | .conditional test body orelse => by
    rw [Expr.freeNames, List.forall_mem_append, List.forall_mem_append] at hfree
    rw [Expr.eval, Expr.eval]
    refine (Expr.matches_eval test hfree.1.1).bind fun a _ => ?_
    exact Matches.ite (Expr.matches_eval body hfree.1.2) (Expr.matches_eval orelse hfree.2)
  | .listComp element clauses | .generator element clauses => by
    rw [Expr.eval, Expr.eval]
    refine (Clause.matches_run clauses (fun n hn => .inr (hfree n hn)) [] fun frame hinner => ?_).bind
      fun _ _ => Matches.pure trivial
    refine (Expr.matches_eval element fun n hn => .inside (hinner n hn)).bind fun _ _ => ?_
    exact Matches.pure trivial
  | .dictComp key value clauses => by
    rw [Expr.eval, Expr.eval]
    refine (Clause.matches_run clauses (fun n hn => .inr (hfree n hn)) [] fun frame hinner => ?_).bind
      fun _ _ => Matches.pure trivial
    rw [List.forall_mem_append] at hinner
    refine (Expr.matches_eval key fun n hn => .inside (hinner.1 n hn)).bind fun k _ => ?_
    refine Matches.step fun _ _ => ?_
    refine (Expr.matches_eval value fun n hn => .inside (hinner.2 n hn)).bind fun _ _ => ?_
    exact Matches.pure trivial

theorem Expr.matches_bounds (e : Expr)
    {scope scope' : Scope} [scope.Plain] [scope'.Plain]
    (hfree : ∀ n ∈ e.freeNames, ResolvesAlike N scope scope' n) (lower upper step : Option Expr)
    (he : e = .slice lower upper step) (v : Value) :
    Alongside N
      (do
        let lower ← Expr.evalBound lower scope
        let upper ← Expr.evalBound upper scope
        let step ← Expr.evalBound step scope
        v.slice lower upper step)
      (do
        let lower ← Expr.evalBound lower scope'
        let upper ← Expr.evalBound upper scope'
        let step ← Expr.evalBound step scope'
        v.slice lower upper step) :=
  match e with
  | .slice l u s => by
    rw [Expr.freeNames, List.forall_mem_append, List.forall_mem_append] at hfree
    have hlower := Expr.matches_evalBound l hfree.1.1
    have hupper := Expr.matches_evalBound u hfree.1.2
    have hstep := Expr.matches_evalBound s hfree.2
    cases he
    refine hlower.bind fun i _ => hupper.bind fun j _ => hstep.bind fun k _ => ?_
    exact Matches.lift fun _ _ => trivial

theorem Expr.matches_evalAll (items : List Expr)
    {scope scope' : Scope} [scope.Plain] [scope'.Plain]
    (hfree : ∀ n ∈ Expr.freeNamesOfItems items, ResolvesAlike N scope scope' n) :
    Alongside N (Expr.evalAll items scope) (Expr.evalAll items scope') :=
  match items with
  | [] => Matches.pure trivial
  | e :: rest => by
    rw [Expr.freeNamesOfItems, List.forall_mem_append] at hfree
    rw [Expr.evalAll, Expr.evalAll]
    refine (Expr.matches_eval e hfree.1).bind fun _ _ => ?_
    exact (Expr.matches_evalAll rest hfree.2).bind fun _ _ => Matches.pure trivial

theorem Expr.matches_evalEntries (entries : List (Expr × Expr))
    {scope scope' : Scope} [scope.Plain] [scope'.Plain]
    (hfree : ∀ n ∈ Expr.freeNamesOfEntries entries, ResolvesAlike N scope scope' n) :
    Alongside N (Expr.evalEntries entries scope) (Expr.evalEntries entries scope') :=
  match entries with
  | [] => Matches.pure trivial
  | (key, value) :: rest => by
    rw [Expr.freeNamesOfEntries, List.forall_mem_append, List.forall_mem_append] at hfree
    rw [Expr.evalEntries, Expr.evalEntries]
    refine (Expr.matches_eval key hfree.1.1).bind fun k _ => ?_
    refine Matches.step fun _ _ => ?_
    refine (Expr.matches_eval value hfree.1.2).bind fun _ _ => ?_
    exact (Expr.matches_evalEntries rest hfree.2).bind fun _ _ => Matches.pure trivial

theorem Expr.matches_evalBound (bound : Option Expr)
    {scope scope' : Scope} [scope.Plain] [scope'.Plain]
    (hfree : ∀ n ∈ Expr.freeNamesOfOptional bound, ResolvesAlike N scope scope' n) :
    Alongside N (Expr.evalBound bound scope) (Expr.evalBound bound scope') :=
  match bound with
  | none => Matches.pure trivial
  | some e => by
    rw [Expr.evalBound, Expr.evalBound]
    refine (Expr.matches_eval e hfree).bind fun v _ => ?_
    exact Matches.lift fun _ _ => trivial

theorem Expr.matches_evalChain (comparisons : List (CompareOp × Expr))
    {scope scope' : Scope} [scope.Plain] [scope'.Plain]
    (hfree : ∀ n ∈ Expr.freeNamesOfComparisons comparisons, ResolvesAlike N scope scope' n)
    (left : Value) :
    Alongside N (Expr.evalChain comparisons left scope) (Expr.evalChain comparisons left scope') :=
  match comparisons with
  | [] => Matches.pure trivial
  | (op, e) :: rest => by
    rw [Expr.freeNamesOfComparisons, List.forall_mem_append] at hfree
    rw [Expr.evalChain, Expr.evalChain]
    refine (Expr.matches_eval e hfree.1).bind fun right _ => ?_
    refine Matches.step fun _ _ => ?_
    exact Matches.ite (Expr.matches_evalChain rest hfree.2 right) (Matches.pure trivial)

theorem Expr.matches_evalConditions (conditions : List Expr)
    {scope scope' : Scope} [scope.Plain] [scope'.Plain]
    (hfree : ∀ n ∈ Expr.freeNamesOfItems conditions, ResolvesAlike N scope scope' n) :
    Alongside N (Expr.evalConditions conditions scope) (Expr.evalConditions conditions scope') :=
  match conditions with
  | [] => Matches.pure trivial
  | e :: rest => by
    rw [Expr.freeNamesOfItems, List.forall_mem_append] at hfree
    rw [Expr.evalConditions, Expr.evalConditions]
    refine (Expr.matches_eval e hfree.1).bind fun _ _ => ?_
    exact Matches.ite (Expr.matches_evalConditions rest hfree.2) (Matches.pure trivial)

theorem Argument.matches_evalAll (args : List Argument)
    {scope scope' : Scope} [scope.Plain] [scope'.Plain]
    (hfree : ∀ n ∈ Expr.freeNamesOfArguments args, ResolvesAlike N scope scope' n) (done : Arguments) :
    Alongside N (Argument.evalAll args scope done) (Argument.evalAll args scope' done) :=
  match args with
  | [] => Matches.pure trivial
  | .positional e :: rest => by
    rw [Expr.freeNamesOfArguments, List.forall_mem_append] at hfree
    rw [Argument.evalAll, Argument.evalAll]
    refine (Expr.matches_eval e hfree.1).bind fun _ _ => ?_
    exact Argument.matches_evalAll rest hfree.2 _
  | .keyword name e :: rest => by
    rw [Expr.freeNamesOfArguments, List.forall_mem_append] at hfree
    rw [Argument.evalAll, Argument.evalAll]
    refine (Expr.matches_eval e hfree.1).bind fun v _ => ?_
    refine Matches.step fun more _ => ?_
    exact Argument.matches_evalAll rest hfree.2 more
  | .unpack e :: rest => by
    rw [Expr.freeNamesOfArguments, List.forall_mem_append] at hfree
    rw [Argument.evalAll, Argument.evalAll]
    refine (Expr.matches_eval e hfree.1).bind fun v _ => ?_
    refine Matches.step fun items _ => ?_
    exact Argument.matches_evalAll rest hfree.2 _
  | .unpackKeywords e :: rest => by
    rw [Expr.freeNamesOfArguments, List.forall_mem_append] at hfree
    rw [Argument.evalAll, Argument.evalAll]
    have hrest := Argument.matches_evalAll rest hfree.2
    refine (Expr.matches_eval e hfree.1).bind fun v _ => ?_
    cases v with
    | dict entries => exact Matches.step fun more _ => hrest more
    | _ => exact Matches.throw

/-- The clauses of a comprehension. A free name of what is evaluated inside is in the frame, or the
scopes around the comprehension say the same about it. -/
theorem Clause.matches_run (clauses : List Clause)
    {scope scope' : Scope} [scope.Plain] [scope'.Plain] {frame : Bindings}
    {inner : List String}
    (hfree : ∀ n ∈ Expr.freeNamesOfClauses clauses inner,
      n ∈ frame.map Prod.fst ∨ ResolvesAlike N scope scope' n)
    (rows : List Contribution) {emit emit' : Scope → Eval Contribution}
    (hemit : ∀ frame : Bindings,
      (∀ n ∈ inner, n ∈ frame.map Prod.fst ∨ ResolvesAlike N scope scope' n) →
      Alongside N (emit (scope.enter frame)) (emit' (scope'.enter frame))) :
    Matches N (KeepsNames frame) (Clause.run clauses emit scope frame rows)
      (Clause.run clauses emit' scope' frame rows) :=
  match clauses with
  | [] => by
    rw [Clause.run, Clause.run]
    exact (hemit frame hfree).bind fun _ _ => Matches.pure fun _ hn => hn
  | ⟨target, iter, conditions⟩ :: rest => by
    rw [Expr.freeNamesOfClauses, List.forall_mem_append] at hfree
    rw [Clause.run, Clause.run]
    refine (Expr.matches_eval iter fun n hn => .inside (hfree.1 n hn)).bind fun v _ => ?_
    refine Matches.step fun items _ => ?_
    -- all rounds share one frame, which only grows
    refine Matches.foldlM ?_ items fun _ hn => hn
    rintro ⟨frame₁, rows₁⟩ item hkept
    refine Matches.step fun frame₂ hbind => ?_
    obtain ⟨hold, hnew⟩ := extends_of_bind target hbind
    have hkept₂ : frame.map Prod.fst ⊆ frame₂.map Prod.fst := fun _ hn => hold (hkept hn)
    -- what the clause binds is in the frame from here on
    have hinner : ∀ n ∈ Expr.freeNamesOfItems conditions ++ Expr.freeNamesOfClauses rest inner,
        n ∈ frame₂.map Prod.fst ∨ ResolvesAlike N scope scope' n := by
      intro n hn
      by_cases hnt : n ∈ target.names
      · exact .inl (hnew hnt)
      · exact (hfree.2 n (List.mem_filter.mpr ⟨hn, by simpa using hnt⟩)).imp_left (hkept₂ ·)
    rw [List.forall_mem_append] at hinner
    refine (Expr.matches_evalConditions conditions fun n hn => .inside (hinner.1 n hn)).bind
      fun _ _ => Matches.ite ?_ (Matches.pure hkept₂)
    refine (Clause.matches_run rest hinner.2 rows₁ hemit).imp fun x hx => ?_
    exact fun _ hn => hx (hkept₂ hn)

end

/-! ## Layers -/

theorem ResolvesAlike.of_lookupLayers {layers layers' : List Bindings}
    (h : lookupLayers n layers = lookupLayers n layers') :
    ResolvesAlike (fun _ => True) (.ofLayers layers) (.ofLayers layers') n := by
  rw [ResolvesAlike, Scope.ofLayers, Scope.ofLayers, Scope.lookup, Scope.lookup, h]
  cases lookupLayers n layers' with
  | some v => exact .ok trivial
  | none =>
    cases Builtin.ofName? n with
    | some f => exact .ok trivial
    | none => exact .error (.unbound trivial)

theorem Matches.eq {x y : Eval α} (h : Matches N Q x y) (next : Identity) : x next = y next := by
  have hnext := h next
  generalize x next = r, y next = r' at hnext
  cases hnext <;> rfl

/-- Evaluation depends only on what the layers say about the free names of the expression. In
particular, a layer over another one is as good as the other one extended by the first. -/
theorem Expr.evaluate_eq_of_lookupLayers (e : Expr) (next : Identity) :
    (∀ layers layers' : List Bindings,
      (∀ n ∈ e.freeNames, lookupLayers n layers = lookupLayers n layers') →
        e.evaluate layers next = e.evaluate layers' next) ∧
    ∀ explicit ambient : Bindings, (explicit.map Prod.fst).Nodup →
      e.evaluate [explicit, ambient] next =
        e.evaluate [Entries.insertAll ambient explicit] next := by
  have hlayers : ∀ layers layers' : List Bindings,
      (∀ n ∈ e.freeNames, lookupLayers n layers = lookupLayers n layers') →
        e.evaluate layers next = e.evaluate layers' next := by
    intro layers layers' h
    exact (e.matches_eval fun n hn => .of_lookupLayers (h n hn)).eq next
  refine ⟨hlayers, fun explicit ambient hnodup => hlayers _ _ fun n _ => ?_⟩
  rw [lookupLayers, lookupLayers, List.findSome?_cons, List.findSome?_singleton,
    List.findSome?_singleton, Entries.lookup_insertAll hnodup]
  cases List.lookup n explicit <;> rfl

end

/-- `[x + y for x in xs]` does not see what `x` means outside, and sees the first `y`. -/
theorem Expr.evaluate_eq_of_lookupLayers_comprehension :
    let e : Expr := .listComp (.binary .add (.name "x") (.name "y")) [⟨.name "x", .name "xs", []⟩]
    let xs : Value := .list [.int 1, .int 2]
    let one : List Bindings := [[("x", .str "a"), ("y", .int 3)], [("y", .none), ("xs", xs)]]
    let other : List Bindings := [[("xs", xs)], [("y", .int 3), ("x", .none)]]
    (∀ n ∈ e.freeNames, lookupLayers n one = lookupLayers n other) ∧
      e.evaluate one 0 = e.evaluate other 0 ∧
      ([("x", Value.str "a"), ("y", .int 3)].map Prod.fst).Nodup ∧
      e.evaluate one 0 =
        e.evaluate [[("y", .int 3), ("xs", xs), ("x", .str "a")]] 0 := by
  intro e xs one other
  have hsame : ∀ n ∈ e.freeNames, lookupLayers n one = lookupLayers n other := by
    intro n hn
    have hn : n ∈ ["xs", "y"] := hn
    rcases List.mem_pair.mp hn with rfl | rfl <;> rfl
  have hnodup : ([("x", Value.str "a"), ("y", .int 3)].map Prod.fst).Nodup := by decide
  obtain ⟨hlayers, hextended⟩ := e.evaluate_eq_of_lookupLayers 0
  exact ⟨hsame, hlayers one other hsame, hnodup, hextended _ _ hnodup⟩

/-! ## Names with a meaning -/

theorem OperationError.kind_ne_name (err : OperationError) : err.kind ≠ .name := by
  cases err <;> simp [OperationError.kind]

/-- A name has a meaning under layers of bindings: in one of them, or as a builtin. -/
def Defined (layers : List Bindings) (n : String) : Prop :=
  (lookupLayers n layers).isSome ∨ (Builtin.ofName? n).isSome

instance (layers : List Bindings) (n : String) : Decidable (Defined layers n) :=
  inferInstanceAs (Decidable (_ ∨ _))

theorem lookup_ofLayers (layers : List Bindings) (n : String) :
    (∃ v, (Scope.ofLayers layers).lookup n = .ok v) ∨
      ¬ Defined layers n ∧ (Scope.ofLayers layers).lookup n = .error (.unbound n) := by
  rw [Scope.ofLayers, Scope.lookup, Defined]
  cases lookupLayers n layers with
  | some v => exact .inl ⟨v, rfl⟩
  | none =>
    cases Builtin.ofName? n with
    | some f => exact .inl ⟨.builtin f, rfl⟩
    | none => exact .inr ⟨by decide, rfl⟩

section

variable [Natives]
  (hnatives : ∀ id args next err, Natives.call id args next = .error err → err.kind ≠ .name)

include hnatives

/-- An evaluation that fails because of a name fails for a free name that is not defined. -/
theorem Expr.unbound_of_evaluate (e : Expr) (layers : List Bindings) (next : Identity)
    (err : EvalError) (herr : e.evaluate layers next = .error err) (hname : err.kind = .name) :
    ∃ n ∈ e.freeNames, ¬ Defined layers n ∧ err = .unbound n := by
  -- evaluation is compared with itself, with the errors that may occur counted in
  let N : String → Prop := fun n => n ∈ e.freeNames ∧ ¬ Defined layers n
  have halike : ∀ n ∈ e.freeNames, ResolvesAlike N (.ofLayers layers) (.ofLayers layers) n := by
    intro n hn
    rw [ResolvesAlike]
    rcases lookup_ofLayers layers n with ⟨v, hv⟩ | ⟨hdefined, hunbound⟩
    · rw [hv]
      exact .ok trivial
    · rw [hunbound]
      exact .error (.unbound ⟨hn, hdefined⟩)
  have hmatches := e.matches_eval halike next
  have heval : e.eval (.ofLayers layers) next = .error err := herr
  rw [heval] at hmatches
  cases hmatches with
  | error hwithin =>
    cases hwithin with
    | unbound h => exact ⟨_, h.1, h.2, rfl⟩
    | operation cause => exact (cause.kind_ne_name hname).elim
    | raised hcall => exact (hnatives _ _ _ _ hcall hname).elim

end

/-- An expression whose free names are all defined never fails because of a name, unless a native
function does. -/
theorem Expr.kind_ne_name_of_evaluate [Natives]
    (hnatives : ∀ id args next err, Natives.call id args next = .error err → err.kind ≠ .name)
    (e : Expr) (layers : List Bindings)
    (h : ∀ n ∈ e.freeNames, Defined layers n) (next : Identity) (err : EvalError)
    (herr : e.evaluate layers next = .error err) : err.kind ≠ .name := by
  intro hname
  obtain ⟨n, hn, hdefined, _⟩ := e.unbound_of_evaluate hnatives layers next err herr hname
  exact hdefined (h n hn)

/-- `[z + len for x, y in rows if x for z in range(y)]` fails, but not because of a name. -/
theorem Expr.kind_ne_name_of_evaluate_nested :
    let e : Expr := .listComp (.binary .add (.name "z") (.name "len"))
      [⟨.tuple [.name "x", .name "y"], .name "rows", [.name "x"]⟩,
        ⟨.name "z", .call (.name "range") [.positional (.name "y")], []⟩]
    let layers : List Bindings := [[("rows", .list [.tuple [.bool true, .int 2]])]]
    (∀ n ∈ e.freeNames, Defined layers n) ∧
      e.evaluate layers 0 = .error (.operation (.operands .add .int .function)) ∧
      (EvalError.operation (.operands .add .int .function)).kind ≠ .name := by
  intro e layers
  have hdefined : ∀ n ∈ e.freeNames, Defined layers n := by decide
  have herr : e.evaluate layers 0 = .error (.operation (.operands .add .int .function)) := rfl
  have hnone : ∀ id args next err, Natives.call id args next = .error err → err.kind ≠ .name := by
    rintro id args next _ ⟨⟩
    decide
  exact ⟨hdefined, herr, Expr.kind_ne_name_of_evaluate hnone _ _ hdefined 0 _ herr⟩

end ComponentMarkup
