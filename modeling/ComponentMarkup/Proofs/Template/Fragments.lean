import ComponentMarkup.Eval.Basic
import ComponentMarkup.Proofs.Expr.Marks
import ComponentMarkup.Proofs.Template.Numbers
import Mathlib.Data.List.Nodup

/-!
# Merged fragments

Merging groups the fragments of an element into runs, but keeps all of them and their order. So the
marks of the merged fragment are those of the fragments, and its value is the list of their children,
computed from left to right: adding lists up never fails.
-/

namespace ComponentMarkup

namespace Fragment

/-- The fragments of a run. -/
def Run.fragments (run : Run) : List Fragment :=
  run.2.map (Fragment.mk run.1)

/-- Runs keep all fragments, in order. -/
theorem flatMap_runs (fragments : List Fragment) :
    (runs fragments).flatMap Run.fragments = fragments := by
  induction fragments with
  | nil => rfl
  | cons f rest ih =>
    obtain ⟨kind, node⟩ := f
    show (addToRuns ⟨kind, node⟩ (runs rest)).flatMap _ = _
    conv_rhs => rw [← ih]
    cases runs rest with
    | nil => rfl
    | cons run more =>
      obtain ⟨other, nodes⟩ := run
      rw [addToRuns]
      by_cases hkind : kind = other
      · rw [if_pos hkind, hkind]
        rfl
      · rw [if_neg hkind]
        rfl

end Fragment

/-! ## Marks -/

theorem marksOfItems_eq (items : List Expr) :
    Expr.marksOfItems items = items.flatMap Expr.marks := by
  induction items with
  | nil => rfl
  | cons item rest ih => rw [Expr.marksOfItems, ih, List.flatMap_cons]

theorem marksOfArguments_keyword (args : List (String × Expr)) :
    Expr.marksOfArguments (args.map fun arg => .keyword arg.1 arg.2) =
      args.flatMap fun arg => arg.2.marks := by
  induction args with
  | nil => rfl
  | cons arg rest ih =>
    rw [List.map_cons, Expr.marksOfArguments, ih, List.flatMap_cons]
    rfl

namespace Fragment

theorem marks_foldl (first : Expr) (rest : List Expr) :
    (rest.foldl (.binary .add) first).marks = first.marks ++ rest.flatMap Expr.marks := by
  induction rest generalizing first with
  | nil => simp
  | cons e rest ih =>
    rw [List.foldl_cons, ih, Expr.marks, List.flatMap_cons, List.append_assoc]

theorem marks_concat (es : List Expr) : (concat es).marks = es.flatMap Expr.marks := by
  cases es with
  | nil => rfl
  | cons first rest => exact marks_foldl first rest

theorem marks_run (run : Run) : run.node.marks = run.2.flatMap Expr.marks := by
  obtain ⟨kind, nodes⟩ := run
  cases kind with
  | scalar => exact marksOfItems_eq nodes
  | list => exact marks_concat nodes

theorem marks_merge (fragments : List Fragment) :
    (merge fragments).node.marks = fragments.flatMap (·.node.marks) := by
  conv_rhs => rw [← flatMap_runs fragments]
  rw [merge, marks_concat, List.flatMap_map, List.flatMap_assoc]
  simp only [marks_run, Run.fragments, List.flatMap_map]

end Fragment

/-! ## Lists of children -/

/-- Lists that are computed one after another, put together. -/
def gather : List (Eval (List Value)) → Eval (List Value)
  | [] => return []
  | first :: rest => do
    let items ← first
    return items ++ (← gather rest)

theorem gather_append (xs ys : List (Eval (List Value))) :
    gather (xs ++ ys) = (do return (← gather xs) ++ (← gather ys)) := by
  induction xs with
  | nil => simp [gather]
  | cons x xs ih =>
    simp only [List.cons_append, gather, ih, bind_assoc, pure_bind, List.append_assoc]

theorem gather_flatMap (f : β → List (Eval (List Value))) (parts : List β) :
    gather (parts.flatMap f) = gather (parts.map fun b => gather (f b)) := by
  induction parts with
  | nil => rfl
  | cons b rest ih =>
    rw [List.flatMap_cons, gather_append, ih, List.map_cons, gather]

/-- Computations one after another, each with a property of the identity that it begins with. What
would come after one that fails does not matter. -/
def InTurn {β : Type} (P : β → Identity → Prop) (items : β → Eval (List Value)) :
    List β → Identity → Prop
  | [], _ => True
  | b :: rest, next => P b next ∧ ∀ xs mid, items b next = .ok (xs, mid) → InTurn P items rest mid

section InTurn

variable {β γ : Type} {P : β → Identity → Prop} {items : β → Eval (List Value)} {next : Identity}

theorem inTurn_of_forall {parts : List β} (h : ∀ b ∈ parts, ∀ next, P b next) :
    InTurn P items parts next := by
  induction parts generalizing next with
  | nil => trivial
  | cons b rest ih =>
    exact ⟨h b List.mem_cons_self next, fun _ _ _ => ih fun c hc => h c (List.mem_cons_of_mem _ hc)⟩

theorem InTurn.of_append {front back : List β} (h : InTurn P items (front ++ back) next) :
    InTurn P items front next ∧
      ∀ xs mid, gather (front.map items) next = .ok (xs, mid) → InTurn P items back mid := by
  induction front generalizing next with
  | nil =>
    refine ⟨trivial, fun xs mid hgather => ?_⟩
    cases hgather
    exact h
  | cons b front ih =>
    obtain ⟨hb, hrest⟩ := h
    refine ⟨⟨hb, fun xs mid hxs => (ih (hrest xs mid hxs)).1⟩, fun xs mid hgather => ?_⟩
    obtain ⟨ys, mid', hys, hgather⟩ := bind_eq_ok.mp hgather
    obtain ⟨zs, mid'', hzs, hgather⟩ := bind_eq_ok.mp hgather
    cases hgather
    exact (ih (hrest ys mid' hys)).2 zs mid hzs

/-- What holds of all computations in turn holds of groups of them in turn. -/
theorem InTurn.of_flatMap {group : γ → List β} {parts : List γ}
    (h : InTurn P items (parts.flatMap group) next) :
    InTurn (fun c => InTurn P items (group c)) (fun c => gather ((group c).map items)) parts next := by
  induction parts generalizing next with
  | nil => trivial
  | cons c rest ih =>
    rw [List.flatMap_cons] at h
    obtain ⟨hgroup, hrest⟩ := h.of_append
    exact ⟨hgroup, fun xs mid hxs => ih (hrest xs mid hxs)⟩

theorem InTurn.imp {Q : β → Identity → Prop} {parts : List β} (h : InTurn P items parts next)
    (himp : ∀ b ∈ parts, ∀ n, P b n → Q b n) : InTurn Q items parts next := by
  induction parts generalizing next with
  | nil => trivial
  | cons b rest ih =>
    refine ⟨himp b List.mem_cons_self next h.1, fun xs mid hxs => ?_⟩
    exact ih (h.2 xs mid hxs) fun c hc => himp c (List.mem_cons_of_mem _ hc)

end InTurn

variable [Natives]

/-- An expression whose value, if it has one, is the list that something computes. -/
def Expr.Lists (e : Expr) (scope : Scope) (items : Eval (List Value)) : Prop :=
  e.eval scope = do return .list (← items)

/-- The same of one evaluation only, the one that begins with a given identity. -/
def Expr.ListsFrom (e : Expr) (scope : Scope) (items : Eval (List Value)) (next : Identity) : Prop :=
  e.eval scope next = (do return .list (← items) : Eval Value) next

theorem Expr.lists_iff {e : Expr} {items : Eval (List Value)} :
    e.Lists scope items ↔ ∀ next, e.ListsFrom scope items next :=
  funext_iff

/-- The sum of two lists has the items of both. -/
theorem Expr.ListsFrom.add {left right : Expr} {xs ys : Eval (List Value)}
    (hleft : left.ListsFrom scope xs next)
    (hright : ∀ v mid, xs next = .ok (v, mid) → right.ListsFrom scope ys mid) :
    (Expr.binary .add left right).ListsFrom scope (do return (← xs) ++ (← ys)) next := by
  unfold Expr.ListsFrom at hleft hright ⊢
  rw [Expr.eval]
  cases hxs : xs next with
  | error e =>
    rw [bind_of_error hxs] at hleft
    rw [bind_of_error hleft, bind_of_error (bind_of_error hxs)]
  | ok r =>
    obtain ⟨v, mid⟩ := r
    rw [bind_of_ok hxs] at hleft
    rw [bind_of_ok hleft, bind_assoc, bind_of_ok hxs]
    have hright := hright v mid hxs
    cases hys : ys mid with
    | error e =>
      rw [bind_of_error hys] at hright
      rw [bind_of_error hright, bind_of_error (bind_of_error hys)]
    | ok r =>
      obtain ⟨w, last⟩ := r
      rw [bind_of_ok hys] at hright
      rw [bind_of_ok hright, bind_assoc, bind_of_ok hys]
      rfl

namespace Fragment

variable {scope : Scope} {next : Identity}

theorem lists_foldl {node : β → Expr} {items : β → Eval (List Value)} {parts : List β}
    {first : Expr} {xs : Eval (List Value)} (hfirst : first.ListsFrom scope xs next)
    (h : ∀ v mid, xs next = .ok (v, mid) →
      InTurn (fun b => (node b).ListsFrom scope (items b)) items parts mid) :
    ((parts.map node).foldl (.binary .add) first).ListsFrom scope
      (gather (xs :: parts.map items)) next := by
  induction parts generalizing first xs with
  | nil =>
    have hone : gather [xs] = xs := by simp [gather]
    rw [List.map_nil, List.map_nil, List.foldl_nil, hone]
    exact hfirst
  | cons b rest ih =>
    -- the sum so far and the next list are one list, so the others follow it
    have hsum := hfirst.add fun v mid hxs => (h v mid hxs).1
    have hrest := ih hsum fun v mid hv => by
      obtain ⟨ys, mid', hys, hv⟩ := bind_eq_ok.mp hv
      obtain ⟨zs, mid'', hzs, hv⟩ := bind_eq_ok.mp hv
      cases hv
      exact (h ys mid' hys).2 zs mid hzs
    have hgather : gather (xs :: (b :: rest).map items) =
        gather ((do return (← xs) ++ (← items b)) :: rest.map items) := by
      simp only [List.map_cons, gather, bind_assoc, pure_bind, List.append_assoc]
    rw [List.map_cons, List.foldl_cons, hgather]
    exact hrest

theorem lists_concat {node : β → Expr} {items : β → Eval (List Value)} {parts : List β}
    (h : InTurn (fun b => (node b).ListsFrom scope (items b)) items parts next) :
    (concat (parts.map node)).ListsFrom scope (gather (parts.map items)) next := by
  cases parts with
  | nil => rfl
  | cons b rest => exact lists_foldl h.1 h.2

end Fragment

/-! ## Meanings -/

/-- What something means: its value, which depends on the scope. -/
abbrev Meaning := Scope → Eval Value

namespace Meaning

/-- The children that an item of content stands for: its value, or the items of its value. -/
def children (kind : FragmentKind) (m : Meaning) (scope : Scope) : Eval (List Value) := do
  let v ← m scope
  match kind with
  | .scalar => return [v]
  | .list => v.iterate

/-- The children that items of content stand for, from left to right. -/
def allChildren (items : List (FragmentKind × Meaning)) (scope : Scope) : Eval (List Value) :=
  gather (items.map fun item => item.2.children item.1 scope)

/-- The values of arguments, from left to right, with their names. -/
def allNamed : List (String × Meaning) → Scope → Eval (Entries String Value)
  | [], _ => return []
  | (name, m) :: rest, scope => do
    let v ← m scope
    return (name, v) :: (← allNamed rest scope)

/-- What the call of a constructor means. First comes the callee, then the content, then the other
arguments. -/
def call (path : ConstructorPath) (items : List (FragmentKind × Meaning))
    (args : List (String × Meaning)) : Meaning := fun scope => do
  let function ← path.callee.eval scope
  let children ← allChildren items scope
  let named ← allNamed args scope
  function.invoke ⟨[], ("children", .list children) :: named⟩

end Meaning

namespace Fragment

variable {scope : Scope}

/-- The item of content that a fragment is lowered from. -/
def item (f : Fragment) : FragmentKind × Meaning :=
  (f.kind, f.node.eval)

/-- A fragment for any number of children has a list as its value. -/
def IsListed (f : Fragment) : Prop :=
  f.kind = .list → ∀ scope, ∃ items, f.node.Lists scope items

theorem evalAll_eq_gather (nodes : List Expr) :
    Expr.evalAll nodes scope =
      gather (nodes.map fun node => Meaning.children .scalar node.eval scope) := by
  induction nodes with
  | nil => rfl
  | cons node rest ih =>
    simp only [Expr.evalAll, List.map_cons, gather, Meaning.children, ih, bind_assoc, pure_bind,
      List.singleton_append]

/-- From an identity on, a fragment for any number of children has a list as its value, or none. -/
def IsListedFrom (scope : Scope) (f : Fragment) (next : Identity) : Prop :=
  f.kind = .list → ∀ v mid, f.node.eval scope next = .ok (v, mid) → ∃ items, v = .list items

theorem IsListed.isListedFrom {f : Fragment} (h : f.IsListed) (next : Identity) :
    f.IsListedFrom scope next := by
  intro hkind v mid hv
  obtain ⟨items, hitems⟩ := h hkind scope
  rw [hitems] at hv
  obtain ⟨xs, mid', -, hv⟩ := bind_eq_ok.mp hv
  cases hv
  exact ⟨xs, rfl⟩

/-- The items of a list are its children. -/
theorem IsListedFrom.lists_children {node : Expr} (h : IsListedFrom scope ⟨.list, node⟩ next) :
    node.ListsFrom scope (Meaning.children .list node.eval scope) next := by
  unfold Expr.ListsFrom Meaning.children
  cases hv : node.eval scope next with
  | error e => rw [bind_of_error (bind_of_error hv)]
  | ok r =>
    obtain ⟨v, mid⟩ := r
    obtain ⟨items, rfl⟩ := h rfl v mid hv
    rw [bind_assoc, bind_of_ok hv]
    rfl

/-- The children of a fragment. -/
def children (scope : Scope) (f : Fragment) : Eval (List Value) :=
  Meaning.children f.kind f.node.eval scope

theorem lists_run {run : Run} (h : InTurn (IsListedFrom scope) (children scope) run.fragments next) :
    run.node.ListsFrom scope (gather (run.fragments.map (children scope))) next := by
  obtain ⟨kind, nodes⟩ := run
  cases kind with
  | scalar =>
    show (Expr.list nodes).eval scope next = _
    rw [Expr.eval, evalAll_eq_gather, Run.fragments, List.map_map]
    rfl
  | list =>
    have hsum : (concat ((Run.fragments (.list, nodes)).map Fragment.node)).ListsFrom scope
        (gather ((Run.fragments (.list, nodes)).map (children scope))) next := by
      refine lists_concat (h.imp fun f hf n hlisted => ?_)
      obtain ⟨node, -, rfl⟩ := List.mem_map.mp hf
      exact hlisted.lists_children
    have hnodes : (Run.fragments (.list, nodes)).map Fragment.node = nodes := by
      rw [Run.fragments, List.map_map]
      exact List.map_id nodes
    rwa [hnodes] at hsum

/-- If every fragment that is reached has a list as its value where it should, the value of all of
them is the list of their children. -/
theorem lists_merge_from {fragments : List Fragment}
    (h : InTurn (IsListedFrom scope) (children scope) fragments next) :
    (merge fragments).node.ListsFrom scope (gather (fragments.map (children scope))) next := by
  have hflat := flatMap_runs fragments
  have hgather : gather (fragments.map (children scope)) =
      gather ((runs fragments).map fun run => gather (run.fragments.map (children scope))) := by
    conv_lhs => rw [← hflat, List.map_flatMap, gather_flatMap]
  rw [← hflat] at h
  rw [hgather]
  exact lists_concat (h.of_flatMap.imp fun run _ _ => lists_run)

theorem lists_merge {fragments : List Fragment} (h : ∀ f ∈ fragments, f.IsListed) :
    (merge fragments).node.Lists scope (Meaning.allChildren (fragments.map item) scope) := by
  have hchildren : Meaning.allChildren (fragments.map item) scope =
      gather (fragments.map (children scope)) := by
    rw [Meaning.allChildren, List.map_map]
    rfl
  rw [hchildren, Expr.lists_iff]
  intro next
  exact lists_merge_from (inTurn_of_forall fun f hf => (h f hf).isListedFrom)

end Fragment

end ComponentMarkup
