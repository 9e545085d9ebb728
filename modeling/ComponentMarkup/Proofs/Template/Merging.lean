import ComponentMarkup.Proofs.Template.Fragments

/-!
# What merged fragments evaluate to

Under layers of bindings, the fragments of an element are evaluated from left to right. If all of them
have a value, the value of the merged fragment is the list of their children. If one of them fails, the
merged fragment fails as the first one of these does.
-/

namespace ComponentMarkup

/-- The children that a value stands for: itself, or its items. -/
def FragmentKind.itemsOf : FragmentKind → Value → List Value
  | .scalar, v => [v]
  | .list, .list items => items
  | .list, _ => []

namespace Fragment

section Merging

variable [Natives]

/-- Every fragment for any number of children has a list as its value, or fails. This is asked of the
fragments one after another, as far as they are reached. -/
def AllListed (layers : List Bindings) : List Fragment → Identity → Prop
  | [], _ => True
  | f :: rest, next => ∀ v mid, f.node.evaluate layers next = .ok (v, mid) →
      (f.kind = .list → ∃ items, v = .list items) ∧ AllListed layers rest mid

variable {layers : List Bindings} {fragments : List Fragment} {f : Fragment} {next mid : Identity}

/-- The children of a fragment come from its value. -/
theorem children_of_ok {v : Value} (hv : f.node.evaluate layers next = .ok (v, mid))
    (hlist : f.kind = .list → ∃ items, v = .list items) :
    children (.ofLayers layers) f next = .ok (f.kind.itemsOf v, mid) := by
  obtain ⟨kind, node⟩ := f
  have hchildren : children (.ofLayers layers) ⟨kind, node⟩ next = _ := bind_of_ok hv
  rw [hchildren]
  cases kind with
  | scalar => rfl
  | list =>
    obtain ⟨items, rfl⟩ := hlist rfl
    rfl

theorem children_of_error {e : EvalError} (he : f.node.evaluate layers next = .error e) :
    children (.ofLayers layers) f next = .error e :=
  bind_of_error he

theorem AllListed.inTurn (h : AllListed layers fragments next) :
    InTurn (IsListedFrom (.ofLayers layers)) (children (.ofLayers layers)) fragments next := by
  induction fragments generalizing next with
  | nil => trivial
  | cons f rest ih =>
    refine ⟨fun hkind v mid hv => (h v mid hv).1 hkind, fun xs mid hxs => ?_⟩
    cases hv : f.node.evaluate layers next with
    | error e =>
      rw [children_of_error hv] at hxs
      cases hxs
    | ok r =>
      obtain ⟨v, mid'⟩ := r
      obtain ⟨hlist, hrest⟩ := h v mid' hv
      rw [children_of_ok hv hlist] at hxs
      cases hxs
      exact ih hrest

/-- From left to right, all fragments have a value, or a first one fails. -/
theorem AllListed.gather_children (h : AllListed layers fragments next) :
    (∃ values last,
      (Expr.evalAll (fragments.map node) (.ofLayers layers)).run next = .ok (values, last) ∧
      gather (fragments.map (children (.ofLayers layers))) next =
        .ok ((List.zipWith (fun f v => f.kind.itemsOf v) fragments values).flatten, last)) ∨
    ∃ before f after values mid e, fragments = before ++ f :: after ∧
      (Expr.evalAll (before.map node) (.ofLayers layers)).run next = .ok (values, mid) ∧
      f.node.evaluate layers mid = .error e ∧
      gather (fragments.map (children (.ofLayers layers))) next = .error e := by
  induction fragments generalizing next with
  | nil => exact .inl ⟨[], next, rfl, rfl⟩
  | cons f rest ih =>
    cases hv : f.node.evaluate layers next with
    | error e =>
      refine .inr ⟨[], f, rest, [], next, e, rfl, rfl, hv, ?_⟩
      exact bind_of_error (children_of_error hv)
    | ok r =>
      obtain ⟨v, mid⟩ := r
      obtain ⟨hlist, hrest⟩ := h v mid hv
      have hchildren := children_of_ok hv hlist
      have hnode : (f.node.eval (.ofLayers layers)) next = .ok (v, mid) := hv
      -- the first fragment has a value, so the others decide, from the state that it leaves
      obtain ⟨values, last, hvalues, hgather⟩ |
        ⟨before, g, after, values, mid', e, rfl, hvalues, hfails, hgather⟩ := ih hrest
      · have hgather : gather (rest.map (children (.ofLayers layers))) mid = .ok (_, last) := hgather
        refine .inl ⟨v :: values, last, ?_, ?_⟩
        · exact (bind_of_ok hnode).trans (bind_of_ok hvalues)
        · exact (bind_of_ok hchildren).trans (bind_of_ok hgather)
      · refine .inr ⟨f :: before, g, after, v :: values, mid', e, rfl, ?_, hfails, ?_⟩
        · exact (bind_of_ok hnode).trans (bind_of_ok hvalues)
        · exact (bind_of_ok hchildren).trans (bind_of_error hgather)

/-- Merging means concatenation: the value is the list of all children, in order, or the fragments fail
as the first one that fails. -/
theorem evaluate_merge (h : AllListed layers fragments next) :
    (∃ values last,
      (Expr.evalAll (fragments.map node) (.ofLayers layers)).run next = .ok (values, last) ∧
      (merge fragments).node.evaluate layers next =
        .ok (.list (List.zipWith (fun f v => f.kind.itemsOf v) fragments values).flatten, last)) ∨
    ∃ before f after values mid e, fragments = before ++ f :: after ∧
      (Expr.evalAll (before.map node) (.ofLayers layers)).run next = .ok (values, mid) ∧
      f.node.evaluate layers mid = .error e ∧
      (merge fragments).node.evaluate layers next = .error e := by
  have hmerge : (merge fragments).node.evaluate layers next = _ := lists_merge_from h.inTurn
  obtain ⟨values, last, hvalues, hgather⟩ |
    ⟨before, f, after, values, mid, e, hsplit, hvalues, hfails, hgather⟩ := h.gather_children
  · rw [bind_of_ok hgather] at hmerge
    exact .inl ⟨values, last, hvalues, hmerge⟩
  · rw [bind_of_error hgather] at hmerge
    exact .inr ⟨before, f, after, values, mid, e, hsplit, hvalues, hfails, hmerge⟩

end Merging

/-- Lists around two children, of which one is made on the way. -/
theorem evaluate_merge_of_mixed :
    AllListed [[("xs", .list [.str "a", .none]), ("ys", .list [])]]
        [⟨.list, .name "xs"⟩, ⟨.scalar, .attribute (.constant (.str "b")) "upper"⟩,
          ⟨.scalar, .name "ys"⟩, ⟨.list, .name "ys"⟩, ⟨.list, .name "xs"⟩] 7 ∧
      (merge [⟨.list, .name "xs"⟩, ⟨.scalar, .attribute (.constant (.str "b")) "upper"⟩,
          ⟨.scalar, .name "ys"⟩, ⟨.list, .name "ys"⟩, ⟨.list, .name "xs"⟩]).node.evaluate
        [[("xs", .list [.str "a", .none]), ("ys", .list [])]] 7 =
        .ok (.list [.str "a", .none, .method 7 (.str "b") .upper, .list [], .str "a", .none], 8) := by
  have hlisted : AllListed [[("xs", .list [.str "a", .none]), ("ys", .list [])]]
      [⟨.list, .name "xs"⟩, ⟨.scalar, .attribute (.constant (.str "b")) "upper"⟩,
        ⟨.scalar, .name "ys"⟩, ⟨.list, .name "ys"⟩, ⟨.list, .name "xs"⟩] 7 := by
    -- one step for each fragment, with the identity that it leaves
    rintro _ _ ⟨⟩
    refine ⟨fun _ => ⟨_, rfl⟩, ?_⟩
    rintro _ _ ⟨⟩
    refine ⟨nofun, ?_⟩
    rintro _ _ ⟨⟩
    refine ⟨nofun, ?_⟩
    rintro _ _ ⟨⟩
    refine ⟨fun _ => ⟨_, rfl⟩, ?_⟩
    rintro _ _ ⟨⟩
    exact ⟨fun _ => ⟨_, rfl⟩, trivial⟩
  refine ⟨hlisted, ?_⟩
  obtain ⟨values, last, hvalues, hmerge⟩ | ⟨_, _, _, _, _, _, -, -, -, hfails⟩ :=
    evaluate_merge hlisted
  · cases hvalues
    exact hmerge
  · cases hfails

end Fragment

end ComponentMarkup
