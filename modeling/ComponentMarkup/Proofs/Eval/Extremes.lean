import ComponentMarkup.Eval.Builtins
import ComponentMarkup.Proofs.Sorting.Partition
import ComponentMarkup.Proofs.Value.Ranks

/-!
# Sorting values, and their extremes

Values that compare with one another are ranked, in ascending order by their ranks and in descending
order by the dual of them (`Ranked.of_pairs`, `Ranked.dual`). So `sorted` arranges them in either
direction, and `min` and `max`, which go through the items once, find the item that the sorted list
starts with (`Builtin.sorted_extremes`).
-/

namespace ComponentMarkup

open Sorting

/-- How an item compares with those that it is to come before. -/
def direction (reverse : Bool) : Ordering :=
  if reverse then .gt else .lt

/-- Items compare as their ranks do, in ascending or in descending order. -/
structure Ranked {τ : Type} [LinearOrder τ] (reverse : Bool) (rank : Value → τ)
    (items : List Value) : Prop where
  of_lt : ∀ a ∈ items, ∀ b ∈ items, rank a < rank b →
    a.compare? b = some (direction reverse) ∧ b.compare? a = some (direction !reverse)
  of_eq : ∀ a ∈ items, ∀ b ∈ items, rank a = rank b → a.compare? b = some .eq
  equal_iff : ∀ a ∈ items, ∀ b ∈ items, a.equal b = true ↔ rank a = rank b

theorem Ranked.of_pairs {items : List Value} (hitems : 2 ≤ items.length)
    (hplain : ∀ v ∈ items, v.IsPlain)
    (hpairs : items.Pairwise fun a b => (a.compare? b).isSome ∧ (b.compare? a).isSome) :
    Ranked false Value.rank items := by
  have hsome : ∀ a ∈ items, ∀ b ∈ items, (a.compare? b).isSome := by
    intro a ha b hb
    obtain ⟨i, hi, rfl⟩ := List.getElem_of_mem ha
    obtain ⟨j, hj, rfl⟩ := List.getElem_of_mem hb
    have hother : ∀ k (hk : k < items.length), i ≠ k → (items[i].compare? items[k]).isSome := by
      intro k hk hik
      have hpair := List.pairwise_iff_getElem.mp hpairs
      rcases Nat.lt_or_gt_of_ne hik with h | h
      · exact (hpair i k hi hk h).1
      · exact (hpair k i hk hi h).2
    by_cases hij : i = j
    · -- An item compares with itself, as it does with the one at another place.
      subst hij
      by_cases hzero : i = 0
      · exact (hplain _ ha).compare?_self (hplain _ (List.getElem_mem _))
          (hother 1 (by omega) (by omega))
      · exact (hplain _ ha).compare?_self (hplain _ (List.getElem_mem _))
          (hother 0 (by omega) hzero)
    · exact hother j hj hij
  have horder : ∀ a ∈ items, ∀ b ∈ items, a.compare? b = some (cmp a.rank b.rank) := by
    intro a ha b hb
    obtain ⟨o, ho⟩ := Option.isSome_iff_exists.mp (hsome a ha b hb)
    rw [ho, ((hplain a ha).compares (hplain b hb) ho).cmp_eq]
  refine ⟨fun a ha b hb h => ⟨?_, ?_⟩, fun a ha b hb h => ?_, fun a ha b hb => ?_⟩
  · rw [horder a ha b hb, (cmp_eq_lt_iff _ _).mpr h]
    rfl
  · rw [horder b hb a ha, (cmp_eq_gt_iff _ _).mpr h]
    rfl
  · rw [horder a ha b hb, (cmp_eq_eq_iff _ _).mpr h]
  · exact (hplain a ha).equal_iff (hplain b hb)

section Ranked

variable {τ : Type} [LinearOrder τ] {reverse : Bool} {rank : Value → τ} {items : List Value}

theorem Ranked.dual (h : Ranked reverse rank items) :
    Ranked (!reverse) (OrderDual.toDual ∘ rank) items := by
  refine ⟨fun a ha b hb hab => ?_, h.of_eq, h.equal_iff⟩
  obtain ⟨hba, hab⟩ := h.of_lt b hb a ha hab
  exact ⟨hab, by rw [Bool.not_not]; exact hba⟩

theorem Ranked.orderOf_eq (h : Ranked reverse rank items) {a b : Value} (ha : a ∈ items)
    (hb : b ∈ items) :
    ∃ o, orderOf a b = .ok o ∧ (o == direction reverse) = decide (rank a < rank b) ∧
      (o == direction !reverse) = decide (rank b < rank a) := by
  unfold orderOf
  rcases lt_trichotomy (rank a) (rank b) with hab | hab | hab
  · refine ⟨direction reverse, by rw [(h.of_lt a ha b hb hab).1], ?_⟩
    cases reverse <;> simp [direction, hab, hab.le]
  · refine ⟨.eq, by rw [h.of_eq a ha b hb hab], ?_⟩
    cases reverse <;> simp [direction, hab]
  · refine ⟨direction !reverse, by rw [(h.of_lt b hb a ha hab).2], ?_⟩
    cases reverse <;> simp [direction, hab, hab.le]

theorem Ranked.precedes_eq (h : Ranked reverse rank items) {a b : Value} (ha : a ∈ items)
    (hb : b ∈ items) : precedes reverse a b = .ok (decide (rank a < rank b)) := by
  unfold precedes
  cases reverse with
  | false =>
    obtain ⟨o, ho, hlt, -⟩ := h.orderOf_eq ha hb
    rw [← hlt, if_neg Bool.false_ne_true, ho]
    rfl
  | true =>
    obtain ⟨o, ho, -, hlt⟩ := h.orderOf_eq hb ha
    rw [← hlt, if_pos rfl, ho]
    rfl

theorem Ranked.extreme_eq (h : Ranked reverse rank items) {seen : List Value} {best : Value}
    {more : List Value} (hbest : IsFirstLeast rank seen best)
    (hitems : ∀ v ∈ seen ++ more, v ∈ items) :
    ∃ v, extreme (direction reverse) best more = .ok v ∧ IsFirstLeast rank (seen ++ more) v := by
  unfold extreme
  induction more generalizing seen best with
  | nil => exact ⟨best, rfl, by rwa [List.append_nil]⟩
  | cons item more ih =>
    rw [List.append_cons] at hitems ⊢
    obtain ⟨o, ho, hlt, -⟩ := h.orderOf_eq (hitems item (by simp))
      (hitems best (by simp [hbest.mem]))
    obtain ⟨v, hv, hleast⟩ := ih (hbest.step item) hitems
    refine ⟨v, ?_, hleast⟩
    rw [List.foldlM_cons, ho, ← hv]
    change List.foldlM _ (if (o == direction reverse) = true then item else best) more = _
    rw [hlt]
    simp only [decide_eq_true_eq]

/-- A list has the items of another one, each of which compares with those after it as `order` or as
equal, and equal items stand in the order they had. -/
structure IsArranged (order : Ordering) (items result : List Value) : Prop where
  perm : result.Perm items
  ordered : result.Pairwise fun a b => a.compare? b = some order ∨ a.compare? b = some .eq
  stable : ∀ v ∈ items, result.filter v.equal = items.filter v.equal

theorem Ranked.isArranged (h : Ranked reverse rank items) {result : List Value}
    (hsorts : Sorts rank items result) : IsArranged (direction reverse) items result := by
  have hmem : ∀ {v : Value}, v ∈ result → v ∈ items := hsorts.mem_iff.mp
  refine ⟨hsorts.keeps.perm, ?_, fun v hv => ?_⟩
  · refine hsorts.ascending.imp_of_mem fun {a b} ha hb hab => ?_
    rcases hab.lt_or_eq with hab | hab
    · exact .inl (h.of_lt a (hmem ha) b (hmem hb) hab).1
    · exact .inr (h.of_eq a (hmem ha) b (hmem hb) hab)
  · have hequal : ∀ w ∈ items, v.equal w = decide (rank w = rank v) := by
      intro w hw
      rw [Bool.eq_iff_iff, h.equal_iff v hv w hw, decide_eq_true_iff, eq_comm]
    rw [List.filter_congr hequal, List.filter_congr fun w hw => hequal w (hmem hw), hsorts.keeps]

/-- The sorted list and the extreme that it starts with. -/
theorem Ranked.sortValues_extreme {first : Value} {more : List Value}
    (h : Ranked reverse rank (first :: more)) :
    ∃ result v, sortValues reverse (first :: more) = .ok result ∧
      IsArranged (direction reverse) (first :: more) result ∧ result.head? = some v ∧
      extreme (direction reverse) first more = .ok v := by
  have hless : Compares (fun a b => .ask (precedes reverse a b)) rank (first :: more) := by
    intro a ha b hb
    dsimp only
    rw [h.precedes_eq ha hb, Sorter.ask]
  obtain ⟨result, hresult, hsorts⟩ := stableSort_sorts hless
  have hfirst : IsFirstLeast rank [first] first := ⟨by simp, by simp⟩
  obtain ⟨v, hv, hleast⟩ := h.extreme_eq hfirst fun _ hv => hv
  refine ⟨result, v, by rw [sortValues, hresult]; rfl, h.isArranged hsorts, ?_, hv⟩
  cases result with
  | nil => cases hsorts.keeps.perm.length_eq
  | cons head rest => rw [List.head?_cons, hleast.unique hsorts.isFirstLeast_head]

end Ranked

/-- Plain values, each pair of which compares, are sorted in both directions with equal ones in their
order, and `min` and `max` are the first items of the sorted lists. -/
theorem Builtin.sorted_extremes {items : List Value} (hne : items ≠ [])
    (hplain : ∀ v ∈ items, v.IsPlain)
    (hpairs : items.Pairwise fun a b => (a.compare? b).isSome ∧ (b.compare? a).isSome) :
    ∃ up down least greatest,
      Builtin.sorted.call ⟨[.list items], []⟩ = .ok (.list up) ∧
      Builtin.sorted.call ⟨[.list items], [("reverse", .bool true)]⟩ = .ok (.list down) ∧
      IsArranged .lt items up ∧ IsArranged .gt items down ∧
      up.head? = some least ∧ Builtin.min.call ⟨[.list items], []⟩ = .ok least ∧
      down.head? = some greatest ∧ Builtin.max.call ⟨[.list items], []⟩ = .ok greatest := by
  obtain ⟨first, more, rfl⟩ := List.exists_cons_of_ne_nil hne
  have hsorted : ∀ reverse, ∃ result v, sortValues reverse (first :: more) = .ok result ∧
      IsArranged (direction reverse) (first :: more) result ∧ result.head? = some v ∧
      extreme (direction reverse) first more = .ok v := by
    intro reverse
    cases more with
    | nil =>
      refine ⟨[first], first, by cases reverse <;> rfl, ?_, rfl, rfl⟩
      exact ⟨.refl _, List.pairwise_singleton _ _, fun _ _ => rfl⟩
    | cons second more =>
      have hranked := Ranked.of_pairs (by simp) hplain hpairs
      cases reverse with
      | false => exact hranked.sortValues_extreme
      | true => exact hranked.dual.sortValues_extreme
  obtain ⟨up, least, hup, harranged, hleast, hmin⟩ := hsorted false
  obtain ⟨down, greatest, hdown, harranged', hgreatest, hmax⟩ := hsorted true
  refine ⟨up, down, least, greatest, ?_, ?_, harranged, harranged', hleast, hmin, hgreatest, hmax⟩
  · change (do return .list (← sortValues false (first :: more)) : Except OperationError Value) = _
    rw [hup]
    rfl
  · change (do return .list (← sortValues true (first :: more)) : Except OperationError Value) = _
    rw [hdown]
    rfl

/-- Lists that start alike, the last two of them equal. -/
theorem Builtin.sorted_extremes_lists :
    ∃ items up least,
      items = [.list [.none, .int 2], .list [.none, .bool true], .list [.none, .int 1]] ∧
      Builtin.sorted.call ⟨[.list items], []⟩ = .ok (.list up) ∧ IsArranged .lt items up ∧
      up.head? = some least ∧ Builtin.min.call ⟨[.list items], []⟩ = .ok least := by
  have hplain : ∀ v ∈ [Value.list [.none, .int 2], .list [.none, .bool true],
      .list [.none, .int 1]], v.IsPlain := by
    have hpair : ∀ {v : Value}, v.IsPlain → (Value.list [.none, v]).IsPlain :=
      fun hv => .list (by simpa using ⟨.none, hv⟩)
    simpa using ⟨hpair (.int 2), hpair (.bool true), hpair (.int 1)⟩
  obtain ⟨up, _, least, _, hup, -, harranged, -, hhead, hmin, -⟩ :=
    Builtin.sorted_extremes (List.cons_ne_nil _ _) hplain (by decide)
  exact ⟨_, up, least, rfl, hup, harranged, hhead, hmin⟩

end ComponentMarkup
