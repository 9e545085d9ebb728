import ComponentMarkup.Proofs.Sorting.Runs

/-!
# Stability of sorting by partition

A partition sends items of one rank to one side and keeps their order there, so what is sorted on
both sides is sorted as a whole (`Sorts.of_filter`). Every way to sort a list leads to the same
result (`stableSort_sorts`).
-/

namespace ComponentMarkup.Sorting

variable {ε α τ : Type} [LinearOrder τ] {rank : α → τ} {less : Less ε α} {pool items : List α}

/-! ## The pivot -/

/-- The floor, if there is one, is comparable and not above any item. -/
def Floors (rank : α → τ) (pool : List α) (floor : Option α) (items : List α) : Prop :=
  ∀ f ∈ floor, f ∈ pool ∧ ∀ a ∈ items, rank f ≤ rank a

theorem Floors.none : Floors rank pool none items :=
  fun f hf => absurd hf (Option.not_mem_none f)

theorem lessAt_returns (hless : Compares less rank pool) {items : Array α} (hpool : items.toList ⊆ pool)
    (i j : Nat) : ∃ answer, lessAt less items i j = pure answer := by
  unfold lessAt
  split
  next x y hx hy =>
    have hmem : ∀ {k : Nat} {a : α}, items[k]? = some a → a ∈ pool := fun h =>
      hpool (Array.mem_toList_iff.mpr (Array.mem_of_getElem? h))
    exact ⟨_, hless x (hmem hx) y (hmem hy)⟩
  next => exact ⟨false, rfl⟩

theorem pivotPlace_returns (hless : Compares less rank pool) {items : Array α}
    (hpool : items.toList ⊆ pool) (start size : Nat) :
    ∃ place, pivotPlace less items start size = pure place := by
  fun_induction pivotPlace less items start size with
  | case1 start size hsize eighth ih₁ ih₂ ih₃ =>
    obtain ⟨a, ha⟩ := ih₁
    obtain ⟨b, hb⟩ := ih₂
    obtain ⟨c, hc⟩ := ih₃
    obtain ⟨belowB, hbelowB⟩ := lessAt_returns hless hpool a b
    obtain ⟨belowC, hbelowC⟩ := lessAt_returns hless hpool a c
    obtain ⟨between, hbetween⟩ := lessAt_returns hless hpool b c
    rw [ha, pure_bind, hb, pure_bind, hc, pure_bind, medianPlace, hbelowB, pure_bind, hbelowC,
      pure_bind]
    split
    · exact ⟨_, by rw [hbetween, pure_bind]⟩
    · exact ⟨a, rfl⟩
  | case2 => exact ⟨_, rfl⟩

/-! ## The parts -/

theorem splitBy_eq {test : α → Sorter ε Bool} {p : α → Bool}
    (htest : ∀ a ∈ items, test a = pure (p a)) (passed failed : List α) :
    splitBy test (passed, failed) items =
      pure ((items.filter p).reverse ++ passed, (items.filter (!p ·)).reverse ++ failed) := by
  unfold splitBy
  induction items generalizing passed failed with
  | nil => rfl
  | cons a items ih =>
    obtain ⟨ha, hitems⟩ := List.forall_mem_cons.mp htest
    rw [List.foldlM_cons]
    dsimp only
    rw [ha, pure_bind, pure_bind]
    cases hp : p a with
    | true => rw [if_pos rfl, ih hitems, List.filter_cons_of_pos hp]; simp [hp]
    | false => rw [if_neg Bool.false_ne_true, ih hitems]; simp [hp]

section

variable {before after : List α} {pivot : α}

theorem splitBelow_eq (hless : Compares less rank pool) (hpool : before ++ pivot :: after ⊆ pool) :
    splitBelow less before pivot after =
      pure ((before ++ pivot :: after).filter (rank · < rank pivot),
        (before ++ pivot :: after).filter fun a => !decide (rank a < rank pivot)) := by
  have htest : ∀ a ∈ before ++ pivot :: after, less a pivot = pure (decide (rank a < rank pivot)) :=
    fun a ha => hless a (hpool ha) pivot (hpool (by simp))
  rw [splitBelow, splitBy_eq fun a ha => htest a (by simp [ha]), pure_bind]
  dsimp only
  rw [splitBy_eq fun a ha => htest a (by simp [ha]), pure_bind]
  simp

theorem splitUpTo_eq (hless : Compares less rank pool) (hpool : before ++ pivot :: after ⊆ pool) :
    splitUpTo less before pivot after =
      pure ((before ++ pivot :: after).filter fun a => !decide (rank pivot < rank a),
        (before ++ pivot :: after).filter (rank pivot < rank ·)) := by
  have htest : ∀ a ∈ before ++ pivot :: after, less pivot a = pure (decide (rank pivot < rank a)) :=
    fun a ha => hless pivot (hpool (by simp)) a (hpool ha)
  rw [splitUpTo, splitBy_eq fun a ha => htest a (by simp [ha]), pure_bind]
  dsimp only
  rw [splitBy_eq fun a ha => htest a (by simp [ha]), pure_bind]
  simp

theorem splitProper_spec (hless : Compares less rank pool) {floor : Option α}
    (hpool : before ++ pivot :: after ⊆ pool)
    (hfloor : Floors rank pool floor (before ++ pivot :: after)) :
    splitProper less floor before pivot after = pure (some
        ((before ++ pivot :: after).filter (rank · < rank pivot),
          (before ++ pivot :: after).filter fun a => !decide (rank a < rank pivot))) ∨
      splitProper less floor before pivot after = pure none ∧
        ∀ a ∈ before ++ pivot :: after, rank pivot ≤ rank a := by
  have hpivot : pivot ∈ pool := hpool (by simp)
  obtain ⟨answer, hanswer, hleast⟩ : ∃ answer, atFloor less floor pivot = pure answer ∧
      (answer = true → ∀ a ∈ before ++ pivot :: after, rank pivot ≤ rank a) := by
    cases floor with
    | none => exact ⟨false, rfl, fun h => absurd h Bool.false_ne_true⟩
    | some f =>
      obtain ⟨hf, hle⟩ := hfloor f rfl
      refine ⟨!decide (rank f < rank pivot), ?_, fun h a ha => ?_⟩
      · rw [atFloor, hless f hf pivot hpivot, pure_bind]
      · simp only [Bool.not_eq_true', decide_eq_false_iff_not, not_lt] at h
        exact h.trans (hle a ha)
  rw [splitProper, hanswer, pure_bind]
  cases answer with
  | true => exact .inr ⟨rfl, hleast rfl⟩
  | false =>
    rw [if_neg Bool.false_ne_true, splitBelow_eq hless hpool, pure_bind]
    dsimp only
    by_cases hempty : ((before ++ pivot :: after).filter (rank · < rank pivot)).isEmpty = true
    · refine .inr ⟨by rw [if_pos hempty], fun a ha => ?_⟩
      have hnone := List.filter_eq_nil_iff.mp (List.isEmpty_iff.mp hempty) a ha
      simpa using hnone
    · exact .inl (by rw [if_neg hempty])

end

/-- What is sorted on both sides of a test is sorted as a whole. -/
theorem Sorts.of_filter {p : α → Bool} {s t : List α}
    (hp : ∀ a ∈ items, ∀ b ∈ items, p a = true → p b = false → rank a < rank b)
    (hs : Sorts rank (items.filter p) s) (ht : Sorts rank (items.filter (!p ·)) t) :
    Sorts rank items (s ++ t) := by
  refine Sorts.of_keeps (hs.append ht fun a ha b hb => ?_) fun z => ?_
  · simp only [List.mem_filter, Bool.not_eq_true'] at ha hb
    exact (hp a ha.1 b hb.1 ha.2 hb.2).le
  · have hpass : ∀ a ∈ items, ∀ b ∈ items, rank a = rank b → p a = p b := by
      intro a ha b hb hab
      cases hpa : p a <;> cases hpb : p b <;> grind
    rw [List.filter_append, List.filter_filter, List.filter_filter]
    by_cases hz : ∃ a ∈ items, rank a = z ∧ p a = true
    · obtain ⟨a, ha, rfl, hpa⟩ := hz
      have hall : items.filter (fun b => decide (rank b = rank a) && p b) =
          items.filter (rank · = rank a) := List.filter_congr fun b hb => by grind
      have hnone : items.filter (fun b => decide (rank b = rank a) && !p b) = [] :=
        List.filter_eq_nil_iff.mpr fun b hb => by grind
      rw [hall, hnone, List.append_nil]
    · have hnone : items.filter (fun b => decide (rank b = z) && p b) = [] :=
        List.filter_eq_nil_iff.mpr fun b hb => by grind
      have hall : items.filter (fun b => decide (rank b = z) && !p b) = items.filter (rank · = z) :=
        List.filter_congr fun b hb => by grind
      rw [hall, hnone, List.nil_append]

/-! ## The sort -/

theorem partitionSort_sorts (hless : Compares less rank pool) {limit : Nat} {floor : Option α}
    (hpool : items ⊆ pool) (hfloor : Floors rank pool floor items) :
    (partitionSort less limit floor items).Sorts rank items := by
  induction limit generalizing floor items with
  | zero =>
    rw [partitionSort]
    split
    · exact sortBlock_sorts hless hpool
    next hlarge =>
      exact runSort_sorts hless (sortBlock_sorts hless) (by rintro rfl; simp at hlarge) hpool
  | succ limit ih =>
    rw [partitionSort]
    split
    · exact sortBlock_sorts hless hpool
    have harray : items.toArray.toList ⊆ pool := hpool
    obtain ⟨place, hplace⟩ := pivotPlace_returns hless harray 0 items.length
    rw [hplace, pure_bind]
    split
    · exact sortBlock_sorts hless hpool
    next before pivot after hsplit =>
      obtain rfl : items = before ++ pivot :: after := by
        rw [List.splitAt_eq, Prod.mk.injEq] at hsplit
        rw [← hsplit.1, ← hsplit.2, List.take_append_drop]
      have hside : ∀ p, (before ++ pivot :: after).filter p ⊆ pool :=
        fun p a ha => hpool (List.mem_of_mem_filter ha)
      obtain hproper | ⟨hproper, hleast⟩ := splitProper_spec hless hpool hfloor
      · -- the pivot is the floor of the upper part
        have hpivot : Floors rank pool (some pivot)
            ((before ++ pivot :: after).filter fun a => !decide (rank a < rank pivot)) := by
          rintro _ ⟨⟩
          exact ⟨hpool (by simp), fun a ha => by simpa using (List.mem_filter.mp ha).2⟩
        obtain ⟨r, hr, hsorts⟩ := ih (hside _) hpivot
        obtain ⟨s, hs, hsorts'⟩ := ih (hside (rank · < rank pivot)) fun f hf =>
          ⟨(hfloor f hf).1, fun a ha => (hfloor f hf).2 a (List.mem_of_mem_filter ha)⟩
        rw [hproper, pure_bind]
        dsimp only
        rw [hr, pure_bind, hs, pure_bind]
        refine ⟨_, rfl, .of_filter (fun a _ b _ ha hb => ?_) hsorts' hsorts⟩
        exact (of_decide_eq_true ha).trans_le (not_lt.mp (of_decide_eq_false hb))
      · -- the items up to the pivot are all equal to it
        obtain ⟨r, hr, hsorts⟩ := ih (hside (rank pivot < rank ·)) Floors.none
        rw [hproper, pure_bind, splitUpTo_eq hless hpool, pure_bind]
        dsimp only
        rw [hr, pure_bind]
        refine ⟨_, rfl, .of_filter (p := fun a => !decide (rank pivot < rank a))
          (fun a _ b _ ha hb => ?_) (.refl ?_) (by simpa using hsorts)⟩
        · simp only [Bool.not_eq_true', Bool.not_eq_false', decide_eq_false_iff_not, not_lt,
            decide_eq_true_eq] at ha hb
          exact ha.trans_lt hb
        · refine List.pairwise_of_forall_mem_list fun a ha b hb => ?_
          simp only [List.mem_filter, Bool.not_eq_true', decide_eq_false_iff_not, not_lt] at ha hb
          exact ha.2.trans (hleast b hb.1)

theorem settleRun_sorts (hless : Compares less rank pool) (hpool : items ⊆ pool) :
    (settleRun less items).Sorts rank items :=
  partitionSort_sorts hless hpool .none

/-- Items that compare by rank are sorted. -/
theorem stableSort_sorts (hless : Compares less rank items) :
    (stableSort less items).Sorts rank items := by
  unfold stableSort
  split
  · exact insertionSort_sorts hless (List.Subset.refl _)
  next hlarge =>
    exact runSort_sorts hless (settleRun_sorts hless) (by rintro rfl; simp at hlarge)
      (List.Subset.refl _)

end ComponentMarkup.Sorting
