import Mathlib
import ComponentMarkup.Sorting.Stable

/-!
# Stability of sorting

Items that have ranks in a linear order are sorted in one way only: their ranks ascend, and items of
one rank stand in the order they had. Which rearrangements a sort may make is said by `Keeps`, and
what it has to arrive at by `Sorts`. A list's first item of the least rank is at the head of the
sorted list, and a scan that changes its mind only for a lesser item finds it, too.

One insertion keeps a list sorted (`insertBack_sorts`), so a sort by insertion ends with a sorted
list.
-/

namespace ComponentMarkup.Sorting

variable {ε α τ : Type} [LinearOrder τ] {rank : α → τ}

/-- Both lists have the same items, and those of one rank in the same order. -/
def Keeps (rank : α → τ) (items other : List α) : Prop :=
  ∀ z, other.filter (rank · = z) = items.filter (rank · = z)

namespace Keeps

variable {items other xs ys : List α}

theorem refl (items : List α) : Keeps rank items items :=
  fun _ => rfl

theorem trans {last : List α} (h : Keeps rank items other) (h' : Keeps rank other last) :
    Keeps rank items last :=
  fun z => (h' z).trans (h z)

theorem append (h : Keeps rank items other) (h' : Keeps rank xs ys) :
    Keeps rank (items ++ xs) (other ++ ys) := by
  intro z
  rw [List.filter_append, List.filter_append, h z, h' z]

theorem perm (h : Keeps rank items other) : other.Perm items := by
  classical
  rw [List.perm_iff_count]
  intro a
  have hcount : ∀ l : List α, (l.filter (rank · = rank a)).count a = l.count a :=
    fun l => List.count_filter (by simp)
  rw [← hcount, h, hcount]

theorem subset (h : Keeps rank items other) {pool : List α} (hpool : items ⊆ pool) : other ⊆ pool :=
  fun _ ha => hpool (h.perm.subset ha)

/-- Lists without a common rank may change places. -/
theorem swap (h : ∀ a ∈ xs, ∀ b ∈ ys, rank a ≠ rank b) : Keeps rank (xs ++ ys) (ys ++ xs) := by
  intro z
  rw [List.filter_append, List.filter_append]
  by_cases hz : ∃ a ∈ xs, rank a = z
  · obtain ⟨a, ha, rfl⟩ := hz
    have hys : ys.filter (rank · = rank a) = [] :=
      List.filter_eq_nil_iff.mpr fun b hb => by simpa using (h a ha b hb).symm
    rw [hys, List.nil_append, List.append_nil]
  · have hxs : xs.filter (rank · = z) = [] :=
      List.filter_eq_nil_iff.mpr fun a ha => by simpa using fun haz => hz ⟨a, ha, haz⟩
    rw [hxs, List.nil_append, List.append_nil]

theorem reverse (h : items.Pairwise fun a b => rank a ≠ rank b) : Keeps rank items items.reverse := by
  induction items with
  | nil => exact .refl []
  | cons a items ih =>
    obtain ⟨ha, hitems⟩ := List.pairwise_cons.mp h
    have hswap : Keeps rank ([a] ++ items) (items ++ [a]) := swap (by simpa using ha)
    rw [List.reverse_cons]
    exact hswap.trans ((ih hitems).append (.refl [a]))

end Keeps

/-- The ranks of a list ascend. -/
abbrev Ascending (rank : α → τ) (items : List α) : Prop :=
  items.Pairwise fun a b => rank a ≤ rank b

/-- The second list has the items of the first one by rank, and those of one rank in their order. -/
structure Sorts (rank : α → τ) (items sorted : List α) : Prop where
  keeps : Keeps rank items sorted
  ascending : Ascending rank sorted

namespace Sorts

variable {items sorted xs ys s t : List α}

theorem refl (h : Ascending rank items) : Sorts rank items items :=
  ⟨.refl _, h⟩

theorem mem_iff (h : Sorts rank items sorted) {a : α} : a ∈ sorted ↔ a ∈ items :=
  h.keeps.perm.mem_iff

theorem of_keeps (h : Sorts rank ys sorted) (hkeeps : Keeps rank xs ys) : Sorts rank xs sorted :=
  ⟨hkeeps.trans h.keeps, h.ascending⟩

theorem append (h : Sorts rank xs s) (h' : Sorts rank ys t)
    (hle : ∀ a ∈ xs, ∀ b ∈ ys, rank a ≤ rank b) : Sorts rank (xs ++ ys) (s ++ t) := by
  refine ⟨h.keeps.append h'.keeps, List.pairwise_append.mpr ⟨h.ascending, h'.ascending, ?_⟩⟩
  exact fun a ha b hb => hle a (h.mem_iff.mp ha) b (h'.mem_iff.mp hb)

/-- The items backwards are sorted backwards by the dual ranks. -/
theorem dual (h : Sorts rank items sorted) :
    Sorts (OrderDual.toDual ∘ rank) items.reverse sorted.reverse := by
  refine ⟨fun z => ?_, List.pairwise_reverse.mpr h.ascending⟩
  rw [List.filter_reverse, List.filter_reverse]
  exact congrArg List.reverse (h.keeps (OrderDual.ofDual z))

end Sorts

/-! ## The first item of the least rank -/

/-- No item has a lesser rank, and none before it the same. -/
structure IsFirstLeast (rank : α → τ) (items : List α) (v : α) : Prop where
  least : ∀ a ∈ items, rank v ≤ rank a
  first : items.find? (rank · = rank v) = some v

namespace IsFirstLeast

variable {items : List α} {v : α}

theorem mem (h : IsFirstLeast rank items v) : v ∈ items :=
  List.mem_of_find?_eq_some h.first

theorem unique {w : α} (hv : IsFirstLeast rank items v) (hw : IsFirstLeast rank items w) :
    v = w := by
  have hrank : rank v = rank w := le_antisymm (hv.least w hw.mem) (hw.least v hv.mem)
  have hfirst := hv.first
  rw [hrank, hw.first] at hfirst
  exact (Option.some.inj hfirst).symm

/-- One step of a scan. -/
theorem step (h : IsFirstLeast rank items v) (item : α) :
    IsFirstLeast rank (items ++ [item]) (if rank item < rank v then item else v) := by
  split
  case isTrue hless =>
    have hitems : ∀ a ∈ items, rank item < rank a := fun a ha => hless.trans_le (h.least a ha)
    refine ⟨fun a ha => ?_, ?_⟩
    · rcases List.mem_append.mp ha with ha | ha
      · exact (hitems a ha).le
      · rw [List.mem_singleton.mp ha]
    · have hnone : items.find? (rank · = rank item) = none :=
        List.find?_eq_none.mpr fun a ha => by simpa using (hitems a ha).ne'
      simp [List.find?_append, hnone]
  case isFalse hless =>
    refine ⟨fun a ha => ?_, ?_⟩
    · rcases List.mem_append.mp ha with ha | ha
      · exact h.least a ha
      · rw [List.mem_singleton.mp ha]
        exact not_lt.mp hless
    · simp [List.find?_append, h.first]

end IsFirstLeast

/-- It is at the head of the sorted list. -/
theorem Sorts.isFirstLeast_head {items rest : List α} {v : α} (h : Sorts rank items (v :: rest)) :
    IsFirstLeast rank items v := by
  refine ⟨fun a ha => ?_, ?_⟩
  · rcases List.mem_cons.mp (h.mem_iff.mpr ha) with rfl | ha
    · exact le_rfl
    · exact (List.pairwise_cons.mp h.ascending).1 a ha
  · rw [← List.head?_filter, ← h.keeps]
    simp

/-! ## Insertion -/

/-- The comparison answers by rank for the items of a pool. -/
def Compares (less : Less ε α) (rank : α → τ) (pool : List α) : Prop :=
  ∀ a ∈ pool, ∀ b ∈ pool, less a b = pure (decide (rank a < rank b))

/-- The sort comes to its end without a failure and has sorted the items. -/
def Sorter.Sorts (s : Sorter ε (List α)) (rank : α → τ) (items : List α) : Prop :=
  ∃ sorted, s = pure sorted ∧ Sorting.Sorts rank items sorted

variable {less : Less ε α} {pool : List α}

theorem insertBack_sorts (hless : Compares less rank pool) {item : α} (hitem : item ∈ pool)
    {l : List α} (hl : l ⊆ pool) (hascending : Ascending rank l.reverse) :
    ∃ r, insertBack less item l = pure r ∧ Sorts rank (l.reverse ++ [item]) r.reverse := by
  induction l with
  | nil => exact ⟨[item], rfl, .refl (List.pairwise_singleton _ _)⟩
  | cons last rest ih =>
    obtain ⟨hlast, hrest⟩ := List.cons_subset.mp hl
    rw [List.reverse_cons] at hascending
    obtain ⟨hrestAscending, -, hle⟩ := List.pairwise_append.mp hascending
    rw [insertBack, hless item hitem last hlast, pure_bind]
    by_cases hlt : rank item < rank last
    · obtain ⟨r, hr, hsorts⟩ := ih hrest hrestAscending
      refine ⟨last :: r, by simp [hlt, hr], ?_⟩
      have hswap : Keeps rank ([last] ++ [item]) ([item] ++ [last]) := .swap (by simpa using hlt.ne')
      rw [List.reverse_cons, List.reverse_cons, List.append_assoc]
      refine Sorts.of_keeps ?_ (Keeps.append (.refl _) hswap)
      rw [← List.append_assoc]
      refine hsorts.append (.refl (List.pairwise_singleton _ _)) fun a ha b hb => ?_
      obtain rfl := List.mem_singleton.mp hb
      obtain ha | ha := List.mem_append.mp ha
      · exact hle a ha b hb
      · exact List.mem_singleton.mp ha ▸ hlt.le
    · refine ⟨item :: last :: rest, by simp [hlt], ?_⟩
      rw [List.reverse_cons (a := item), List.reverse_cons]
      refine (Sorts.refl hascending).append (.refl (List.pairwise_singleton _ _)) fun a ha b hb => ?_
      rw [List.mem_singleton.mp hb]
      refine le_trans ?_ (not_lt.mp hlt)
      obtain ha | ha := List.mem_append.mp ha
      · exact hle a ha last (List.mem_singleton_self last)
      · exact List.mem_singleton.mp ha ▸ le_rfl

theorem insertAll_sorts (hless : Compares less rank pool) {sorted items : List α}
    (hsorted : Ascending rank sorted) (hpool : sorted ++ items ⊆ pool) :
    (insertAll less sorted items).Sorts rank (sorted ++ items) := by
  have hfold : ∃ r, items.foldlM (fun l item => insertBack less item l) sorted.reverse = pure r ∧
      Sorts rank (sorted ++ items) r.reverse := by
    induction items generalizing sorted with
    | nil => exact ⟨sorted.reverse, rfl, by simpa using Sorts.refl hsorted⟩
    | cons item items ih =>
      rw [List.append_cons] at hpool ⊢
      obtain ⟨hl, hitem⟩ := List.append_subset.mp (List.append_subset.mp hpool).1
      obtain ⟨m, hm, hsorts⟩ := insertBack_sorts hless (hitem (List.mem_singleton_self item))
        (l := sorted.reverse) (by simpa using hl) (by simpa using hsorted)
      rw [List.reverse_reverse] at hsorts
      have hkeeps := hsorts.keeps.append (.refl items)
      obtain ⟨r, hr, hsorts'⟩ := ih hsorts.ascending (hkeeps.subset hpool)
      rw [List.reverse_reverse] at hr
      exact ⟨r, by rw [List.foldlM_cons, hm, pure_bind, hr], hsorts'.of_keeps hkeeps⟩
  obtain ⟨r, hr, hsorts⟩ := hfold
  exact ⟨r.reverse, by rw [insertAll, hr, pure_bind], hsorts⟩

theorem insertionSort_sorts (hless : Compares less rank pool) {items : List α} (hpool : items ⊆ pool) :
    (insertionSort less items).Sorts rank items :=
  insertAll_sorts hless .nil hpool

end ComponentMarkup.Sorting
