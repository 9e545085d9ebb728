import ComponentMarkup.Proofs.Sorting.Stability

/-!
# Stability of merging

At every moment of a merge both lists are cut: what is merged already is on the near side of the
cuts, what is left on the far side. A `Cut` says which items on either side may be equal, so that the
merged items are sorted and the rest may follow them. One step keeps this (`Merging.step_spec`). Two
ends that have merged as many items as there are stand at the same cut (`Cut.extends_of_le`), so a
merge from both ends does not give up.
-/

namespace ComponentMarkup.Sorting

variable {ε α τ : Type} [LinearOrder τ] {rank : α → τ} {less : Less ε α} {pool : List α}

/-- Two sorted lists are cut so that a merge puts what is before the cuts first. -/
structure Cut (rank : α → τ) (left left' right right' : List α) : Prop where
  left_ascending : Ascending rank (left ++ left')
  right_ascending : Ascending rank (right ++ right')
  left_le : ∀ a ∈ left, ∀ b ∈ right', rank a ≤ rank b
  right_lt : ∀ b ∈ right, ∀ a ∈ left', rank b < rank a

namespace Cut

variable {left left' right right' : List α}

theorem start (hleft : Ascending rank left) (hright : Ascending rank right) :
    Cut rank [] left [] right :=
  ⟨hleft, hright, List.forall_mem_nil _, List.forall_mem_nil _⟩

/-- What is sorted on both sides of the cuts is sorted as a whole. -/
theorem sorts (h : Cut rank left left' right right') {s t : List α} (hs : Sorts rank (left ++ right) s)
    (ht : Sorts rank (left' ++ right') t) :
    Sorts rank ((left ++ left') ++ (right ++ right')) (s ++ t) := by
  have hswap : Keeps rank (left' ++ right) (right ++ left') :=
    .swap fun a ha b hb => (h.right_lt b hb a ha).ne'
  have hkeeps :
      Keeps rank (left ++ ((left' ++ right) ++ right')) (left ++ ((right ++ left') ++ right')) :=
    .append (.refl left) (hswap.append (.refl right'))
  refine Sorts.of_keeps (hs.append ht fun a ha b hb => ?_) (by simpa using hkeeps)
  obtain ha | ha := List.mem_append.mp ha <;> obtain hb | hb := List.mem_append.mp hb
  · exact (List.pairwise_append.mp h.left_ascending).2.2 a ha b hb
  · exact h.left_le a ha b hb
  · exact (h.right_lt a ha b hb).le
  · exact (List.pairwise_append.mp h.right_ascending).2.2 a ha b hb

theorem sublist (h : Cut rank left left' right right') {l l' r r' : List α} (hl : l.Sublist left)
    (hl' : l'.Sublist left') (hr : r.Sublist right) (hr' : r'.Sublist right') : Cut rank l l' r r' :=
  ⟨h.left_ascending.sublist (hl.append hl'), h.right_ascending.sublist (hr.append hr'),
    fun a ha b hb => h.left_le a (hl.subset ha) b (hr'.subset hb),
    fun b hb a ha => h.right_lt b (hr.subset hb) a (hl'.subset ha)⟩

/-- A cut as it looks from the other end. -/
theorem dual (h : Cut rank left left' right right') :
    Cut (OrderDual.toDual ∘ rank) right'.reverse right.reverse left'.reverse left.reverse := by
  refine ⟨?_, ?_, fun a ha b hb => ?_, fun b hb a ha => ?_⟩
  · rw [← List.reverse_append]
    exact List.pairwise_reverse.mpr h.right_ascending
  · rw [← List.reverse_append]
    exact List.pairwise_reverse.mpr h.left_ascending
  · exact h.left_le b (List.mem_reverse.mp hb) a (List.mem_reverse.mp ha)
  · exact h.right_lt a (List.mem_reverse.mp ha) b (List.mem_reverse.mp hb)

/-- Of two cuts, the one that is further along has more on both sides. -/
theorem extends_of_le (h : Cut rank left left' right right') {l l' r r' : List α}
    (h' : Cut rank l l' r r') (hl : left ++ left' = l ++ l') (hr : right ++ right' = r ++ r')
    (hle : left.length + right.length ≤ l.length + r.length) :
    ∃ x y, l = left ++ x ∧ r = right ++ y := by
  obtain ⟨x, rfl, rfl⟩ | ⟨x, rfl, rfl⟩ := List.append_eq_append_iff.mp hl <;>
    obtain ⟨y, rfl, rfl⟩ | ⟨y, rfl, rfl⟩ := List.append_eq_append_iff.mp hr
  · exact ⟨x, y, rfl, rfl⟩
  · cases y with
    | nil => exact ⟨x, [], rfl, by simp⟩
    | cons b y =>
      obtain ⟨a, x, rfl⟩ := List.exists_cons_of_ne_nil (l := x) (by rintro rfl; simp at hle)
      exact absurd (h.right_lt b (by simp) a (by simp)) (h'.left_le a (by simp) b (by simp)).not_gt
  · cases x with
    | nil => exact ⟨[], y, by simp, rfl⟩
    | cons a x =>
      obtain ⟨b, y, rfl⟩ := List.exists_cons_of_ne_nil (l := y) (by rintro rfl; simp at hle)
      exact absurd (h'.right_lt b (by simp) a (by simp)) (h.left_le a (by simp) b (by simp)).not_gt
  · simp only [List.length_append] at hle
    obtain rfl : x = [] := List.eq_nil_of_length_eq_zero (by omega)
    obtain rfl : y = [] := List.eq_nil_of_length_eq_zero (by omega)
    exact ⟨[], [], by simp, by simp⟩

variable {x y : α}

/-- The cut behind an item on the left that no item on the right is less than. -/
theorem takeLeft (h : Cut rank left (x :: left') right (y :: right')) (hyx : ¬ rank y < rank x) :
    Cut rank (left ++ [x]) left' right (y :: right') := by
  obtain ⟨hy, -⟩ := List.pairwise_cons.mp (List.pairwise_append.mp h.right_ascending).2.1
  refine ⟨by simpa using h.left_ascending, h.right_ascending, fun a ha b hb => ?_,
    fun b hb a ha => h.right_lt b hb a (.tail x ha)⟩
  obtain ha | ha := List.mem_append.mp ha
  · exact h.left_le a ha b hb
  · rw [List.mem_singleton.mp ha]
    obtain rfl | hb := List.mem_cons.mp hb
    · exact not_lt.mp hyx
    · exact (not_lt.mp hyx).trans (hy b hb)

/-- The cut behind an item on the right that is less than all items on the left. -/
theorem takeRight (h : Cut rank left (x :: left') right (y :: right')) (hyx : rank y < rank x) :
    Cut rank left (x :: left') (right ++ [y]) right' := by
  obtain ⟨hx, -⟩ := List.pairwise_cons.mp (List.pairwise_append.mp h.left_ascending).2.1
  refine ⟨h.left_ascending, by simpa using h.right_ascending,
    fun a ha b hb => h.left_le a ha b (.tail y hb), fun b hb a ha => ?_⟩
  obtain hb | hb := List.mem_append.mp hb
  · exact h.right_lt b hb a ha
  · rw [List.mem_singleton.mp hb]
    obtain rfl | ha := List.mem_cons.mp ha
    · exact hyx
    · exact hyx.trans_le (hx a ha)

end Cut

/-! ## From one end -/

theorem Compares.dual (hless : Compares less rank pool) :
    Compares (fun a b => less b a) (OrderDual.toDual ∘ rank) pool :=
  fun a ha b hb => hless b hb a ha

variable {left right : List α}

/-- A merge of two lists has come to a cut. -/
def Merging.At (rank : α → τ) (left right : List α) (m : Merging α) : Prop :=
  ∃ l r, left = l ++ m.left ∧ right = r ++ m.right ∧ Cut rank l m.left r m.right ∧
    Sorts rank (l ++ r) m.merged.reverse

namespace Merging

theorem at_start (hleft : Ascending rank left) (hright : Ascending rank right) :
    Merging.At rank left right { left, right } :=
  ⟨[], [], rfl, rfl, .start hleft hright, .refl .nil⟩

variable {m : Merging α}

theorem At.length_eq (h : m.At rank left right) :
    m.merged.length + m.left.length + m.right.length = left.length + right.length := by
  obtain ⟨l, r, rfl, rfl, -, hsorts⟩ := h
  have hlength := hsorts.keeps.perm.length_eq
  simp only [List.length_reverse, List.length_append] at hlength ⊢
  omega

theorem At.ne_nil (h : m.At rank left right) (hl : m.merged.length < left.length)
    (hr : m.merged.length < right.length) : ¬ (m.left = [] ∨ m.right = []) := by
  obtain ⟨l, r, rfl, rfl, -, hsorts⟩ := h
  have hlength := hsorts.keeps.perm.length_eq
  simp only [List.length_reverse, List.length_append] at hlength hl hr
  rintro (h | h)
  · rw [h, List.length_nil] at hl
    omega
  · rw [h, List.length_nil] at hr
    omega

theorem step_spec (hless : Compares less rank pool) (hpool : left ++ right ⊆ pool)
    (h : m.At rank left right) :
    ∃ m', m.step less = pure m' ∧ m'.At rank left right ∧
      (m'.merged.length = m.merged.length + 1 ∨ m' = m ∧ (m.left = [] ∨ m.right = [])) := by
  obtain ⟨sl, sr, merged⟩ := m
  obtain ⟨l, r, rfl, rfl, hcut, hsorts⟩ := h
  obtain ⟨hl, hr⟩ := List.append_subset.mp hpool
  dsimp only at *
  rcases sl with _ | ⟨x, sl⟩
  · exact ⟨_, rfl, ⟨l, r, rfl, rfl, hcut, hsorts⟩, .inr ⟨rfl, .inl rfl⟩⟩
  rcases sr with _ | ⟨y, sr⟩
  · exact ⟨_, rfl, ⟨l, r, rfl, rfl, hcut, hsorts⟩, .inr ⟨rfl, .inr rfl⟩⟩
  simp only [step]
  rw [hless y (hr (by simp)) x (hl (by simp)), pure_bind]
  by_cases hyx : rank y < rank x
  · have hnext := (hcut.sublist (.refl l) (List.nil_sublist _) (.refl r)
      (List.cons_sublist_cons.mpr (List.nil_sublist sr))).sorts hsorts
      (.refl (List.pairwise_singleton _ _))
    exact ⟨⟨x :: sl, sr, y :: merged⟩, by simp [hyx],
      ⟨l, r ++ [y], rfl, by simp, hcut.takeRight hyx, by simpa using hnext⟩, .inl rfl⟩
  · have hnext := (hcut.sublist (.refl l) (List.cons_sublist_cons.mpr (List.nil_sublist sl))
      (.refl r) (List.nil_sublist _)).sorts hsorts (.refl (List.pairwise_singleton _ _))
    exact ⟨⟨sl, y :: sr, x :: merged⟩, by simp [hyx],
      ⟨l ++ [x], r, by simp, rfl, hcut.takeLeft hyx, by simpa using hnext⟩, .inl rfl⟩

theorem steps_spec (hless : Compares less rank pool) (hpool : left ++ right ⊆ pool) {n : Nat}
    (hn : m.left.length + m.right.length ≤ n) (h : m.At rank left right) :
    ∃ m', steps less n m = pure m' ∧ m'.At rank left right ∧ (m'.left = [] ∨ m'.right = []) := by
  induction n generalizing m with
  | zero => exact ⟨m, rfl, h, .inl (List.eq_nil_of_length_eq_zero (by omega))⟩
  | succ n ih =>
    obtain ⟨m₁, hstep, h₁, hmore | ⟨rfl, hend⟩⟩ := step_spec hless hpool h
    · have hlength := h.length_eq
      have hlength₁ := h₁.length_eq
      obtain ⟨m', hsteps, h'⟩ := ih (by omega) h₁
      exact ⟨m', by rw [steps, hstep, pure_bind, hsteps], h'⟩
    · refine ⟨m₁, ?_, h, hend⟩
      clear ih hn
      induction n with
      | zero => rw [steps, hstep, pure_bind]; rfl
      | succ n ih => rwa [steps, hstep, pure_bind]

end Merging

theorem mergeFront_sorts (hless : Compares less rank pool) (hpool : left ++ right ⊆ pool)
    (hleft : Ascending rank left) (hright : Ascending rank right) :
    (mergeFront less left right).Sorts rank (left ++ right) := by
  obtain ⟨m, hsteps, ⟨l, r, rfl, rfl, hcut, hsorts⟩, hend⟩ :=
    Merging.steps_spec hless hpool (Nat.le_refl _) (Merging.at_start hleft hright)
  refine ⟨_, by rw [mergeFront, hsteps, pure_bind], hcut.sorts hsorts (.refl ?_)⟩
  obtain hend | hend := hend <;> rw [hend]
  · exact (List.pairwise_append.mp hright).2.1
  · rw [List.append_nil]
    exact (List.pairwise_append.mp hleft).2.1

theorem merge_sorts (hless : Compares less rank pool) (hpool : left ++ right ⊆ pool)
    (hleft : Ascending rank left) (hright : Ascending rank right) :
    (merge less left right).Sorts rank (left ++ right) := by
  unfold merge
  split
  · exact mergeFront_sorts hless hpool hleft hright
  · have hpool' : right.reverse ++ left.reverse ⊆ pool := by
      rw [← List.reverse_append]
      exact fun a ha => hpool (List.mem_reverse.mp ha)
    obtain ⟨r, hr, hsorts⟩ := mergeFront_sorts hless.dual hpool'
      (List.pairwise_reverse.mpr hright) (List.pairwise_reverse.mpr hleft)
    have hsorts := hsorts.dual
    rw [← List.reverse_append, List.reverse_reverse] at hsorts
    exact ⟨r.reverse, by rw [hr, pure_bind], hsorts⟩

/-! ## From both ends -/

theorem mergeEnds_spec (hless : Compares less rank pool) (hpool : left ++ right ⊆ pool)
    (hle : left.length ≤ right.length) {front back : Merging α} {n : Nat}
    (hn : front.merged.length + n = left.length) (heq : back.merged.length = front.merged.length)
    (hfront : front.At rank left right)
    (hback : back.At (OrderDual.toDual ∘ rank) right.reverse left.reverse) :
    ∃ front' back', mergeEnds less n front back = pure (front', back') ∧
      (front'.At rank left right ∧ front'.merged.length = left.length) ∧
      back'.At (OrderDual.toDual ∘ rank) right.reverse left.reverse ∧
      back'.merged.length = left.length := by
  have hpool' : right.reverse ++ left.reverse ⊆ pool := by
    rw [← List.reverse_append]
    exact fun a ha => hpool (List.mem_reverse.mp ha)
  induction n generalizing front back with
  | zero => exact ⟨front, back, rfl, ⟨hfront, hn⟩, hback, by omega⟩
  | succ n ih =>
    obtain ⟨front₁, hstep, hfront₁, hmore⟩ := Merging.step_spec hless hpool hfront
    obtain ⟨back₁, hstep', hback₁, hmore'⟩ := Merging.step_spec hless.dual hpool' hback
    have hmore := hmore.resolve_right fun h => hfront.ne_nil (by omega) (by omega) h.2
    have hmore' := hmore'.resolve_right fun h => hback.ne_nil (by simp; omega) (by simp; omega) h.2
    obtain ⟨front', back', hends, hspec⟩ := ih (by omega) (by omega) hfront₁ hback₁
    exact ⟨front', back', by rw [mergeEnds, hstep, pure_bind, hstep', pure_bind, hends], hspec⟩

/-- When both ends have merged as many items as the list on the left has, at most one item is left
between them. -/
theorem Merging.At.exists_middle {front back : Merging α} (hfront : front.At rank left right)
    (hback : back.At (OrderDual.toDual ∘ rank) right.reverse left.reverse)
    (hlen : front.merged.length = left.length) (hlen' : back.merged.length = left.length)
    (hle : left.length ≤ right.length) (hle' : right.length ≤ left.length + 1) :
    ∃ x y l r, front.left = x ++ l ∧ front.right = y ++ r ∧
      back.right.length + l.length = left.length ∧ back.left.length + r.length = right.length ∧
      x.length + y.length + left.length = right.length ∧
      Sorts rank (left ++ right) (front.merged.reverse ++ (x ++ y) ++ back.merged) := by
  have hfrontLength := hfront.length_eq
  have hbackLength := hback.length_eq
  rw [List.length_reverse, List.length_reverse] at hbackLength
  obtain ⟨l, r, hl, hr, hcut, hsorts⟩ := hfront
  obtain ⟨r', l', hr', hl', hcut', hsorts'⟩ := hback
  -- the back as it looks from the front
  have hcut' : Cut rank back.right.reverse l'.reverse back.left.reverse r'.reverse := hcut'.dual
  have hsorts' : Sorts rank (r' ++ l').reverse back.merged.reverse.reverse := hsorts'.dual
  rw [List.reverse_append, List.reverse_reverse] at hsorts'
  have hl' : left = back.right.reverse ++ l'.reverse := by
    rw [← List.reverse_append, ← hl', List.reverse_reverse]
  have hr' : right = back.left.reverse ++ r'.reverse := by
    rw [← List.reverse_append, ← hr', List.reverse_reverse]
  have hlength := hsorts.keeps.perm.length_eq
  rw [List.length_reverse, List.length_append] at hlength
  have hlengths : left.length = back.right.length + l'.length ∧
      right.length = back.left.length + r'.length :=
    ⟨by rw [hl']; simp, by rw [hr']; simp⟩
  obtain ⟨x, y, hx, hy⟩ := hcut.extends_of_le hcut' (hl.symm.trans hl') (hr.symm.trans hr')
    (by simp only [List.length_reverse]; omega)
  rw [hx, List.append_assoc] at hl'
  rw [hy, List.append_assoc] at hr'
  have hleft := List.append_cancel_left (hl.symm.trans hl')
  have hright := List.append_cancel_left (hr.symm.trans hr')
  have hx' := congrArg List.length hx
  have hy' := congrArg List.length hy
  simp only [List.length_reverse, List.length_append] at hx' hy'
  refine ⟨x, y, l'.reverse, r'.reverse, hleft, hright, by simp; omega, by simp; omega, by omega, ?_⟩
  rw [hx, hy] at hcut'
  rw [hleft, hright] at hcut
  have hmiddle : Ascending rank (x ++ y) := by
    rcases hxy : x ++ y with _ | ⟨a, z⟩
    · exact .nil
    · have hlength := congrArg List.length hxy
      rw [List.length_append, List.length_cons] at hlength
      obtain rfl : z = [] := List.eq_nil_of_length_eq_zero (by omega)
      exact List.pairwise_singleton _ _
  have hnear := (hcut.sublist (.refl l) (List.sublist_append_left x _) (.refl r)
    (List.sublist_append_left y _)).sorts hsorts (.refl hmiddle)
  simpa [hl', hr'] using hcut'.sorts hnear hsorts'

theorem mergeInward_sorts (hless : Compares less rank pool) (hpool : left ++ right ⊆ pool)
    (hleft : Ascending rank left) (hright : Ascending rank right)
    (hle : left.length ≤ right.length) (hle' : right.length ≤ left.length + 1) :
    (mergeInward less left right).Sorts rank (left ++ right) := by
  have hstart := Merging.at_start hleft hright
  have hstart' : Merging.At (OrderDual.toDual ∘ rank) right.reverse left.reverse _ :=
    Merging.at_start (List.pairwise_reverse.mpr hright) (List.pairwise_reverse.mpr hleft)
  obtain ⟨⟨sl, sr, front⟩, ⟨srb, slb, back⟩, hends, ⟨hfront, hlen⟩, hback, hlen'⟩ :=
    mergeEnds_spec hless hpool hle (Nat.zero_add _) (by rfl) hstart hstart'
  obtain ⟨x, y, l, r, rfl, rfl, hl, hr, hmiddle, hsorts⟩ :=
    hfront.exists_middle hback hlen hlen' hle hle'
  dsimp only at *
  refine ⟨_, ?_, hsorts⟩
  simp only [mergeInward, hends, pure_bind, Merging.take, List.length_append]
  rcases x with _ | ⟨a, x⟩
  · rcases y with _ | ⟨b, y⟩
    · have heq : left.length = right.length := by simpa using hmiddle
      simp only [if_pos heq, List.nil_append, List.append_nil]
      rw [if_pos (by omega)]
    · rw [List.length_cons, List.length_nil] at hmiddle
      obtain rfl : y = [] := List.eq_nil_of_length_eq_zero (by omega)
      have hne : left.length ≠ right.length := by omega
      have hfrom : decide (left.length < ([] : List α).length + l.length + slb.length) = false := by
        rw [decide_eq_false_iff_not, List.length_nil]
        omega
      simp only [if_neg hne, hfrom, if_neg Bool.false_ne_true]
      rw [if_pos (by simp; omega)]
      simp
  · rw [List.length_cons] at hmiddle
    obtain rfl : x = [] := List.eq_nil_of_length_eq_zero (by omega)
    obtain rfl : y = [] := List.eq_nil_of_length_eq_zero (by omega)
    have hne : left.length ≠ right.length := by omega
    have hfrom : decide (left.length < [a].length + l.length + slb.length) = true := by
      rw [decide_eq_true_eq, List.length_singleton]
      omega
    simp only [if_neg hne, hfrom, if_true]
    rw [if_pos (by simp; omega)]
    simp

end ComponentMarkup.Sorting
