import Mathlib
import ComponentMarkup.Text.Search

/-!
# Pieces and occurrences

Splitting, replacing and counting go over a text alike and take the same occurrences. So the pieces of a
text, joined with anything, are the text with that in place of the separator (`Text.join_split_eq_replace`),
and there is one piece more than there are occurrences (`Text.length_split`).
-/

namespace ComponentMarkup.Text

variable {needle text : List Char}

/-! ## Joining -/

theorem join_cons_cons (separator first second : List Char) (rest : List (List Char)) :
    join separator (first :: second :: rest) = first ++ separator ++ join separator (second :: rest) := by
  simp [join, List.intercalate]

theorem join_singleton (separator line : List Char) : join separator [line] = line := by
  simp [join, List.intercalate]

theorem intercalate_append {α : Type} (separator : List α) (front : List (List α)) {back : List (List α)}
    (h : back ≠ []) : List.intercalate separator (front ++ back) =
      (front.flatMap fun piece => piece ++ separator) ++ List.intercalate separator back := by
  induction front with
  | nil => rfl
  | cons piece rest ih =>
    obtain ⟨next, more, hnext⟩ : ∃ next more, rest ++ back = next :: more :=
      List.exists_cons_of_ne_nil (by simp [h])
    rw [hnext] at ih
    rw [List.cons_append, hnext]
    simp [List.intercalate] at ih ⊢
    exact ih

/-- Two last pieces are joined by the separator between them. -/
theorem join_append_pair (separator a b : List Char) (pieces : List (List Char)) :
    join separator (pieces ++ [a, b]) = join separator (pieces ++ [a ++ separator ++ b]) := by
  rw [join, join, intercalate_append _ _ (List.cons_ne_nil _ _),
    intercalate_append _ _ (List.cons_ne_nil _ _)]
  simp [List.intercalate]

/-! ## Splitting -/

theorem join_splitOnto (first : Char) (more new : List Char) (pieces : List (List Char))
    (piece text : List Char) :
    join new (splitOnto first more pieces piece text) =
      join new (pieces.reverse ++ [piece.reverse ++ replaceEach first more new text]) := by
  fun_induction splitOnto first more pieces piece text with
  | case1 pieces piece => simp [replaceEach]
  | case2 pieces piece c rest hbegins ih =>
    simp only [List.unattach_reverse, List.unattach_attach] at ih
    rw [ih, replaceEach, if_pos hbegins, List.reverse_cons, List.append_assoc, List.reverse_nil,
      List.nil_append, List.singleton_append, join_append_pair, List.append_assoc]
  | case3 pieces piece c rest hbegins ih =>
    rw [ih, replaceEach, if_neg hbegins, List.reverse_cons, List.append_assoc]
    rfl

theorem length_splitOnto (first : Char) (more : List Char) (pieces : List (List Char))
    (piece text : List Char) :
    (splitOnto first more pieces piece text).length = pieces.length + 1 + countEach first more text := by
  fun_induction splitOnto first more pieces piece text with
  | case1 pieces piece => simp [countEach]
  | case2 pieces piece c rest hbegins ih =>
    simp only [List.unattach_reverse, List.unattach_attach, List.length_cons] at ih
    rw [ih, countEach, if_pos hbegins]
    omega
  | case3 pieces piece c rest hbegins ih => rw [ih, countEach, if_neg hbegins]

theorem replaceEach_self (first : Char) (more text : List Char) :
    replaceEach first more (first :: more) text = text := by
  fun_induction replaceEach first more (first :: more) text with
  | case1 => rfl
  | case2 c rest hbegins ih =>
    obtain ⟨after, hafter⟩ := List.isPrefixOf_iff_prefix.mp hbegins
    simp only [List.cons_append, List.cons.injEq] at hafter
    obtain ⟨rfl, rfl⟩ := hafter
    rw [ih, List.drop_left, List.cons_append]
  | case3 c rest _ ih => rw [ih]

theorem join_split_eq_replace (first : Char) (more new text : List Char) :
    join new (split (first :: more) text) = replace (first :: more) new text := by
  rw [split, join_splitOnto, List.reverse_nil, List.reverse_nil, List.nil_append, List.nil_append,
    join_singleton]
  rfl

theorem join_split (first : Char) (more text : List Char) :
    join (first :: more) (split (first :: more) text) = text := by
  rw [join_split_eq_replace]
  exact replaceEach_self first more text

theorem length_split (first : Char) (more text : List Char) :
    (split (first :: more) text).length = count (first :: more) text + 1 := by
  rw [split, length_splitOnto, List.length_nil, Nat.zero_add, Nat.add_comm]
  rfl

/-! ## Finding -/

/-- What is found stands there and nowhere before, and what is not found stands nowhere. -/
theorem findFrom_spec (hneedle : needle ≠ []) (position : Nat) :
    (∀ i, findFrom needle position text = some i → ∃ k, i = position + k ∧ needle <+: text.drop k ∧
      ∀ j < k, ¬needle <+: text.drop j) ∧
    (findFrom needle position text = none → ∀ j, ¬needle <+: text.drop j) := by
  induction text generalizing position with
  | nil =>
    have hnone : findFrom needle position [] = none := by
      rw [findFrom, if_neg (by simpa using hneedle)]
    rw [hnone]
    refine ⟨fun i h => absurd h (Option.some_ne_none i).symm, fun _ j h => ?_⟩
    rw [List.drop_nil] at h
    exact hneedle (List.prefix_nil.mp h)
  | cons c rest ih =>
    rw [findFrom]
    split
    case isTrue hbegins =>
      refine ⟨fun i h => ⟨0, (Option.some.inj h).symm, List.isPrefixOf_iff_prefix.mp hbegins, ?_⟩,
        fun h => absurd h (Option.some_ne_none _)⟩
      exact fun j hj => absurd hj j.not_lt_zero
    case isFalse hbegins =>
      have hhead : ¬needle <+: c :: rest := fun h => hbegins (List.isPrefixOf_iff_prefix.mpr h)
      refine ⟨fun i h => ?_, fun h j => ?_⟩
      · obtain ⟨k, rfl, hk, hbefore⟩ := (ih (position + 1)).1 i h
        refine ⟨k + 1, by omega, hk, fun j hj => ?_⟩
        cases j with
        | zero => exact hhead
        | succ j => exact hbefore j (by omega)
      · cases j with
        | zero => exact hhead
        | succ j => exact (ih (position + 1)).2 h j

end ComponentMarkup.Text
