import ComponentMarkup.Proofs.Sorting.Merging

/-!
# Stability of sorting by runs

A block is sorted, for both of its halves are. A run has the items it was cut from, in order if it is
marked so, and two runs that are joined have the items of both. So what is left when all runs are
joined has the items of the whole list (`joinAll_spec`).
-/

namespace ComponentMarkup.Sorting

variable {ε α τ : Type} [LinearOrder τ] {rank : α → τ} {less : Less ε α} {pool items : List α}

/-! ## Blocks -/

section

variable {a b c d : α}

theorem joinPairs_sorts (hless : Compares less rank pool) (hpool : [a, b, c, d] ⊆ pool)
    (hab : rank a ≤ rank b) (hcd : rank c ≤ rank d) :
    (joinPairs less a b c d).Sorts rank [a, b, c, d] := by
  obtain ⟨ha, hb, hc, hd⟩ : a ∈ pool ∧ b ∈ pool ∧ c ∈ pool ∧ d ∈ pool := by simpa using hpool
  -- the last comparison, once the least and the greatest item are known
  have hmiddle : ∀ {l x y g : α}, x ∈ pool → y ∈ pool → Keeps rank [a, b, c, d] [l, x, y, g] →
      (rank l ≤ rank x ∧ rank l ≤ rank y) ∧ rank x ≤ rank g ∧ rank y ≤ rank g →
      Sorter.Sorts (do if ← less y x then return [l, y, x, g] else return [l, x, y, g]) rank
        [a, b, c, d] := by
    intro l x y g hx hy hkeeps ⟨⟨hlx, hly⟩, hxg, hyg⟩
    rw [hless y hy x hx, pure_bind]
    by_cases hyx : rank y < rank x
    · refine ⟨[l, y, x, g], by simp [hyx], hkeeps.trans fun z => by grind, ?_⟩
      simpa [hlx, hly, hxg, hyg, hyx.le] using hlx.trans hxg
    · refine ⟨[l, x, y, g], by simp [hyx], hkeeps, ?_⟩
      simpa [hlx, hly, hxg, hyg, not_lt.mp hyx] using hlx.trans hxg
  unfold joinPairs
  rw [hless c hc a ha, pure_bind, hless d hd b hb, pure_bind]
  by_cases hca : rank c < rank a <;> by_cases hdb : rank d < rank b
  · simpa [hca, hdb] using hmiddle (l := c) (g := b) ha hd (fun z => by grind) (by grind)
  · simpa [hca, hdb] using hmiddle (l := c) (g := d) ha hb (fun z => by grind) (by grind)
  · simpa [hca, hdb] using hmiddle (l := a) (g := b) hc hd (fun z => by grind) (by grind)
  · simpa [hca, hdb] using hmiddle (l := a) (g := d) hb hc (.refl _) (by grind)

theorem sortFour_sorts (hless : Compares less rank pool) (hpool : [a, b, c, d] ⊆ pool) :
    (sortFour less a b c d).Sorts rank [a, b, c, d] := by
  obtain ⟨ha, hb, hc, hd⟩ : a ∈ pool ∧ b ∈ pool ∧ c ∈ pool ∧ d ∈ pool := by simpa using hpool
  have hpair : ∀ x y : α, ∃ u v, (if rank y < rank x then (y, x) else (x, y)) = (u, v) ∧
      rank u ≤ rank v ∧ Keeps rank [x, y] [u, v] := by
    intro x y
    by_cases hyx : rank y < rank x
    · have hswap : Keeps rank ([x] ++ [y]) ([y] ++ [x]) := .swap (by simpa using hyx.ne')
      exact ⟨y, x, if_pos hyx, hyx.le, hswap⟩
    · exact ⟨x, y, if_neg hyx, not_lt.mp hyx, .refl _⟩
  obtain ⟨a', b', hfirst, hab, hkeeps⟩ := hpair a b
  obtain ⟨c', d', hsecond, hcd, hkeeps'⟩ := hpair c d
  have hboth : Keeps rank [a, b, c, d] [a', b', c', d'] := hkeeps.append hkeeps'
  obtain ⟨r, hr, hsorts⟩ := joinPairs_sorts hless (hboth.subset hpool) hab hcd
  refine ⟨r, ?_, hsorts.of_keeps hboth⟩
  unfold sortFour
  rw [hless b hb a ha, pure_bind, hless d hd c hc, pure_bind]
  simp only [decide_eq_true_eq, hfirst, hsecond, hr]

end

theorem sortStart_sorts (hless : Compares less rank pool) (hpool : items ⊆ pool) :
    ∃ start rest, sortStart less items = pure (start, rest) ∧ Ascending rank start ∧
      Keeps rank items (start ++ rest) := by
  unfold sortStart
  split
  next a b c d rest =>
    have hfour : [a, b, c, d] ⊆ pool := fun x hx => hpool (List.mem_append_left rest hx)
    obtain ⟨r, hr, hsorts⟩ := sortFour_sorts hless hfour
    exact ⟨r, rest, by rw [hr, pure_bind], hsorts.ascending, hsorts.keeps.append (.refl rest)⟩
  next => exact ⟨[], items, rfl, .nil, .refl _⟩

theorem sortBlock_sorts (hless : Compares less rank pool) (hpool : items ⊆ pool) :
    (sortBlock less items).Sorts rank items := by
  unfold sortBlock
  have hsplit := List.take_append_drop (items.length / 2) items
  have hlen : (items.take (items.length / 2)).length = items.length / 2 := by
    rw [List.length_take]
    omega
  have hlen' := List.length_drop (i := items.length / 2) (l := items)
  rw [List.splitAt_eq]
  generalize items.take (items.length / 2) = left at hsplit hlen ⊢
  generalize items.drop (items.length / 2) = right at hsplit hlen' ⊢
  rw [← hsplit] at hpool
  obtain ⟨hl, hr⟩ := List.append_subset.mp hpool
  -- the halves are sorted in one way or another
  have hmerge : ∀ {s t : List α}, Sorts rank left s → Sorts rank right t →
      (mergeInward less s t).Sorts rank items := by
    intro s t hs ht
    have hslen := hs.keeps.perm.length_eq
    have htlen := ht.keeps.perm.length_eq
    have hkeeps := hs.keeps.append ht.keeps
    obtain ⟨r, hr, hsorts⟩ := mergeInward_sorts hless (hkeeps.subset hpool) hs.ascending ht.ascending
      (by omega) (by omega)
    exact ⟨r, hr, hsorts.of_keeps (hsplit ▸ hkeeps)⟩
  dsimp only
  split
  · obtain ⟨start, rest, hstart, hascending, hkeeps⟩ := sortStart_sorts hless hl
    obtain ⟨start', rest', hstart', hascending', hkeeps'⟩ := sortStart_sorts hless hr
    obtain ⟨s, hs, hsorts⟩ := insertAll_sorts hless hascending (hkeeps.subset hl)
    obtain ⟨t, ht, hsorts'⟩ := insertAll_sorts hless hascending' (hkeeps'.subset hr)
    rw [hstart, pure_bind, hstart', pure_bind]
    dsimp only
    rw [hs, pure_bind, ht, pure_bind]
    exact hmerge (hsorts.of_keeps hkeeps) (hsorts'.of_keeps hkeeps')
  · obtain ⟨s, hs, hsorts⟩ := insertionSort_sorts hless hl
    obtain ⟨t, ht, hsorts'⟩ := insertionSort_sorts hless hr
    rw [hs, pure_bind, ht, pure_bind]
    exact hmerge hsorts hsorts'

/-! ## Cutting -/

/-- How neighbours compare in a stretch that is kept with its last item first. -/
def InStretch (rank : α → τ) (descending : Bool) (a b : α) : Prop :=
  if descending then rank a < rank b else rank b ≤ rank a

theorem InStretch.trans {descending : Bool} {a b c : α} (h : InStretch rank descending a b)
    (h' : InStretch rank descending b c) : InStretch rank descending a c := by
  cases descending with
  | true => exact lt_trans h h'
  | false => exact le_trans h' h

theorem extendStretch_spec (hless : Compares less rank pool) {descending : Bool} {last : α}
    {stretch : List α} (hpool : last :: items ⊆ pool)
    (hstretch : (last :: stretch).Pairwise (InStretch rank descending)) :
    ∃ a s rest, extendStretch less descending last (last :: stretch) items = pure (a :: s, rest) ∧
      (a :: s).Pairwise (InStretch rank descending) ∧
      (a :: s).reverse ++ rest = (last :: stretch).reverse ++ items := by
  induction items generalizing last stretch with
  | nil => exact ⟨last, stretch, [], rfl, hstretch, rfl⟩
  | cons item items ih =>
    obtain ⟨hlast, hitems⟩ := List.cons_subset.mp hpool
    rw [extendStretch, hless item (hitems List.mem_cons_self) last hlast, pure_bind]
    by_cases hnext : (decide (rank item < rank last) == descending) = true
    · rw [if_pos hnext]
      have hitem : InStretch rank descending item last := by
        cases descending <;> simpa [InStretch] using hnext
      have hall : ∀ b ∈ last :: stretch, InStretch rank descending item b :=
        List.forall_mem_cons.mpr
          ⟨hitem, fun b hb => hitem.trans ((List.pairwise_cons.mp hstretch).1 b hb)⟩
      obtain ⟨a, s, rest, hextend, hordered, hsame⟩ :=
        ih hitems (List.pairwise_cons.mpr ⟨hall, hstretch⟩)
      exact ⟨a, s, rest, hextend, hordered, by simpa using hsame⟩
    · rw [if_neg hnext]
      exact ⟨last, stretch, item :: items, rfl, hstretch, rfl⟩

/-- A run is in order if it is known to be. -/
def Run.Ordered (rank : α → τ) (run : Run α) : Prop :=
  run.sorted = true → Ascending rank run.items

/-- A list begins with a run. -/
structure Run.Starts (rank : α → τ) (items : List α) (run : Run α) (rest : List α) : Prop where
  ordered : run.Ordered rank
  keeps : Keeps rank items (run.items ++ rest)
  shorter : items ≠ [] → rest.length < items.length

theorem sortedStretch_spec (hless : Compares less rank pool) (hpool : items ⊆ pool) :
    ∃ stretch rest, sortedStretch less items = pure (stretch, rest) ∧
      Run.Starts rank items ⟨stretch, true⟩ rest := by
  unfold sortedStretch
  split
  next first second items =>
    obtain ⟨hfirst, hrest⟩ := List.cons_subset.mp hpool
    rw [hless second (hrest List.mem_cons_self) first hfirst, pure_bind]
    have hpair : InStretch rank (decide (rank second < rank first)) second first := by
      by_cases h : rank second < rank first
      · simp [InStretch, h]
      · simpa [InStretch, h] using not_lt.mp h
    generalize decide (rank second < rank first) = descending at hpair ⊢
    have hstart : [second, first].Pairwise (InStretch rank descending) := by simpa using hpair
    obtain ⟨a, s, rest, hextend, hordered, hsame⟩ := extendStretch_spec hless hrest hstart
    replace hsame : (a :: s).reverse ++ rest = first :: second :: items := by simpa using hsame
    have hshorter : rest.length < (first :: second :: items).length := by
      rw [← hsame, List.length_append, List.length_reverse, List.length_cons]
      omega
    refine ⟨_, rest, by rw [hextend, pure_bind], ?_, ?_, fun _ => hshorter⟩
    · cases descending with
      | true => exact fun _ => hordered.imp le_of_lt
      | false => exact fun _ => List.pairwise_reverse.mpr hordered
    · rw [← hsame]
      refine Keeps.append ?_ (.refl rest)
      cases descending with
      | true =>
        have hkeeps : Keeps rank (a :: s).reverse (a :: s).reverse.reverse :=
          .reverse (List.pairwise_reverse.mpr (hordered.imp ne_of_gt))
        rwa [List.reverse_reverse] at hkeeps
      | false => exact .refl _
  next hshort =>
    refine ⟨items, [], rfl, fun _ => ?_, by simp [Keeps], List.length_pos_of_ne_nil⟩
    rcases items with _ | ⟨a, _ | ⟨b, items⟩⟩
    · exact .nil
    · exact List.pairwise_singleton _ _
    · exact absurd rfl (hshort a b items)

section

variable {eager : Bool} {good : Nat}

theorem plainRun_spec (hless : Compares less rank pool) (hgood : 0 < good) (hpool : items ⊆ pool) :
    ∃ run rest, plainRun less eager good items = pure (run, rest) ∧ run.Starts rank items rest := by
  have hshorter : ∀ n, 0 < n → items ≠ [] → (items.drop n).length < items.length := by
    intro n hn hne
    have hpos := List.length_pos_of_ne_nil hne
    rw [List.length_drop]
    omega
  unfold plainRun
  cases eager with
  | true =>
    have hblock : items.take blockSize ⊆ pool := fun a ha => hpool (List.mem_of_mem_take ha)
    obtain ⟨r, hr, hsorts⟩ := sortBlock_sorts hless hblock
    have hkeeps := hsorts.keeps.append (.refl (items.drop blockSize))
    rw [List.take_append_drop] at hkeeps
    exact ⟨⟨r, true⟩, items.drop blockSize, by simp [List.splitAt_eq, hr], fun _ => hsorts.ascending,
      hkeeps, hshorter _ (by decide)⟩
  | false =>
    refine ⟨⟨items.take good, false⟩, items.drop good, by simp [List.splitAt_eq],
      fun h => absurd h Bool.false_ne_true, ?_, hshorter _ hgood⟩
    rw [List.take_append_drop]
    exact .refl items

theorem nextRun_spec (hless : Compares less rank pool) (hgood : 0 < good) (hpool : items ⊆ pool) :
    ∃ run rest, nextRun less eager good items = pure (run, rest) ∧ run.Starts rank items rest := by
  unfold nextRun
  split
  · obtain ⟨stretch, rest, hstretch, hstarts⟩ := sortedStretch_spec hless hpool
    rw [hstretch, pure_bind]
    dsimp only
    split
    · exact ⟨_, rest, rfl, hstarts⟩
    · exact plainRun_spec hless hgood hpool
  · exact plainRun_spec hless hgood hpool

end

theorem goodLength_pos {n : Nat} (hn : 0 < n) : 0 < goodLength n := by
  unfold goodLength
  split
  · omega
  · have hlog : 1 ≤ n.log2 := (Nat.le_log2 (by omega)).mpr (by omega)
    have hroot : 2 ≤ Nat.pow 2 ((1 + n.log2) / 2) := by
      calc 2 = 2 ^ 1 := rfl
        _ ≤ 2 ^ ((1 + n.log2) / 2) := Nat.pow_le_pow_right (by decide) (by omega)
    exact Nat.div_pos (hroot.trans (Nat.le_add_right _ _)) (by decide)

/-! ## Joining -/

/-- Runs are joined into one with the items of both. -/
def Joins (rank : α → τ) (pool : List α) (join : Run α → Run α → Sorter ε (Run α)) : Prop :=
  ∀ {left right : Run α}, left.items ++ right.items ⊆ pool → left.Ordered rank → right.Ordered rank →
    ∃ run, join left right = pure run ∧ run.Ordered rank ∧
      Keeps rank (left.items ++ right.items) run.items

section

variable {settle : List α → Sorter ε (List α)}

theorem Run.settled_sorts (hsettle : ∀ {l : List α}, l ⊆ pool → (settle l).Sorts rank l) {run : Run α}
    (hpool : run.items ⊆ pool) (hordered : run.Ordered rank) :
    (run.settled settle).Sorts rank run.items := by
  unfold Run.settled
  split
  next h => exact ⟨run.items, rfl, .refl (hordered h)⟩
  next => exact hsettle hpool

theorem Run.join_spec (hless : Compares less rank pool)
    (hsettle : ∀ {l : List α}, l ⊆ pool → (settle l).Sorts rank l) :
    Joins rank pool (Run.join less settle) := by
  intro left right hpool hleft hright
  obtain ⟨hl, hr⟩ := List.append_subset.mp hpool
  unfold Run.join
  split
  · obtain ⟨s, hs, hsorts⟩ := left.settled_sorts hsettle hl hleft
    obtain ⟨t, ht, hsorts'⟩ := right.settled_sorts hsettle hr hright
    have hkeeps := hsorts.keeps.append hsorts'.keeps
    obtain ⟨r, hr, hsorts''⟩ :=
      merge_sorts hless (hkeeps.subset hpool) hsorts.ascending hsorts'.ascending
    exact ⟨⟨r, true⟩, by rw [hs, pure_bind, ht, pure_bind, hr, pure_bind], fun _ => hsorts''.ascending,
      hkeeps.trans hsorts''.keeps⟩
  · exact ⟨⟨left.items ++ right.items, false⟩, rfl, fun h => absurd h Bool.false_ne_true, .refl _⟩

end

/-- The items of the runs that wait, the nearest of which comes first. -/
def behind : List (Run α × Nat) → List α
  | [] => []
  | (run, _) :: waiting => behind waiting ++ run.items

section

variable {join : Run α → Run α → Sorter ε (Run α)} {last : Run α} {waiting : List (Run α × Nat)}

theorem joinWaiting_spec (hjoin : Joins rank pool join) (depth : Nat)
    (hpool : behind waiting ++ last.items ⊆ pool) (hlast : last.Ordered rank)
    (hwaiting : ∀ entry ∈ waiting, entry.1.Ordered rank) :
    ∃ last' waiting', joinWaiting join depth last waiting = pure (last', waiting') ∧
      last'.Ordered rank ∧ (∀ entry ∈ waiting', entry.1.Ordered rank) ∧
      Keeps rank (behind waiting ++ last.items) (behind waiting' ++ last'.items) ∧
      (depth = 0 → waiting' = []) := by
  induction waiting generalizing last with
  | nil => exact ⟨last, [], rfl, hlast, hwaiting, .refl _, fun _ => rfl⟩
  | cons entry waiting ih =>
    obtain ⟨run, runDepth⟩ := entry
    rw [joinWaiting]
    split
    · obtain ⟨hrun, hrest⟩ := List.forall_mem_cons.mp hwaiting
      rw [behind, List.append_assoc] at hpool ⊢
      obtain ⟨joined, hjoined, hordered, hkeeps⟩ := hjoin (List.append_subset.mp hpool).2 hrun hlast
      have hkeeps := (Keeps.refl (behind waiting)).append hkeeps
      obtain ⟨last', waiting', hjoin', hlast', hwaiting', hkeeps', hdepth⟩ :=
        ih (hkeeps.subset hpool) hordered hrest
      exact ⟨last', waiting', by rw [hjoined, pure_bind, hjoin'], hlast', hwaiting',
        hkeeps.trans hkeeps', hdepth⟩
    · exact ⟨last, (run, runDepth) :: waiting, rfl, hlast, hwaiting, .refl _, by omega⟩

theorem joinAll_spec {next : List α → Sorter ε (Run α × List α)}
    (hnext : ∀ {l : List α}, l ⊆ pool → ∃ run rest, next l = pure (run, rest) ∧ run.Starts rank l rest)
    (hjoin : Joins rank pool join) (total position : Nat) {count : Nat} (hcount : items.length ≤ count)
    (hpool : behind waiting ++ last.items ++ items ⊆ pool) (hlast : last.Ordered rank)
    (hwaiting : ∀ entry ∈ waiting, entry.1.Ordered rank) :
    ∃ run, joinAll next join total count position last waiting items = pure run ∧ run.Ordered rank ∧
      Keeps rank (behind waiting ++ last.items ++ items) run.items := by
  -- one round moves a run from the items ahead to those behind, and the whole stays
  fun_induction joinAll next join total count position last waiting items with
  | case1 count position last waiting item items ih =>
    obtain ⟨hfront, hitems⟩ := List.append_subset.mp hpool
    obtain ⟨run, rest, hrun, hstarts⟩ := hnext hitems
    obtain ⟨last', waiting', hjoined, hlast', hwaiting', hkeeps, -⟩ := joinWaiting_spec hjoin
      (joinDepth total (position - last.items.length) position (position + run.items.length)) hfront
      hlast hwaiting
    have hkeeps := hkeeps.append hstarts.keeps
    rw [← List.append_assoc] at hkeeps
    have hshorter := hstarts.shorter (List.cons_ne_nil _ _)
    rw [List.length_cons] at hshorter hcount
    obtain ⟨result, hresult, hordered, hkeeps'⟩ := ih run rest last' waiting' (by omega)
      (hkeeps.subset hpool) hstarts.ordered (List.forall_mem_cons.mpr ⟨hlast', hwaiting'⟩)
    refine ⟨result, ?_, hordered, hkeeps.trans hkeeps'⟩
    rw [hrun, pure_bind]
    dsimp only
    rw [hjoined, pure_bind]
    exact hresult
  | case2 count position last waiting items hnone =>
    obtain rfl : items = [] := by
      cases items with
      | nil => rfl
      | cons item items =>
        cases count with
        | zero => cases hcount
        | succ count => exact absurd rfl (hnone count item items rfl)
    rw [List.append_nil] at hpool ⊢
    obtain ⟨last', waiting', hjoined, hlast', -, hkeeps, hdepth⟩ :=
      joinWaiting_spec hjoin 0 hpool hlast hwaiting
    obtain rfl := hdepth rfl
    exact ⟨last', by rw [hjoined, pure_bind], hlast', hkeeps⟩

end

theorem runSort_sorts (hless : Compares less rank pool) {eager : Bool}
    {settle : List α → Sorter ε (List α)} (hsettle : ∀ {l : List α}, l ⊆ pool → (settle l).Sorts rank l)
    (hne : items ≠ []) (hpool : items ⊆ pool) : (runSort less eager settle items).Sorts rank items := by
  have hnext : ∀ {l : List α}, l ⊆ pool → ∃ run rest,
      nextRun less eager (goodLength items.length) l = pure (run, rest) ∧ run.Starts rank l rest :=
    nextRun_spec hless (goodLength_pos (List.length_pos_of_ne_nil hne))
  obtain ⟨first, rest, hfirst, hstarts⟩ := hnext hpool
  have hrest : behind [] ++ first.items ++ rest ⊆ pool := hstarts.keeps.subset hpool
  obtain ⟨run, hrun, hordered, hkeeps⟩ :=
    joinAll_spec hnext (Run.join_spec hless hsettle) items.length first.items.length
      (hstarts.shorter hne).le hrest hstarts.ordered (List.forall_mem_nil _)
  replace hkeeps := hstarts.keeps.trans hkeeps
  obtain ⟨r, hr, hsorts⟩ := run.settled_sorts hsettle (hkeeps.subset hpool) hordered
  refine ⟨r, ?_, hsorts.of_keeps hkeeps⟩
  unfold runSort
  dsimp only
  rw [hfirst, pure_bind]
  dsimp only
  rw [hrun, pure_bind, hr]

end ComponentMarkup.Sorting
