import ComponentMarkup.Decimal.Shortest
import ComponentMarkup.Proofs.Decimal.Rounding

/-!
# The shortest decimal rounds to its double

A point of a decimal grid is found exactly if some point of the grid rounds to the double. On the grid of
seventeen digits one does, so the search succeeds, and what it finds rounds to the double
(`shortest_roundsTo`). The decimal has no fraction exactly if the double is a whole number
(`shortest_exponent_nonneg_iff`).
-/

namespace ComponentMarkup.Decimal

/-! ## Grids -/

section Grid

variable {m : Nat} {e g : Int} {x y z : ℚ}

theorem roundsTo_self (m : Nat) (e : Int) : RoundsTo m e (m * 2 ^ e) := by
  have hreach := reach_pos m e
  apply roundsTo_of_lt <;> rw [mul_div_cancel_right₀ _ (two_zpow_pos e).ne'] <;> linarith

theorem RoundsTo.of_between (hx : RoundsTo m e x) (hz : RoundsTo m e z) (hxy : x ≤ y) (hyz : y ≤ z) :
    RoundsTo m e y := by
  have hxy' := div_le_div_of_nonneg_right hxy (two_zpow_pos e).le
  have hyz' := div_le_div_of_nonneg_right hyz (two_zpow_pos e).le
  unfold RoundsTo at *
  split_ifs at *
  · exact ⟨hx.1.trans hxy', hyz'.trans hz.2⟩
  · exact ⟨hx.1.trans_le hxy', hyz'.trans_lt hz.2⟩

/-- Quarters of the last place and points of a decimal grid, in a unit in which both are whole. -/
theorem exists_unit (e g : Int) : ∃ k : ℚ, 0 < k ∧
    (∀ c : Nat, (c * (2 ^ (e - 2).toNat * 10 ^ (-g).toNat) : Nat) = c / 4 * 2 ^ e * k) ∧
    ∀ d : Nat, (d * (10 ^ g.toNat * 2 ^ (-(e - 2)).toNat) : Nat) = d * 10 ^ g * k := by
  refine ⟨10 ^ (-g).toNat * 2 ^ (-(e - 2)).toNat, by positivity, fun c => ?_, fun d => ?_⟩
  · push_cast
    rw [pow_toNat (by norm_num) (e - 2), zpow_sub₀ (by norm_num)]
    norm_num
    ring
  · push_cast
    rw [pow_toNat (by norm_num) g]
    ring

theorem quarters_le_iff (e g : Int) (c d : Nat) :
    c * (2 ^ (e - 2).toNat * 10 ^ (-g).toNat) ≤ d * (10 ^ g.toNat * 2 ^ (-(e - 2)).toNat) ↔
      (c : ℚ) / 4 ≤ d * 10 ^ g / 2 ^ e := by
  obtain ⟨k, hk, hquarters, hpoints⟩ := exists_unit e g
  rw [le_div_iff₀ (two_zpow_pos e), ← mul_le_mul_iff_left₀ hk, ← hquarters, ← hpoints, Nat.cast_le]

theorem le_quarters_iff (e g : Int) (c d : Nat) :
    d * (10 ^ g.toNat * 2 ^ (-(e - 2)).toNat) ≤ c * (2 ^ (e - 2).toNat * 10 ^ (-g).toNat) ↔
      d * (10 : ℚ) ^ g / 2 ^ e ≤ c / 4 := by
  obtain ⟨k, hk, hquarters, hpoints⟩ := exists_unit e g
  rw [div_le_iff₀ (two_zpow_pos e), ← mul_le_mul_iff_left₀ hk, ← hquarters, ← hpoints, Nat.cast_le]

theorem readsBack_iff (hm : 0 < m) (e g : Int) (d : Nat) :
    readsBack m e (2 ^ (e - 2).toNat * 10 ^ (-g).toNat) (d * (10 ^ g.toNat * 2 ^ (-(e - 2)).toNat)) = true
      ↔ RoundsTo m e (d * 10 ^ g) := by
  -- the ends in quarters of the last place
  have hlow : ((4 * m - if m = 2 ^ 52 ∧ minExponent < e then 1 else 2 : Nat) : ℚ) / 4
      = m - reach m e := by
    rw [Nat.cast_sub (by split <;> omega), reach]
    split <;> push_cast <;> ring
  have hhigh : ((4 * m + 2 : Nat) : ℚ) / 4 = m + 1 / 2 := by
    push_cast
    ring
  unfold readsBack RoundsTo
  rw [← hlow, ← hhigh]
  simp only [Nat.pow_eq]
  split
  · rw [decide_eq_true_iff, quarters_le_iff, le_quarters_iff]
  · rw [decide_eq_true_iff]
    exact and_congr (lt_iff_lt_of_le_iff_le (le_quarters_iff ..))
      (lt_iff_lt_of_le_iff_le (quarters_le_iff ..))

/-- Of the two neighbours of a double on a grid one is found unless neither rounds to the double. -/
theorem onGrid?_cases (hm : 0 < m) (e g : Int) : ∃ below : Nat,
    below * (10 : ℚ) ^ g ≤ m * 2 ^ e ∧ m * 2 ^ e ≤ (below + 1 : Nat) * (10 : ℚ) ^ g ∧
    ((onGrid? m e g = none ∧ ¬ RoundsTo m e (below * 10 ^ g) ∧
        ¬ RoundsTo m e ((below + 1 : Nat) * 10 ^ g)) ∨
      ∃ d, onGrid? m e g = some ⟨d, g⟩ ∧ RoundsTo m e (d * 10 ^ g)) := by
  have hcentre : ((4 * m : Nat) : ℚ) / 4 = m := by
    push_cast
    ring
  have hreads := readsBack_iff hm e g
  have hle := le_quarters_iff e g (4 * m)
  have hge := quarters_le_iff e g (4 * m)
  unfold onGrid?
  simp only [Nat.pow_eq]
  have hstep : 0 < 10 ^ g.toNat * 2 ^ (-(e - 2)).toNat := by positivity
  generalize 10 ^ g.toNat * 2 ^ (-(e - 2)).toNat = step at *
  generalize 2 ^ (e - 2).toNat * 10 ^ (-g).toNat = scale at *
  refine ⟨4 * m * scale / step, ?_, ?_, ?_⟩
  · have := (hle _).mp (Nat.div_mul_le_self (4 * m * scale) step)
    rwa [hcentre, div_le_iff₀ (two_zpow_pos e)] at this
  · have := (hge _).mp (Nat.lt_mul_of_div_lt (Nat.lt_succ_self (4 * m * scale / step)) hstep).le
    rwa [hcentre, le_div_iff₀ (two_zpow_pos e)] at this
  · split
    · rename_i habove
      exact .inr ⟨_, rfl, (hreads _).mp (Bool.and_eq_true_iff.mp habove).1⟩
    · rename_i habove
      split
      · exact .inr ⟨_, rfl, (hreads _).mp ‹_›⟩
      · rename_i hbelow
        refine .inl ⟨rfl, fun h => hbelow ((hreads _).mpr h), fun h => habove ?_⟩
        rw [(hreads _).mpr h, Bool.eq_false_iff.mpr hbelow]
        simp

theorem onGrid?_roundsTo (hm : 0 < m) {d : Scientific} (h : onGrid? m e g = some d) :
    d.exponent = g ∧ RoundsTo m e (d.digits * 10 ^ g) := by
  obtain ⟨-, -, -, ⟨hnone, -⟩ | ⟨n, hsome, hround⟩⟩ := onGrid?_cases hm e g
  · rw [hnone] at h
    cases h
  · rw [hsome] at h
    cases h
    exact ⟨rfl, hround⟩

theorem onGrid?_isSome (hm : 0 < m) {d : Nat} (h : RoundsTo m e (d * 10 ^ g)) :
    (onGrid? m e g).isSome := by
  obtain ⟨below, hbelow, habove, ⟨-, hnot, hnot'⟩ | ⟨n, hsome, -⟩⟩ := onGrid?_cases hm e g
  · have hself := roundsTo_self m e
    rcases Nat.lt_or_ge below d with hlt | hge
    · have hle : ((below + 1 : Nat) : ℚ) * 10 ^ g ≤ d * 10 ^ g :=
        mul_le_mul_of_nonneg_right (by exact_mod_cast hlt) (ten_zpow_pos g).le
      exact absurd (hself.of_between h habove hle) hnot'
    · have hle : (d : ℚ) * 10 ^ g ≤ below * 10 ^ g :=
        mul_le_mul_of_nonneg_right (by exact_mod_cast hge) (ten_zpow_pos g).le
      exact absurd (h.of_between hself hle hbelow) hnot
  · rw [hsome]
    rfl

end Grid

/-! ## The search -/

theorem digitCount_pos (n : Nat) : 0 < digitCount n :=
  List.length_pos_of_ne_nil Nat.toDigits_ne_nil

theorem lt_pow_digitCount (n : Nat) : n < 10 ^ digitCount n :=
  (Nat.length_toDigits_le_iff (by decide) (digitCount_pos n)).mp (Nat.le_refl _)

theorem pow_digitCount_le {n : Nat} (hn : n ≠ 0) : 10 ^ (digitCount n - 1) ≤ n := by
  rcases Nat.eq_zero_or_pos (digitCount n - 1) with hzero | hpos
  · rw [hzero]
    exact Nat.pos_of_ne_zero hn
  · have hdigits := Nat.length_toDigits_le_iff (n := n) (by decide : 1 < 10) hpos
    have hmore : ¬ digitCount n ≤ digitCount n - 1 := by omega
    exact Nat.le_of_not_lt fun hlt => hmore (hdigits.mpr hlt)

section Search

variable {m : Nat} {e : Int}

theorem mul_zpow_eq_div (m : Nat) (e : Int) :
    (m : ℚ) * 2 ^ e = (m * 2 ^ e.toNat : Nat) / (2 ^ (-e).toNat : Nat) := by
  rw [eq_div_iff (by positivity)]
  push_cast
  rw [pow_toNat (by norm_num) e, mul_assoc]

/-- A double is not below the power of ten of its first digit. -/
theorem pow_leadingExponent_le (hm : 0 < m) (e : Int) :
    (10 : ℚ) ^ leadingExponent m e ≤ m * 2 ^ e := by
  rw [mul_zpow_eq_div]
  unfold leadingExponent
  simp only [Nat.pow_eq]
  have hnum : 0 < m * 2 ^ e.toNat := by positivity
  have hden : 0 < 2 ^ (-e).toNat := by positivity
  generalize m * 2 ^ e.toNat = num at *
  generalize 2 ^ (-e).toNat = den at *
  split
  · rename_i hle
    have hpow := pow_digitCount_le (Nat.div_pos hle hden).ne'
    have hcast : (digitCount (num / den) : Int) - 1 = (digitCount (num / den) - 1 : Nat) := by
      have := digitCount_pos (num / den)
      omega
    rw [hcast, zpow_natCast]
    calc (10 : ℚ) ^ (digitCount (num / den) - 1) ≤ (num / den : Nat) := by exact_mod_cast hpow
      _ ≤ num / den := Nat.cast_div_le
  · -- the reciprocal is not above its rounding to the next whole number
    have hceil := Nat.lt_mul_div_succ (den + num - 1) hnum
    have hpow := lt_pow_digitCount ((den + num - 1) / num - 1)
    generalize (den + num - 1) / num = ceil at *
    rw [Nat.mul_add_one] at hceil
    have hle : den ≤ num * 10 ^ digitCount (ceil - 1) :=
      le_trans (by omega) (Nat.mul_le_mul_left num (by omega : ceil ≤ 10 ^ digitCount (ceil - 1)))
    rw [zpow_neg, zpow_natCast, inv_eq_one_div, div_le_div_iff₀ (by positivity) (by exact_mod_cast hden),
      one_mul]
    exact_mod_cast hle

/-- On the grid of seventeen digits a point rounds to the double. -/
theorem exists_roundsTo (h : IsDouble m e) :
    ∃ d : Nat, RoundsTo m e (d * 10 ^ (leadingExponent m e + 1 - (17 : Nat))) := by
  generalize hg : leadingExponent m e + 1 - (17 : Nat) = g
  -- the grid is finer than twice the reach of the double
  have hfine : (10 : ℚ) ^ g ≤ m * 2 ^ e / 10 ^ 16 := by
    rw [le_div_iff₀ (by positivity)]
    calc (10 : ℚ) ^ g * 10 ^ 16 = 10 ^ leadingExponent m e := by
          rw [← zpow_natCast 10 16, ← zpow_add₀ (by norm_num)]
          congr 1
          omega
      _ ≤ m * 2 ^ e := pow_leadingExponent_le h.pos e
  have hreach : (m : ℚ) / 10 ^ 16 / 2 < reach m e := by
    unfold reach
    split
    · rename_i hpower
      rw [hpower.1]
      norm_num
    · have : (m : ℚ) < 2 ^ 53 := by exact_mod_cast h.lt
      linarith
  have hten := ten_zpow_pos g
  have htwo := two_zpow_pos e
  obtain ⟨d, hbelow, habove⟩ : ∃ d : Nat, (d : ℚ) ≤ m * 2 ^ e / 10 ^ g + 1 / 2 ∧
      m * 2 ^ e / 10 ^ g + 1 / 2 < (d : ℚ) + 1 :=
    ⟨_, Nat.floor_le (by positivity), Nat.lt_floor_add_one _⟩
  rw [← sub_le_iff_le_add, le_div_iff₀ hten] at hbelow
  rw [← lt_sub_iff_add_lt, div_lt_iff₀ hten] at habove
  refine ⟨d, roundsTo_of_lt ?_ ?_⟩
  · rw [lt_div_iff₀ htwo]
    have hmul := mul_lt_mul_of_pos_right hreach htwo
    linarith
  · rw [div_lt_iff₀ htwo]
    have hmul := mul_lt_mul_of_pos_right (hreach.trans_le (reach_le m e)) htwo
    linarith

/-- The decimal is found on the first grid with a point that rounds to the double. -/
theorem shortest_spec (h : IsDouble m e) : ∃ n : Nat,
    onGrid? m e (leadingExponent m e + 1 - n) = some (shortest m e) ∧
      ∀ k < n, onGrid? m e (leadingExponent m e + 1 - k) = none := by
  obtain ⟨d, hd⟩ := exists_roundsTo h
  unfold shortest
  dsimp only
  generalize leadingExponent m e + 1 = coarsest at *
  cases hfind : (List.range 18).findSome? fun n : Nat => onGrid? m e (coarsest - n) with
  | none =>
    have hnone := List.findSome?_eq_none_iff.mp hfind 17 (by decide)
    have hsome := onGrid?_isSome h.pos hd
    rw [hnone] at hsome
    cases hsome
  | some found =>
    obtain ⟨before, n, after, hrange, hfound, hbefore⟩ := List.findSome?_eq_some_iff.mp hfind
    rw [List.range_eq_range', List.range'_eq_append_iff] at hrange
    obtain ⟨k, hk, rfl, hafter⟩ := hrange
    obtain rfl : n = k := by
      have hhead := congrArg List.head? hafter
      rw [List.head?_cons, List.head?_range'] at hhead
      split at hhead <;> simp_all
    refine ⟨n, hfound, fun i hi => hbefore i ?_⟩
    rw [← List.range_eq_range']
    exact List.mem_range.mpr hi

theorem shortest_roundsTo (h : IsDouble m e) :
    RoundsTo m e ((shortest m e).digits * 10 ^ (shortest m e).exponent) := by
  obtain ⟨n, hfound, -⟩ := shortest_spec h
  obtain ⟨hexponent, hround⟩ := onGrid?_roundsTo h.pos hfound
  rwa [hexponent]

/-- A whole number that rounds to a double is the double, if that has a fraction of its own. -/
theorem RoundsTo.eq_of_nat {n : Nat} (h : RoundsTo m e n) (he : e ≤ 0) : n * 2 ^ (-e).toNat = m := by
  obtain ⟨hlow, hhigh, -⟩ := h.bounds
  obtain ⟨k, hk⟩ := Int.eq_ofNat_of_zero_le (Int.neg_nonneg_of_nonpos he)
  obtain rfl : e = -(k : Int) := by omega
  have hreach := reach_le m (-k)
  rw [zpow_neg, div_inv_eq_mul, zpow_natCast] at hlow hhigh
  rw [neg_neg, Int.toNat_natCast]
  have hlow' : (m : ℚ) < (n * 2 ^ k : Nat) + 1 := by
    push_cast
    linarith
  have hhigh' : ((n * 2 ^ k : Nat) : ℚ) < m + 1 := by
    push_cast
    linarith
  have : m < n * 2 ^ k + 1 := by exact_mod_cast hlow'
  have : n * 2 ^ k < m + 1 := by exact_mod_cast hhigh'
  omega

theorem leadingExponent_nonneg (h : 2 ^ (-e).toNat ≤ m * 2 ^ e.toNat) : 0 ≤ leadingExponent m e := by
  unfold leadingExponent
  simp only [Nat.pow_eq, if_pos h]
  have := digitCount_pos (m * 2 ^ e.toNat / 2 ^ (-e).toNat)
  omega

/-- The decimal has no fraction exactly if the double is a whole number. -/
theorem shortest_exponent_nonneg_iff (h : IsDouble m e) :
    0 ≤ (shortest m e).exponent ↔ m % 2 ^ (-e).toNat = 0 := by
  obtain ⟨n, hfound, hfirst⟩ := shortest_spec h
  obtain ⟨hexponent, hround⟩ := onGrid?_roundsTo h.pos hfound
  rw [hexponent]
  constructor
  · intro hnonneg
    rcases Int.le_total e 0 with he | he
    · obtain ⟨k, hk⟩ := Int.eq_ofNat_of_zero_le hnonneg
      rw [hk, zpow_natCast] at hround
      have hwhole : RoundsTo m e ((shortest m e).digits * 10 ^ k : Nat) := by exact_mod_cast hround
      rw [← hwhole.eq_of_nat he]
      exact Nat.mul_mod_left ..
    · rw [show (-e).toNat = 0 by omega]
      exact Nat.mod_one m
  · intro hdvd
    obtain ⟨c, hc⟩ := Nat.dvd_of_mod_eq_zero hdvd
    have hcpos : 0 < c := Nat.pos_of_ne_zero fun hzero => by
      have := h.pos
      simp [hc, hzero] at this
    -- the double itself is on the grid of the whole numbers
    have hself : RoundsTo m e ((c * 2 ^ e.toNat : Nat) * 10 ^ (0 : Int)) := by
      have hvalue : ((c * 2 ^ e.toNat : Nat) : ℚ) = m * 2 ^ e := by
        rw [mul_zpow_eq_div, eq_div_iff (by positivity), hc]
        push_cast
        ring
      rw [zpow_zero, mul_one, hvalue]
      exact roundsTo_self m e
    have hlead : 0 ≤ leadingExponent m e := by
      refine leadingExponent_nonneg ?_
      rw [hc, Nat.mul_assoc]
      exact Nat.le_mul_of_pos_right _ (by positivity)
    by_contra hneg
    have hnone := hfirst (leadingExponent m e + 1).toNat (by omega)
    have hsome := onGrid?_isSome h.pos hself
    rw [show leadingExponent m e + 1 - ((leadingExponent m e + 1).toNat : Int) = 0 by omega] at hnone
    rw [hnone] at hsome
    cases hsome

end Search

end ComponentMarkup.Decimal
