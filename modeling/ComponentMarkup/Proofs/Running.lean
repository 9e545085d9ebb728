/-!
# Running computations with a state that may fail

A sequence of two computations succeeds if both do, the second from where the first one ended. It
fails with the fault of the first one that fails.
-/

namespace ComponentMarkup

variable {σ ε α β : Type}

theorem bind_eq_ok {p : StateT σ (Except ε) α} {f : α → StateT σ (Except ε) β} {s : σ} {r : β × σ} :
    (p >>= f) s = .ok r ↔ ∃ a mid, p s = .ok (a, mid) ∧ f a mid = .ok r := by
  change (p s >>= fun x => f x.1 x.2) = .ok r ↔ _
  cases h : p s with
  | error e => simp [bind, Except.bind]
  | ok x =>
    obtain ⟨a, mid⟩ := x
    constructor
    · intro hr
      exact ⟨a, mid, rfl, hr⟩
    · rintro ⟨_, _, heq, hr⟩
      cases heq
      exact hr

theorem bind_eq_error {p : StateT σ (Except ε) α} {f : α → StateT σ (Except ε) β} {s : σ} {e : ε} :
    (p >>= f) s = .error e ↔ p s = .error e ∨ ∃ a mid, p s = .ok (a, mid) ∧ f a mid = .error e := by
  change (p s >>= fun x => f x.1 x.2) = .error e ↔ _
  cases h : p s with
  | error e' => simp [bind, Except.bind]
  | ok x =>
    obtain ⟨a, mid⟩ := x
    constructor
    · intro he
      exact .inr ⟨a, mid, rfl, he⟩
    · rintro (heq | ⟨_, _, heq, he⟩)
      · cases heq
      · cases heq
        exact he

theorem bind_of_ok {p : StateT σ (Except ε) α} {f : α → StateT σ (Except ε) β} {s mid : σ} {a : α}
    (h : p s = .ok (a, mid)) : (p >>= f) s = f a mid := by
  change (p s >>= fun x => f x.1 x.2) = _
  rw [h]
  rfl

theorem bind_of_error {p : StateT σ (Except ε) α} {f : α → StateT σ (Except ε) β} {s : σ} {e : ε}
    (h : p s = .error e) : (p >>= f) s = .error e :=
  bind_eq_error.mpr (.inl h)

theorem run'_eq_ok {p : StateT σ (Except ε) α} {s : σ} {a : α} :
    p.run' s = .ok a ↔ ∃ s', p s = .ok (a, s') := by
  change Except.map (·.1) (p s) = .ok a ↔ _
  cases p s with
  | error e => simp [Except.map]
  | ok x =>
    obtain ⟨b, mid⟩ := x
    simp [Except.map]

end ComponentMarkup
