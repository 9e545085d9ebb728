import Mathlib.Data.List.Forall2
import Mathlib.Data.Nat.Digits.Defs
import ComponentMarkup.Text.Quoted

/-!
# Numeric escapes

What the body of a literal stands for, said as a relation between texts. A numeric escape stands for
the character whose number its digits denote; a plus sign passes for a part of the number.
-/

namespace ComponentMarkup.Text

variable {digits : List Char} {n : Nat}

/-! ## Hexadecimal notation -/

/-- A hexadecimal digit, in lower or upper case, and its value. -/
def IsHexDigit (c : Char) (value : Nat) : Prop :=
  value < 16 ∧ (c = Nat.digitChar value ∨ c = (Nat.digitChar value).toUpper)

/-- A number in hexadecimal notation, after one of the given signs. -/
def DenotesHex (signs : List (List Char)) (text : List Char) (n : Nat) : Prop :=
  ∃ sign ∈ signs, ∃ digits values, text = sign ++ digits ∧ digits ≠ [] ∧
    List.Forall₂ IsHexDigit digits values ∧ n = Nat.ofDigits 16 values.reverse

theorem hexDigit?_eq_some_iff {c : Char} {value : Nat} :
    hexDigit? c = some value ↔ IsHexDigit c value := by
  have hle : ∀ a b : Char, a ≤ b ↔ a.toNat ≤ b.toNat := fun _ _ => Iff.rfl
  have heq : ∀ {a b : Char}, a.toNat = b.toNat → a = b := fun h => Char.ext (UInt32.toNat_inj.mp h)
  have hlower : ∀ v < 16, hexDigit? (Nat.digitChar v) = some v ∧
      (Nat.digitChar v).toNat = if v < 10 then v + 48 else v + 87 := by decide
  have hupper : ∀ v < 16, hexDigit? (Nat.digitChar v).toUpper = some v ∧
      (10 ≤ v → (Nat.digitChar v).toUpper.toNat = v + 55) := by decide
  constructor
  · intro h
    simp only [hexDigit?, hle, Char.reduceToNat] at h
    split at h
    · obtain rfl := Option.some.inj h
      have hlt : c.toNat - 48 < 10 := by omega
      refine ⟨by omega, .inl (heq ?_)⟩
      rw [(hlower _ (by omega)).2, if_pos hlt]
      omega
    split at h
    · obtain rfl := Option.some.inj h
      refine ⟨by omega, .inl (heq ?_)⟩
      rw [(hlower _ (by omega)).2, if_neg (by omega)]
      omega
    split at h
    · obtain rfl := Option.some.inj h
      refine ⟨by omega, .inr (heq ?_)⟩
      rw [(hupper _ (by omega)).2 (by omega)]
      omega
    · cases h
  · rintro ⟨hlt, rfl | rfl⟩
    · exact (hlower value hlt).1
    · exact (hupper value hlt).1

theorem foldlM_hexDigit (n m : Nat) :
    digits.foldlM (fun n c => (hexDigit? c).map (16 * n + ·)) n = some m ↔
      ∃ values, List.Forall₂ IsHexDigit digits values ∧
        m = Nat.ofDigits 16 values.reverse + 16 ^ digits.length * n := by
  induction digits generalizing n with
  | nil => simp [eq_comm]
  | cons c digits ih =>
    -- The leading digit counts as much as all digits after it together, and one more.
    have hsum : ∀ {value : Nat} {values : List Nat}, List.Forall₂ IsHexDigit digits values →
        Nat.ofDigits 16 values.reverse + 16 ^ digits.length * (16 * n + value) =
          Nat.ofDigits 16 (value :: values).reverse + 16 ^ (c :: digits).length * n := by
      intro value values hvalues
      rw [List.reverse_cons, Nat.ofDigits_append, Nat.ofDigits_singleton, List.length_reverse,
        ← hvalues.length_eq, List.length_cons]
      ring
    rw [List.foldlM_cons]
    constructor
    · intro h
      obtain ⟨next, hnext, hrest⟩ := Option.bind_eq_some_iff.mp h
      obtain ⟨value, hvalue, rfl⟩ := Option.map_eq_some_iff.mp hnext
      obtain ⟨values, hvalues, rfl⟩ := (ih _).mp hrest
      exact ⟨value :: values, .cons (hexDigit?_eq_some_iff.mp hvalue) hvalues, hsum hvalues⟩
    · rintro ⟨_, hall, rfl⟩
      obtain ⟨value, values, hvalue, hvalues, rfl⟩ := List.forall₂_cons_left_iff.mp hall
      refine Option.bind_eq_some_iff.mpr ⟨16 * n + value, ?_, ?_⟩
      · rw [hexDigit?_eq_some_iff.mpr hvalue, Option.map_some]
      · exact (ih _).mpr ⟨values, hvalues, (hsum hvalues).symm⟩

theorem hexValue?_eq_some_iff :
    hexValue? digits = some n ↔
    ∃ values, List.Forall₂ IsHexDigit digits values ∧ n = Nat.ofDigits 16 values.reverse := by
  rw [hexValue?, foldlM_hexDigit]
  simp

/-- The digits of an escape are read as a number with or without a plus sign. -/
theorem escapeValue?_eq_some_iff :
    escapeValue? digits = some n ↔ DenotesHex [[], ['+']] digits n := by
  have hplus : ∀ rest value, ¬List.Forall₂ IsHexDigit ('+' :: rest) value := by
    intro rest value hall
    obtain ⟨v, _, hv, -, -⟩ := List.forall₂_cons_left_iff.mp hall
    cases hexDigit?_eq_some_iff.mpr hv
  unfold escapeValue?
  split
  · refine iff_of_false (by simp) ?_
    rintro ⟨sign, -, digits, -, hnil, hne, -⟩
    exact hne (List.append_eq_nil_iff.mp hnil.symm).2
  · next digits =>
    simp only [Option.ite_none_left_eq_some, List.isEmpty_iff, hexValue?_eq_some_iff]
    constructor
    · rintro ⟨hne, values, hall, hn⟩
      exact ⟨['+'], by simp, digits, values, rfl, hne, hall, hn⟩
    · rintro ⟨sign, hsign, ds, values, heq, hne, hall, hn⟩
      simp only [List.mem_cons, List.not_mem_nil, or_false] at hsign
      rcases hsign with rfl | rfl
      · obtain rfl : '+' :: digits = ds := heq
        exact absurd hall (hplus _ _)
      · obtain rfl := (List.cons.inj heq).2
        exact ⟨hne, values, hall, hn⟩
  · next hnil hsigned =>
    rw [hexValue?_eq_some_iff]
    constructor
    · rintro ⟨values, hall, hn⟩
      exact ⟨[], by simp, digits, values, rfl, hnil, hall, hn⟩
    · rintro ⟨sign, hsign, ds, values, heq, hne, hall, hn⟩
      simp only [List.mem_cons, List.not_mem_nil, or_false] at hsign
      rcases hsign with rfl | rfl
      · exact ⟨values, heq ▸ hall, hn⟩
      · exact absurd heq (hsigned ds)

/-! ## Bodies of literals -/

/-- How many characters belong to a numeric escape. -/
def escapeWidth? : Char → Option Nat
  | 'x' => some 2
  | 'u' => some 4
  | _ => none

/-- The body of a literal, from left to right, and the text that it stands for. In a numeric escape the
number may have one of the given signs. -/
inductive Decoded (signs : List (List Char)) : List Char → List Char → Prop where
  | nil : Decoded signs [] []
  | plain {c : Char} {rest text : List Char} : c ≠ '\\' → Decoded signs rest text →
      Decoded signs (c :: rest) (c :: text)
  | backslash : Decoded signs ['\\'] ['\\']
  | simple {c : Char} {out rest text : List Char} : simpleEscape? c = some out →
      Decoded signs rest text → Decoded signs ('\\' :: c :: rest) (out ++ text)
  | numeric {c d : Char} {n : Nat} {rest text : List Char} : escapeWidth? c = some n →
      n ≤ rest.length → DenotesHex signs (rest.take n) d.toNat →
      Decoded signs (rest.drop n) text → Decoded signs ('\\' :: c :: rest) (d :: text)
  | kept {c : Char} {n : Nat} {rest text : List Char} : escapeWidth? c = some n →
      (rest.length < n ∨ ∀ d : Char, ¬DenotesHex signs (rest.take n) d.toNat) →
      Decoded signs (rest.drop n) text →
      Decoded signs ('\\' :: c :: rest) ('\\' :: c :: rest.take n ++ text)
  | other {c : Char} {rest text : List Char} : simpleEscape? c = none → escapeWidth? c = none →
      Decoded signs rest text → Decoded signs ('\\' :: c :: rest) ('\\' :: c :: text)

variable {rest text : List Char}

/-- An escape of full length. -/
theorem Decoded.resolve {kind : Char} (digits : List Char)
    (hkind : escapeWidth? kind = some digits.length) (h : Decoded [[], ['+']] rest text) :
    Decoded [[], ['+']] ('\\' :: kind :: (digits ++ rest)) (resolveEscape kind digits ++ text) := by
  have hdrop : Decoded [[], ['+']] ((digits ++ rest).drop digits.length) text := by
    rwa [List.drop_left]
  have htake : (digits ++ rest).take digits.length = digits := List.take_left
  have hkept : (∀ d : Char, ¬DenotesHex [[], ['+']] digits d.toNat) →
      Decoded [[], ['+']] ('\\' :: kind :: (digits ++ rest)) ('\\' :: kind :: digits ++ text) := by
    intro hnone
    have := Decoded.kept hkind (.inr (by rwa [htake])) hdrop
    rwa [htake] at this
  unfold resolveEscape
  split
  case h_1 n hn =>
    rw [escapeValue?_eq_some_iff] at hn
    split
    case isTrue hvalid =>
      have hd : (Char.ofNat n).toNat = n := by
        rw [Char.ofNat, dif_pos hvalid]
        rfl
      exact Decoded.numeric hkind (by simp) (by rwa [htake, hd]) hdrop
    case isFalse hvalid =>
      refine hkept fun d hd => hvalid ?_
      rw [← escapeValue?_eq_some_iff] at hn hd
      obtain rfl := Option.some.inj (hn.symm.trans hd)
      exact d.valid
  case h_2 hnone =>
    refine hkept fun d hd => ?_
    rw [← escapeValue?_eq_some_iff, hnone] at hd
    cases hd

theorem Decoded.short {signs : List (List Char)} {kind : Char} (hkind : escapeWidth? kind = some n)
    (hshort : rest.length < n) : Decoded signs ('\\' :: kind :: rest) ('\\' :: kind :: rest) := by
  have hend : Decoded signs (rest.drop n) [] := by
    rw [List.drop_of_length_le hshort.le]
    exact .nil
  have := Decoded.kept hkind (.inl hshort) hend
  rwa [List.take_of_length_le hshort.le, List.append_nil] at this

theorem decoded_unescape (body : List Char) : Decoded [[], ['+']] body (unescape body) := by
  fun_induction unescape body with
  | case1 => exact .nil
  | case2 c rest hc ih => exact .plain hc ih
  | case3 c hc =>
    obtain rfl := not_not.mp hc
    exact .backslash
  | case4 c hc kind rest text hsimple ih =>
    obtain rfl := not_not.mp hc
    exact .simple hsimple ih
  | case5 c hc a b rest hsimple ih =>
    obtain rfl := not_not.mp hc
    exact Decoded.resolve [a, b] rfl ih
  | case6 c hc short hshort hsimple =>
    obtain rfl := not_not.mp hc
    refine Decoded.short (n := 2) rfl ?_
    rcases short with _ | ⟨a, _ | ⟨b, rest⟩⟩
    · simp
    · simp
    · exact (hshort a b rest rfl).elim
  | case7 c hc a b c' d rest hsimple hkind ih =>
    obtain rfl := not_not.mp hc
    exact Decoded.resolve [a, b, c', d] rfl ih
  | case8 c hc short hshort hsimple =>
    obtain rfl := not_not.mp hc
    refine Decoded.short (n := 4) rfl ?_
    rcases short with _ | ⟨a, _ | ⟨b, _ | ⟨c', _ | ⟨d, rest⟩⟩⟩⟩
    · simp
    · simp
    · simp
    · simp
    · exact (hshort a b c' d rest rfl).elim
  | case9 c hc kind rest hsimple hx hu ih =>
    obtain rfl := not_not.mp hc
    refine .other hsimple ?_ ih
    unfold escapeWidth?
    split
    · exact absurd rfl hx
    · exact absurd rfl hu
    · rfl

/-- The places that decoding comes to on its way through a body: those after plain characters and after
whole escapes. -/
inductive Reaches : List Char → List Char → Prop where
  | refl {body : List Char} : Reaches body body
  | plain {c : Char} {rest place : List Char} : c ≠ '\\' → Reaches rest place →
      Reaches (c :: rest) place
  | escape {c : Char} {rest place : List Char} : Reaches (rest.drop ((escapeWidth? c).getD 0)) place →
      Reaches ('\\' :: c :: rest) place

/-- No escape of the body is resolved with a plus sign. -/
def SignFree (body : List Char) : Prop :=
  ∀ {c : Char} {n : Nat} {rest : List Char}, Reaches body ('\\' :: c :: rest) →
    escapeWidth? c = some n → n ≤ rest.length → ∀ d : Char, ¬DenotesHex [['+']] (rest.take n) d.toNat

theorem SignFree.escape {c : Char} (h : SignFree ('\\' :: c :: rest)) {n : Nat}
    (hn : (escapeWidth? c).getD 0 = n) : SignFree (rest.drop n) :=
  fun hplace => h (.escape (hn ▸ hplace))

theorem Decoded.unsigned {body : List Char} (h : Decoded [[], ['+']] body text)
    (hfree : SignFree body) : Decoded [[]] body text := by
  have hless : ∀ {digits n}, DenotesHex [[]] digits n → DenotesHex [[], ['+']] digits n := by
    rintro digits n ⟨sign, hsign, hdigits⟩
    exact ⟨sign, List.mem_append_left [['+']] hsign, hdigits⟩
  induction h with
  | nil => exact .nil
  | plain hc _ ih => exact .plain hc (ih fun hplace => hfree (.plain hc hplace))
  | backslash => exact .backslash
  | @simple c out rest text hout _ ih =>
    have hwidth : (escapeWidth? c).getD 0 = 0 := by
      unfold escapeWidth?
      split
      · cases hout
      · cases hout
      · rfl
    exact .simple hout (ih (hfree.escape hwidth))
  | numeric hwidth hlong hdenotes _ ih =>
    refine .numeric hwidth hlong ?_ (ih (hfree.escape (by rw [hwidth, Option.getD_some])))
    obtain ⟨sign, hsign, hdigits⟩ := hdenotes
    obtain rfl | hsign := List.mem_cons.mp hsign
    · exact ⟨[], List.mem_singleton_self _, hdigits⟩
    · exact absurd ⟨sign, hsign, hdigits⟩ (hfree .refl hwidth hlong _)
  | kept hwidth hnone _ ih =>
    exact .kept hwidth (hnone.imp_right fun hnone d hd => hnone d (hless hd))
      (ih (hfree.escape (by rw [hwidth, Option.getD_some])))
  | other hsimple hwidth _ ih =>
    exact .other hsimple hwidth (ih (hfree.escape (n := 0) (by rw [hwidth]; rfl)))

/-- Every numeric escape of a body stands for the character whose number is written there in
hexadecimal digits, and is kept as it is written if there is none. A plus sign in front of the digits
is passed over; without such signs all characters of a resolved escape are digits. -/
theorem unescape_exact (body : List Char) :
    Decoded [[], ['+']] body (unescape body) ∧
      (SignFree body → Decoded [[]] body (unescape body)) :=
  ⟨decoded_unescape body, (decoded_unescape body).unsigned⟩

/-- A plus sign that belongs to no escape, for the backslash before it is escaped. -/
theorem unescape_exact_of_backslash :
    SignFree ['\\', '\\', 'x', '+', 'f'] ∧
      Decoded [[]] ['\\', '\\', 'x', '+', 'f'] ['\\', 'x', '+', 'f'] := by
  have hfree : SignFree ['\\', '\\', 'x', '+', 'f'] := by
    intro c n rest hplace hwidth
    cases hplace with
    | refl => cases hwidth
    | plain hc _ => exact absurd rfl hc
    | escape hplace =>
      have hplain : ∀ place, Reaches ['x', '+', 'f'] place → place.head? ≠ some '\\' := by
        rintro _ (_ | ⟨_, _ | ⟨_, _ | ⟨_, _ | _⟩⟩⟩) <;> decide
      exact absurd rfl (hplain _ hplace)
  exact ⟨hfree, (unescape_exact ['\\', '\\', 'x', '+', 'f']).2 hfree⟩

/-- A plus sign is no digit, and yet an escape with it is resolved. -/
theorem plus_sign_resolved :
    unescape ['\\', 'x', '+', 'f'] = ['\x0f'] ∧ ∀ value, ¬IsHexDigit '+' value :=
  ⟨rfl, fun _ h => by cases hexDigit?_eq_some_iff.mpr h⟩

end ComponentMarkup.Text
