import ComponentMarkup.Proofs.Expr.Lexemes
import ComponentMarkup.Template.Lowering

/-!
# Placeholders

The stem of a template is the first of `__htexpr_`, `___htexpr_`, … that the template does not contain.
A placeholder is the stem with a number behind it. It is read as a name, no two numbers give the same
placeholder, and nothing in the template contains one.
-/

namespace ComponentMarkup

variable {needle text : List Char}

theorem Text.findFrom_isSome_iff {position : Nat} :
    (Text.findFrom needle position text).isSome = true ↔ needle <:+: text := by
  induction text generalizing position with
  | nil => cases needle <;> simp [Text.findFrom]
  | cons c rest ih =>
    rw [Text.findFrom, List.infix_cons_iff]
    split
    · rename_i hbegins
      simp [List.isPrefixOf_iff_prefix.mp hbegins]
    · rename_i hbegins
      rw [ih, ← List.isPrefixOf_iff_prefix]
      simp [hbegins]

theorem Text.occursIn_iff : Text.occursIn needle text = true ↔ needle <:+: text :=
  Text.findFrom_isSome_iff

namespace Lowering

variable {template : List Char} {k : Nat}

/-! ## Stems -/

/-- The base stem with underscores in front of it. -/
def stem (underscores : Nat) : List Char :=
  List.replicate underscores '_' ++ baseStem

theorem stem_succ (k : Nat) : stem (k + 1) = '_' :: stem k := rfl

theorem length_stem (k : Nat) : (stem k).length = k + 9 := by
  rw [stem, List.length_append, List.length_replicate]
  rfl

/-- A stem longer than the template does not occur in it. -/
theorem stem_not_infix (h : template.length < k + 9) : ¬ stem k <:+: template := by
  intro hwithin
  have hle := hwithin.length_le
  rw [length_stem] at hle
  omega

theorem stemFrom_spec (bound k : Nat) (h : template.length < bound + k) :
    ∃ m, stemFrom template bound (stem k) = stem m ∧ ¬ stem m <:+: template ∧
      ∀ j, k ≤ j → j < m → stem j <:+: template := by
  induction bound generalizing k with
  | zero =>
    refine ⟨k, rfl, stem_not_infix (by omega), ?_⟩
    intro j hle hlt
    omega
  | succ bound ih =>
    unfold stemFrom
    split
    · rename_i hoccurs
      obtain ⟨m, hstem, hfree, hbefore⟩ := ih (k + 1) (by omega)
      refine ⟨m, hstem, hfree, ?_⟩
      intro j hle hlt
      by_cases hj : j = k
      · rw [hj]
        exact Text.occursIn_iff.mp hoccurs
      · exact hbefore j (by omega) hlt
    · rename_i hfree
      refine ⟨k, rfl, fun hwithin => hfree (Text.occursIn_iff.mpr hwithin), ?_⟩
      intro j hle hlt
      omega

/-- The stem of a template is the first one that the template does not contain. -/
theorem stemFor_spec (template : List Char) :
    ∃ m, stemFor template = stem m ∧ ¬ stem m <:+: template ∧
      ∀ j < m, stem j <:+: template := by
  obtain ⟨m, hstem, hfree, hbefore⟩ : ∃ m, stemFrom template (template.length + 1) (stem 0) = _ ∧ _ :=
    stemFrom_spec (template.length + 1) 0 (by omega)
  exact ⟨m, hstem, hfree, fun j hj => hbefore j (Nat.zero_le j) hj⟩

/-! ## Names with numbers -/

/-- The placeholder with a number. -/
def numbered (stem : List Char) (number : Nat) : String :=
  String.ofList (stem ++ (toString number).toList)

theorem toList_numbered (s : List Char) (number : Nat) :
    (numbered s number).toList = s ++ Nat.toDigits 10 number := by
  rw [numbered, String.toList_ofList]
  exact congrArg (s ++ ·) Nat.toList_repr

theorem numbered_inj {s : List Char} {i j : Nat} (h : numbered s i = numbered s j) : i = j := by
  have htext := congrArg String.toList h
  rw [toList_numbered, toList_numbered, List.append_cancel_left_eq] at htext
  have hvalue := congrArg Decimal.digitsValue htext
  have hread : ∀ n, Decimal.digitsValue (Nat.toDigits 10 n) = n :=
    fun n => Nat.ofDigitChars_ten_toDigits
  rwa [hread, hread] at hvalue

theorem isNamePart_stem : ∀ c ∈ stem k, Lexer.isNamePart c = true := by
  intro c hc
  rcases List.mem_append.mp hc with hc | hc
  · rw [List.eq_of_mem_replicate hc]
    rfl
  · have hall : baseStem.all Lexer.isNamePart = true := by decide
    exact List.all_eq_true.mp hall c hc

theorem stem_cons (k : Nat) : ∃ rest, stem k = '_' :: rest := by
  cases k with
  | zero => exact ⟨_, rfl⟩
  | succ k => exact ⟨_, stem_succ k⟩

/-- No keyword begins with an underscore. -/
theorem ofWord?_of_underscore {word : String} (h : word.toList.head? = some '_') :
    Symbol.ofWord? word = none := by
  refine List.find?_eq_none.mpr fun s hs htext => ?_
  rw [beq_iff_eq] at htext
  have hall : Symbol.keywords.all (fun s => s.text.toList.head? != some '_') = true := by decide
  have hhead := List.all_eq_true.mp hall s hs
  rw [htext, h] at hhead
  exact absurd hhead (by decide)

theorem isName_numbered (k number : Nat) : Lexer.IsName (numbered (stem k) number) := by
  obtain ⟨rest, hstem⟩ := stem_cons k
  have htext := toList_numbered (stem k) number
  refine ⟨?_, ?_⟩
  · rw [htext, hstem, List.cons_append, Lexer.isWord, Bool.and_eq_true, List.all_eq_true]
    refine ⟨rfl, ?_⟩
    intro c hc
    rcases List.mem_append.mp hc with hc | hc
    · exact isNamePart_stem c (hstem ▸ List.mem_cons_of_mem '_' hc)
    · have hdigit := Nat.isDigit_of_mem_toDigits (by decide) (by decide) hc
      have hpart : ((c.isAlpha || c.isDigit) || c = '_') = true := by simp [hdigit]
      exact hpart
  · refine ofWord?_of_underscore ?_
    rw [htext, hstem]
    rfl

theorem ne_numbered_of_infix {n : String} (h : n.toList <:+: template) (number : Nat) :
    n ≠ numbered (stemFor template) number := by
  rintro rfl
  obtain ⟨m, hstem, hfree, -⟩ := stemFor_spec template
  rw [hstem, toList_numbered] at h
  exact hfree ((List.prefix_append _ _).isInfix.trans h)

end Lowering

end ComponentMarkup
