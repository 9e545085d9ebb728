import ComponentMarkup.Json.Draft
import ComponentMarkup.Json.Printer
import ComponentMarkup.Proofs.Text.Splitting

/-!
# Reading what was written

JSON without numbers is read back from its text (`Json.IsTextual.read_render`). The brackets of arrays and
objects are read alike, so that one lemma covers both (`Draft.bracketed_join`).
-/

namespace ComponentMarkup

/-- JSON without numbers. -/
inductive Json.IsTextual : Json → Prop where
  | null : IsTextual .null
  | bool (b : Bool) : IsTextual (.bool b)
  | str (s : String) : IsTextual (.str s)
  | arr {items : List Json} : (∀ j ∈ items, IsTextual j) → IsTextual (.arr items)
  | obj {members : List (String × Json)} : (∀ m ∈ members, IsTextual m.2) → IsTextual (.obj members)

namespace Json

theorem itemTexts_eq_map (items : List Json) : itemTexts items = items.map chars := by
  induction items with
  | nil => rfl
  | cons j items ih => rw [itemTexts, ih, List.map_cons]

theorem memberTexts_eq_map (members : List (String × Json)) :
    memberTexts members = members.map fun m => quoted m.1 ++ ':' :: m.2.chars := by
  induction members with
  | nil => rfl
  | cons m members ih => rw [memberTexts, ih, List.map_cons]

/-- There are no more parts than a text with commas between them has room for, and each fits into it. -/
theorem length_le_join (texts : List (List Char)) :
    texts.length ≤ (Text.join [','] texts).length + 1 ∧
      ∀ text ∈ texts, text.length ≤ (Text.join [','] texts).length := by
  induction texts with
  | nil => simp
  | cons text texts ih =>
    cases texts with
    | nil => simp [Text.join_singleton]
    | cons next texts =>
      rw [Text.join_cons_cons]
      simp only [List.length_cons, List.length_append, List.length_nil, List.forall_mem_cons] at ih ⊢
      refine ⟨by omega, by omega, by omega, fun t ht => ?_⟩
      have := ih.2.2 t ht
      omega

theorem bracketed_append (opening closing : Char) (texts : List (List Char)) (rest : List Char) :
    bracketed opening closing texts ++ rest = opening :: (Text.join [','] texts ++ closing :: rest) := by
  simp [bracketed]

theorem length_lt_bracketed {opening closing : Char} {text : List Char} {texts : List (List Char)}
    (h : text ∈ texts) : text.length < (bracketed opening closing texts).length := by
  have := (length_le_join texts).2 text h
  rw [bracketed, List.length_append, List.length_cons]
  omega

end Json

namespace Draft

open Json (escapeChar shortEscape? controlCode quoted)

theorem ofItems_eq_map (items : List Json) : ofItems items = items.map ofJson := by
  induction items with
  | nil => rfl
  | cons j items ih => rw [ofItems, ih, List.map_cons]

theorem ofMembers_eq_map (members : List (String × Json)) :
    ofMembers members = members.map fun m => (.str m.1, ofJson m.2) := by
  induction members with
  | nil => rfl
  | cons m members ih => rw [ofMembers, ih, List.map_cons]

/-! ## Strings -/

theorem simpleEscape?_of_shortEscape? {c letter : Char} (h : shortEscape? c = some letter) :
    simpleEscape? letter = some c := by
  unfold shortEscape? at h
  split at h <;> cases h <;> rfl

theorem controlCode_spec : ∀ n < 0x20, (controlCode n).length = 4 ∧
    Text.hexValue? (controlCode n) = some n := by
  decide +kernel

theorem units?_escapeChar (c : Char) (rest : List Char) :
    units? (escapeChar c ++ rest) = (units? rest).map fun r => (c.toNat :: r.1, r.2) := by
  unfold escapeChar
  split
  case h_1 letter hletter =>
    rw [units?.eq_def]
    simp [simpleEscape?_of_shortEscape? hletter]
  case h_2 hnone =>
    split
    case isTrue hcontrol =>
      obtain ⟨hlength, hvalue⟩ := controlCode_spec c.toNat hcontrol
      obtain ⟨a, b, d, e, hdigits⟩ := List.length_eq_four.mp hlength
      rw [hdigits] at hvalue ⊢
      rw [units?.eq_def]
      simp [hvalue, simpleEscape?]
    case isFalse hplain =>
      have hquote : c ≠ '"' := by rintro rfl; cases hnone
      have hslash : c ≠ '\\' := by rintro rfl; cases hnone
      rw [units?.eq_def]
      simp [hquote, hslash, hplain]

theorem decodeUnits?_toNat (text : List Char) :
    decodeUnits? (text.map Char.toNat) = some text := by
  induction text with
  | nil => rfl
  | cons c text ih =>
    have hvalid : c.toNat < 0xD800 ∨ 0xDFFF < c.toNat ∧ c.toNat < 0x110000 := c.valid
    rw [List.map_cons, decodeUnits?.eq_def]
    simp only [ih, Option.map_some, Char.ofNat_toNat]
    rw [if_neg (by omega), if_neg (by omega)]

theorem quoted_append (s : String) (rest : List Char) :
    quoted s ++ rest = '"' :: (s.toList.flatMap escapeChar ++ '"' :: rest) := by
  simp [quoted]

theorem string_escaped (s : String) (rest : List Char) :
    string (s.toList.flatMap escapeChar ++ '"' :: rest) = (.str s, rest) := by
  have hunits : ∀ text : List Char,
      units? (text.flatMap escapeChar ++ '"' :: rest) = some (text.map Char.toNat, rest) := by
    intro text
    induction text with
    | nil => rw [List.flatMap_nil, List.nil_append, units?.eq_def]; rfl
    | cons c text ih => rw [List.flatMap_cons, List.append_assoc, units?_escapeChar, ih]; rfl
  rw [string, hunits]
  simp only [decodeUnits?_toNat, String.ofList_toList]

/-! ## Brackets -/

section

variable {α : Type} {closing : Char} {broken : α} {part : List Char → α × List Char}
  {texts : List (List Char)} {items : List α} {rest : List Char}

/-- A text begins neither with space nor with the closing bracket, and the part is read from it, whatever
follows. -/
structure ReadAs (closing : Char) (part : List Char → α × List Char) (text : List Char) (item : α) :
    Prop where
  start : ∃ c more, text = c :: more ∧ isSpace c = false ∧ c ≠ closing
  part : ∀ rest, part (text ++ rest) = (item, rest)

theorem sequence_join (hclosing : isSpace closing = false ∧ closing ≠ ',')
    (h : List.Forall₂ (ReadAs closing part) texts items) (hne : texts ≠ []) {bound : Nat}
    (hbound : texts.length ≤ bound) :
    sequence closing broken part bound (Text.join [','] texts ++ closing :: rest) = (items, rest) := by
  induction h generalizing bound with
  | nil => exact absurd rfl hne
  | @cons text item texts items hread htexts ih =>
    obtain ⟨bound, rfl⟩ : ∃ b, bound = b + 1 := ⟨bound - 1, by simp at hbound; omega⟩
    cases htexts with
    | nil => simp [sequence, Text.join_singleton, hread.part, skipSpace, hclosing]
    | cons hread' htexts =>
      have hmore := ih (List.cons_ne_nil _ _) (Nat.le_of_succ_le_succ hbound)
      rw [Text.join_cons_cons, List.append_assoc, List.append_assoc, List.singleton_append]
      simp [sequence, hread.part, skipSpace, isSpace, hmore]

theorem bracketed_join (hclosing : isSpace closing = false ∧ closing ≠ ',')
    (h : List.Forall₂ (ReadAs closing part) texts items) :
    bracketed closing broken part (Text.join [','] texts ++ closing :: rest) = (items, rest) := by
  cases h with
  | nil => simp [bracketed, Text.join, skipSpace, hclosing]
  | @cons text item texts items hread htexts =>
    obtain ⟨c, more, rfl, hspace, hc⟩ := hread.start
    have hstart : ∃ tail, Text.join [','] ((c :: more) :: texts) ++ closing :: rest = c :: tail := by
      cases texts with
      | nil => exact ⟨_, by rw [Text.join_singleton, List.cons_append]⟩
      | cons next texts => exact ⟨_, by rw [Text.join_cons_cons]; rfl⟩
    have hbound : ((c :: more) :: texts).length ≤
        (Text.join [','] ((c :: more) :: texts) ++ closing :: rest).length + 1 := by
      have := (Json.length_le_join ((c :: more) :: texts)).1
      rw [List.length_append]
      omega
    have hread := @sequence_join _ _ broken _ _ _ rest hclosing (.cons hread htexts)
      (List.cons_ne_nil _ _) _ hbound
    obtain ⟨tail, htail⟩ := hstart
    rw [htail] at hread ⊢
    simpa [bracketed, skipSpace, hspace, hc] using hread

end

end Draft

/-! ## Values -/

namespace Json.IsTextual

/-- The text of a value begins with a character that is neither space nor a closing bracket. -/
theorem exists_start {j : Json} (hj : j.IsTextual) : ∃ c text, j.chars = c :: text ∧
    Draft.isSpace c = false ∧ c ≠ ']' := by
  cases hj with
  | null => exact ⟨'n', _, rfl, rfl, by decide⟩
  | bool b =>
    cases b with
    | true => exact ⟨'t', _, rfl, rfl, by decide⟩
    | false => exact ⟨'f', _, rfl, rfl, by decide⟩
  | str s => exact ⟨'"', _, rfl, rfl, by decide⟩
  | arr _ => exact ⟨'[', _, rfl, rfl, by decide⟩
  | obj _ => exact ⟨'\x7b', _, rfl, rfl, by decide⟩

theorem value_chars {j : Json} (hj : j.IsTextual) : ∀ depth rest, j.chars.length ≤ depth →
    Draft.value (depth + 1) (j.chars ++ rest) = (.ofJson j, rest) := by
  induction hj with
  | null => exact fun _ _ _ => rfl
  | bool b => cases b <;> exact fun _ _ _ => rfl
  | str s =>
    intro depth rest _
    rw [chars, Draft.quoted_append]
    exact Draft.string_escaped s rest
  | @arr items hitems ih =>
    intro depth rest hdepth
    rw [chars, itemTexts_eq_map] at hdepth ⊢
    have hread : List.Forall₂ (Draft.ReadAs ']' (Draft.value depth)) (items.map chars)
        (Draft.ofItems items) := by
      rw [Draft.ofItems_eq_map, List.forall₂_map_left_iff, List.forall₂_map_right_iff, List.forall₂_same]
      intro j hj
      have hlength := (length_lt_bracketed (List.mem_map_of_mem hj)).trans_le hdepth
      obtain ⟨depth, rfl⟩ := Nat.exists_eq_add_one_of_ne_zero (Nat.ne_zero_of_lt hlength)
      exact ⟨(hitems j hj).exists_start, fun rest => ih j hj depth rest (Nat.le_of_lt_succ hlength)⟩
    rw [bracketed_append]
    exact congrArg (fun r => (Draft.arr r.1, r.2)) (Draft.bracketed_join (by decide) hread)
  | @obj members hmembers ih =>
    intro depth rest hdepth
    rw [chars, memberTexts_eq_map] at hdepth ⊢
    have hread : List.Forall₂ (Draft.ReadAs '\x7d' (Draft.member (Draft.value depth)))
        (members.map fun m => quoted m.1 ++ ':' :: m.2.chars) (Draft.ofMembers members) := by
      rw [Draft.ofMembers_eq_map, List.forall₂_map_left_iff, List.forall₂_map_right_iff, List.forall₂_same]
      intro m hm
      have hlength := (length_lt_bracketed (List.mem_map_of_mem hm)).trans_le hdepth
      obtain ⟨depth, rfl⟩ := Nat.exists_eq_add_one_of_ne_zero (Nat.ne_zero_of_lt hlength)
      rw [List.length_append, List.length_cons] at hlength
      refine ⟨⟨'"', _, rfl, rfl, by decide⟩, fun rest => ?_⟩
      rw [List.append_assoc, Draft.quoted_append]
      simp [Draft.member, Draft.skipSpace, Draft.isSpace, Draft.string_escaped, ih m hm depth rest (by omega)]
    rw [bracketed_append]
    exact congrArg (fun r => (Draft.obj r.1, r.2)) (Draft.bracketed_join (by decide) hread)

theorem read_render {j : Json} (hj : j.IsTextual) : Draft.read j.render.toList = (.ofJson j, []) := by
  rw [Json.render, String.toList_ofList, Draft.read]
  have h := hj.value_chars j.chars.length [] le_rfl
  rw [List.append_nil] at h
  rw [h]
  rfl

end Json.IsTextual

end ComponentMarkup
