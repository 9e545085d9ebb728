import ComponentMarkup.Proofs.Expr.Printed

/-!
# Lexing printed expressions

The text of a part falls into the tokens that the part is printed as, whatever text follows it that
cannot continue its last word. Only an integer must not be followed by a point.
-/

namespace ComponentMarkup

open Lexer

variable {part : Part} {c : Char} {rest : List Char} {α : Type} {tokens : List Token}

/-- The text of a part. -/
def Part.print : Part → List Char
  | .target t => t.print
  | .targets ts => Target.printItems ts
  | .expr e => e.print
  | .items es => Expr.printItems es
  | .entries es => Expr.printEntries es
  | .argument a => a.print
  | .arguments args => Expr.printArguments args
  | .links cs => Expr.printComparisons cs
  | .clauses cs => Expr.printClauses cs
  | .conditions es => Expr.printConditions es
  | .bound b => Expr.printOptional b
  | .subscript e => e.print
  | .subscripts es => Expr.printItems es
  | .index (.tuple (e :: es)) =>
    Expr.printItems (e :: es) ++ (if es.isEmpty then [','] else [])
  | .index e => e.print
  | .source e => e.print

/-! ## Separators -/

/-- The text between an item and further ones. -/
def separator {α : Type} (rest : List α) : List Char :=
  if rest.isEmpty then [] else [',', ' ']

/-- The text after the only item of a tuple. -/
def loneText {α : Type} (items : List α) : List Char :=
  if items.length = 1 then [','] else []

/-- The text of a keyword between blanks, before a text. -/
def spaced (s : Symbol) (rest : List Char) : List Char :=
  ' ' :: (s.text.toList ++ ' ' :: rest)

theorem spaced_append (s : Symbol) (rest more : List Char) :
    spaced s rest ++ more = spaced s (rest ++ more) := by
  simp [spaced]

/-! ## The texts of parts -/

namespace Expr

theorem print_dict (es : List (Expr × Expr)) :
    (dict es).print = '\x7b' :: (printEntries es ++ ['\x7d']) := rfl

theorem print_list (es : List Expr) : (list es).print = '[' :: (printItems es ++ [']']) := rfl

theorem print_tuple (es : List Expr) :
    (tuple es).print = '(' :: (printItems es ++ loneText es ++ [')']) := rfl

theorem print_generator (e : Expr) (cs : List Clause) :
    (generator e cs).print = '(' :: (e.print ++ printClauses cs ++ [')']) := rfl

theorem print_listComp (e : Expr) (cs : List Clause) :
    (listComp e cs).print = '[' :: (e.print ++ printClauses cs ++ [']']) := rfl

theorem print_dictComp (k e : Expr) (cs : List Clause) :
    (dictComp k e cs).print =
      '\x7b' :: (k.print ++ [':', ' '] ++ e.print ++ printClauses cs ++ ['\x7d']) := rfl

theorem print_member (e : Expr) (attr : String) :
    (Expr.attribute e attr).print = e.print ++ ['.'] ++ attr.toList := rfl

theorem print_call (f : Expr) (args : List Argument) :
    (call f args).print = f.print ++ ['('] ++ printArguments args ++ [')'] := rfl

theorem print_binary (op : BinaryOp) (a b : Expr) :
    (binary op a b).print =
      '(' :: (a.print ++ [' '] ++ op.text.toList ++ [' '] ++ b.print ++ [')']) := rfl

theorem print_neg (a : Expr) : (unary .neg a).print = '(' :: '-' :: (a.print ++ [')']) := rfl

theorem print_pos (a : Expr) : (unary .pos a).print = '(' :: '+' :: (a.print ++ [')']) := rfl

theorem print_not (a : Expr) :
    (unary .not a).print = '(' :: (Symbol.not.text.toList ++ ' ' :: (a.print ++ [')'])) := rfl

theorem print_logic (op : BoolOp) (a b : Expr) :
    (logic op a b).print =
      '(' :: (a.print ++ [' '] ++ op.text.toList ++ [' '] ++ b.print ++ [')']) := rfl

theorem print_compare (a : Expr) (cs : List (CompareOp × Expr)) :
    (compare a cs).print = '(' :: (a.print ++ printComparisons cs ++ [')']) := rfl

theorem print_conditional (t a b : Expr) :
    (conditional t a b).print =
      '(' :: (a.print ++ spaced .if (t.print ++ spaced .else (b.print ++ [')']))) := by
  have hprint : (conditional t a b).print =
      '(' :: (a.print ++ " if ".toList ++ t.print ++ " else ".toList ++ b.print ++ [')']) := rfl
  simp [hprint, spaced, Symbol.text]

theorem print_slice (l u : Option Expr) :
    (slice l u none).print = printOptional l ++ ':' :: printOptional u := by
  have hprint : (slice l u none).print =
      printOptional l ++ [':'] ++ printOptional u ++ [] := rfl
  simp [hprint]

theorem print_sliceStep (l u : Option Expr) (s : Expr) :
    (slice l u (some s)).print = printOptional l ++ ':' :: (printOptional u ++ ':' :: s.print) := by
  have hprint : (slice l u (some s)).print =
      printOptional l ++ [':'] ++ printOptional u ++ ':' :: s.print := rfl
  simp [hprint]

theorem printItems_cons (e : Expr) (es : List Expr) :
    printItems (e :: es) = e.print ++ separator es ++ printItems es := by
  cases es with
  | nil => simp [separator, show printItems [e] = e.print from rfl, show printItems [] = [] from rfl]
  | cons e' es => rfl

theorem printEntries_cons (k e : Expr) (es : List (Expr × Expr)) :
    printEntries ((k, e) :: es) =
      k.print ++ [':', ' '] ++ e.print ++ separator es ++ printEntries es := by
  cases es with
  | nil =>
    simp [separator, show printEntries [(k, e)] = k.print ++ [':', ' '] ++ e.print from rfl,
      show printEntries [] = [] from rfl]
  | cons e' es => rfl

theorem printArguments_cons (a : Argument) (args : List Argument) :
    printArguments (a :: args) = a.print ++ separator args ++ printArguments args := by
  cases args with
  | nil =>
    simp [separator, show printArguments [a] = a.print from rfl,
      show printArguments [] = [] from rfl]
  | cons a' args => rfl

theorem printComparisons_cons (op : CompareOp) (e : Expr) (cs : List (CompareOp × Expr)) :
    printComparisons ((op, e) :: cs) =
      ' ' :: (op.text.toList ++ [' '] ++ e.print ++ printComparisons cs) := rfl

theorem printClauses_cons (t : Target) (e : Expr) (conds : List Expr) (cs : List Clause) :
    printClauses (⟨t, e, conds⟩ :: cs) =
      spaced .for (t.print ++ spaced .in (e.print ++ (printConditions conds ++ printClauses cs))) := by
  have hprint : printClauses (⟨t, e, conds⟩ :: cs) =
      " for ".toList ++ t.print ++ " in ".toList ++ e.print ++ printConditions conds ++
        printClauses cs := rfl
  simp [hprint, spaced, Symbol.text]

theorem printConditions_cons (e : Expr) (es : List Expr) :
    printConditions (e :: es) = spaced .if (e.print ++ printConditions es) := by
  have hprint : printConditions (e :: es) =
      " if ".toList ++ e.print ++ printConditions es := rfl
  simp [hprint, spaced, Symbol.text]

end Expr

theorem Target.printItems_cons (t : Target) (ts : List Target) :
    Target.printItems (t :: ts) = t.print ++ separator ts ++ Target.printItems ts := by
  cases ts <;> simp [Target.printItems, separator]

theorem Target.print_tuple (ts : List Target) :
    (Target.tuple ts).print = '(' :: (Target.printItems ts ++ loneText ts ++ [')']) := rfl

theorem Part.print_index_tuple (e : Expr) (es : List Expr) :
    (Part.index (.tuple (e :: es))).print = Expr.printItems (e :: es) ++ loneText (e :: es) := by
  simp [Part.print, loneText]

theorem Part.print_index {e : Expr} (h : ∀ i is, e ≠ .tuple (i :: is)) :
    (Part.index e).print = e.print := by
  rw [Part.print]
  exact h

theorem Expr.print_subscript (e i : Expr) :
    (Expr.subscript e i).print = e.print ++ ['['] ++ (Part.index i).print ++ [']'] := by
  match i with
  | .tuple (j :: js) =>
    have hprint : (Expr.subscript e (.tuple (j :: js))).print =
        e.print ++ ['['] ++ Expr.printItems (j :: js) ++ (if js.isEmpty then [','] else []) ++
          [']'] := rfl
    simp [hprint, Part.print]
  | .tuple [] | .constant _ | .name _ | .list _ | .dict _ | .attribute _ _ | .subscript _ _
  | .slice _ _ _ | .call _ _ | .binary _ _ _ | .unary _ _ | .logic _ _ _ | .compare _ _
  | .conditional _ _ _ | .listComp _ _ | .generator _ _ | .dictComp _ _ _ => rfl

/-! ## What may follow a part -/

/-- A point may follow every expression but an integer. -/
def Part.TakesPoint : Part → Prop
  | .expr e => ∀ i, e ≠ .constant (.int i)
  | _ => False

/-- A text can stand after the text of a part. -/
def Follows (part : Part) (rest : List Char) : Prop :=
  Stops rest ∧ (rest.head? = some '.' → part.TakesPoint)

theorem follows_cons (hc : c ∈ stops ∧ c ≠ '.') : Follows part (c :: rest) :=
  ⟨stops_cons hc.1, fun h => absurd (Option.some.inj h) hc.2⟩

theorem lexes_close (h : Lexes rest tokens) : Lexes (')' :: rest) (.symbol .rparen :: tokens) :=
  lexes_mark (by decide) h

theorem follows_nil (part : Part) : Follows part [] :=
  ⟨stops_nil, fun h => nomatch h⟩

/-- What follows a part that takes no point can follow any part. -/
theorem Follows.any {other : Part} (h : Follows part rest) (hpart : ¬part.TakesPoint) :
    Follows other rest :=
  ⟨h.1, fun hdot => absurd (h.2 hdot) hpart⟩

theorem follows_loneText (items : List α) (hc : c ∈ stops) (hdot : c ≠ '.') :
    Follows part (loneText items ++ c :: rest) := by
  unfold loneText
  split
  · exact follows_cons (by decide)
  · exact follows_cons ⟨hc, hdot⟩

/-- What follows an item, if what follows the last one is known. -/
theorem follows_separator (items : List α) {text : List Char} (htext : items = [] → text = [])
    (h : Follows part rest) : Follows part (separator items ++ (text ++ rest)) := by
  unfold separator
  split
  · next hempty =>
    rw [htext (List.isEmpty_iff.mp hempty)]
    exact h
  · exact follows_cons (by decide)

theorem lexes_loneText (items : List α) (h : Lexes rest tokens) :
    Lexes (loneText items ++ rest) (loneComma items ++ tokens) := by
  unfold loneText loneComma
  split
  · exact lexes_mark (by decide) h
  · exact h

theorem lexes_separator (items : List α) (h : Lexes rest tokens) :
    Lexes (separator items ++ rest) (commaBefore items ++ tokens) := by
  unfold separator commaBefore
  split
  · exact h
  · exact lexes_mark (by decide) (lexes_blank h)

theorem lexes_spaced {s : Symbol} (hs : s ∈ Symbol.keywords) (h : Lexes rest tokens) :
    Lexes (spaced s rest) (.symbol s :: tokens) :=
  lexes_blank (lexes_keyword hs (stops_cons (by decide)) (lexes_blank h))

theorem follows_links (cs : List (CompareOp × Expr)) (h : Follows part rest) :
    Follows part (Expr.printComparisons cs ++ rest) := by
  cases cs with
  | nil => exact h
  | cons c cs =>
    obtain ⟨op, e⟩ := c
    rw [Expr.printComparisons_cons]
    exact follows_cons (by decide)

theorem follows_clauses (cs : List Clause) (h : Follows part rest) :
    Follows part (Expr.printClauses cs ++ rest) := by
  cases cs with
  | nil => exact h
  | cons c cs =>
    obtain ⟨t, e, conds⟩ := c
    rw [Expr.printClauses_cons]
    exact follows_cons (by decide)

theorem follows_conditions (es : List Expr) (h : Follows part rest) :
    Follows part (Expr.printConditions es ++ rest) := by
  cases es with
  | nil => exact h
  | cons e es =>
    rw [Expr.printConditions_cons]
    exact follows_cons (by decide)

/-! ## How the text of an expression begins -/

/-- The text of an expression begins with no star and no equals sign, which would join those before
it. -/
theorem Printed.head_print {e : Expr} {ts : List Token} (h : Printed (.expr e) ts) :
    ∃ c more, e.print = c :: more ∧ c ≠ '*' ∧ c ≠ '=' := by
  match h with
  | .name hname =>
    obtain ⟨c, more, hc, hstart⟩ := hname.head
    refine ⟨c, more, hc, ?_, ?_⟩ <;> rintro rfl <;> exact absurd hstart (by decide)
  | .int (i := i) hi =>
    cases htext : Nat.toDigits 10 i.toInt.toNat with
    | nil => exact absurd htext Nat.toDigits_ne_nil
    | cons c more =>
      have hdigit : c.isDigit = Bool.true :=
        Nat.isDigit_of_mem_toDigits (by decide) (by decide) (htext ▸ List.mem_cons_self)
      refine ⟨c, more, (toList_toString_int hi).trans htext, ?_, ?_⟩ <;>
      rintro rfl <;> exact absurd hdigit (by decide)
  | .float ⟨whole, fraction, hwhole, hdigits, htext, _⟩ =>
    cases whole with
    | nil => exact absurd rfl hwhole
    | cons c more =>
      have hdigit := hdigits c (by simp)
      refine ⟨c, _, htext, ?_, ?_⟩ <;> rintro rfl <;> exact absurd hdigit (by decide)
  | .none => exact ⟨'N', _, rfl, by decide⟩
  | .true => exact ⟨'T', _, rfl, by decide⟩
  | .false => exact ⟨'F', _, rfl, by decide⟩
  | .str text =>
    have hquote := quoteFor_mem_quotes text.toList
    refine ⟨_, _, rfl, ?_, ?_⟩ <;> intro heq <;> rw [heq] at hquote <;>
    exact absurd hquote (by decide)
  | .tuple _ => exact ⟨_, _, Expr.print_tuple _, by decide⟩
  | .list _ | .listComp _ _ _ => exact ⟨'[', _, rfl, by decide⟩
  | .dict _ | .dictComp _ _ _ _ => exact ⟨'\x7b', _, rfl, by decide⟩
  | .generator _ _ _ | .binary _ _ _ | .unary .neg _ | .unary .pos _ | .logic _ _ _
  | .compare _ _ _ => exact ⟨'(', _, rfl, by decide⟩
  | .member he _ _ =>
    obtain ⟨c, more, hc, hne⟩ := he.head_print
    exact ⟨c, _, by rw [Expr.print_member, hc]; rfl, hne⟩
  | .subscripted he _ =>
    obtain ⟨c, more, hc, hne⟩ := he.head_print
    exact ⟨c, _, by rw [Expr.print_subscript, hc]; rfl, hne⟩
  | .call hf _ _ =>
    obtain ⟨c, more, hc, hne⟩ := hf.head_print
    exact ⟨c, _, by rw [Expr.print_call, hc]; rfl, hne⟩
  | .unary .not _ => exact ⟨_, _, Expr.print_not _, by decide⟩
  | .conditional _ _ _ => exact ⟨_, _, Expr.print_conditional _ _ _, by decide⟩

/-! ## The tokens of a printed part -/

theorem lexes_print {ts : List Token} (h : Printed part ts) :
    ∀ {rest : List Char} {rts : List Token}, Follows part rest → Lexes rest rts →
      Lexes (part.print ++ rest) (ts ++ rts) := by
  -- the words of a part are put in front of `rest` from the last to the first
  induction h
  all_goals intro rest rts hrest hlex
  case targetName hname => exact lexes_name hname hrest.1 hlex
  case targetTuple ts us _ _ ih =>
    simp only [Part.print, Target.print_tuple, List.cons_append, List.nil_append, List.append_assoc]
    refine lexes_mark (by decide) (ih (follows_loneText ts (by decide) (by decide)) ?_)
    exact lexes_loneText ts (lexes_mark (by decide) hlex)
  case targetsNil => exact hlex
  case targetsCons t ts us vs _ _ ih₁ ih₂ =>
    simp only [Part.print, Target.printItems_cons, List.append_assoc]
    refine ih₁ (follows_separator ts ?_ (hrest.any id))
      (lexes_separator ts (ih₂ (hrest.any id) hlex))
    rintro rfl
    rfl
  case name hname => exact lexes_name hname hrest.1 hlex
  case int i hi =>
    refine lexes_int hi hrest.1 (fun hdot => ?_) hlex
    exact hrest.2 hdot i rfl
  case float hx => exact lexes_float hx hrest.1 hlex
  case none => exact lexes_keyword (s := .none) (by decide) hrest.1 hlex
  case true => exact lexes_keyword (s := .true) (by decide) hrest.1 hlex
  case false => exact lexes_keyword (s := .false) (by decide) hrest.1 hlex
  case str text => exact lexes_quoted text hrest.1 hlex
  case tuple es us _ ih =>
    simp only [Part.print, Expr.print_tuple, List.cons_append, List.nil_append, List.append_assoc]
    refine lexes_mark (by decide) (ih (follows_loneText es (by decide) (by decide)) ?_)
    exact lexes_loneText es (lexes_mark (by decide) hlex)
  case list ih =>
    simp only [Part.print, Expr.print_list, List.cons_append, List.nil_append, List.append_assoc]
    exact lexes_mark (by decide) (ih (follows_cons (by decide)) (lexes_mark (by decide) hlex))
  case dict ih =>
    simp only [Part.print, Expr.print_dict, List.cons_append, List.nil_append, List.append_assoc]
    exact lexes_mark (by decide) (ih (follows_cons (by decide)) (lexes_mark (by decide) hlex))
  case generator e cs us vs _ _ _ ih₁ ih₂ =>
    simp only [Part.print, Expr.print_generator, List.cons_append, List.nil_append,
      List.append_assoc]
    have hclose := lexes_close hlex
    have hclauses := ih₂ (follows_cons (by decide)) hclose
    exact lexes_mark (by decide) (ih₁ (follows_clauses cs (follows_cons (by decide))) hclauses)
  case listComp e cs us vs _ _ _ ih₁ ih₂ =>
    simp only [Part.print, Expr.print_listComp, List.cons_append, List.nil_append,
      List.append_assoc]
    have hclose := lexes_mark (c := ']') (s := .rbracket) (by decide) hlex
    have hclauses := ih₂ (follows_cons (by decide)) hclose
    exact lexes_mark (by decide) (ih₁ (follows_clauses cs (follows_cons (by decide))) hclauses)
  case dictComp k e cs us vs ws _ _ _ _ ih₁ ih₂ ih₃ =>
    simp only [Part.print, Expr.print_dictComp, List.cons_append, List.nil_append,
      List.append_assoc]
    have hclose := lexes_mark (c := '\x7d') (s := .rbrace) (by decide) hlex
    have hclauses := ih₃ (follows_cons (by decide)) hclose
    have hvalue := ih₂ (follows_clauses cs (follows_cons (by decide))) hclauses
    have hcolon := lexes_mark (c := ':') (s := .colon) (by decide) (lexes_blank hvalue)
    exact lexes_mark (by decide) (ih₁ (follows_cons (by decide)) hcolon)
  case member e attr us _ hattr hint ih =>
    simp only [Part.print, Expr.print_member, List.cons_append, List.nil_append, List.append_assoc]
    have hname := lexes_dot hattr (lexes_name hattr hrest.1 hlex)
    exact ih ⟨stops_cons (by decide), fun _ => hint⟩ hname
  case subscripted ih₁ ih₂ =>
    simp only [Part.print, Expr.print_subscript, List.cons_append, List.nil_append,
      List.append_assoc]
    have hclose := lexes_mark (c := ']') (s := .rbracket) (by decide) hlex
    have hindex := lexes_mark (c := '[') (s := .lbracket) (by decide)
      (ih₂ (follows_cons (by decide)) hclose)
    exact ih₁ (follows_cons (by decide)) hindex
  case call ih₁ ih₂ =>
    simp only [Part.print, Expr.print_call, List.cons_append, List.nil_append, List.append_assoc]
    have hclose := lexes_close hlex
    have hargs := lexes_mark (c := '(') (s := .lparen) (by decide) (ih₂ (follows_cons (by decide)) hclose)
    exact ih₁ (follows_cons (by decide)) hargs
  case binary op _ _ ih₁ ih₂ =>
    simp only [Part.print, Expr.print_binary, List.cons_append, List.nil_append, List.append_assoc]
    have hright := ih₂ (follows_cons (by decide)) (lexes_close hlex)
    have hop := lexes_blank (lexes_binaryOp op hright)
    exact lexes_mark (by decide) (ih₁ (follows_cons (by decide)) hop)
  case unary op _ ih =>
    have hoperand := ih (follows_cons (by decide)) (lexes_close hlex)
    cases op with
    | neg =>
      simp only [Part.print, Expr.print_neg, List.cons_append, List.nil_append, List.append_assoc]
      exact lexes_mark (by decide) (lexes_mark (by decide) hoperand)
    | pos =>
      simp only [Part.print, Expr.print_pos, List.cons_append, List.nil_append, List.append_assoc]
      exact lexes_mark (by decide) (lexes_mark (by decide) hoperand)
    | not =>
      simp only [Part.print, Expr.print_not, List.cons_append, List.nil_append, List.append_assoc]
      exact lexes_mark (by decide)
        (lexes_keyword (by decide) (stops_cons (by decide)) (lexes_blank hoperand))
  case logic op _ _ ih₁ ih₂ =>
    simp only [Part.print, Expr.print_logic, List.cons_append, List.nil_append, List.append_assoc]
    have hright := ih₂ (follows_cons (by decide)) (lexes_close hlex)
    have hop := lexes_blank (lexes_boolOp op hright)
    exact lexes_mark (by decide) (ih₁ (follows_cons (by decide)) hop)
  case compare a cs us vs _ _ _ ih₁ ih₂ =>
    simp only [Part.print, Expr.print_compare, List.cons_append, List.nil_append, List.append_assoc]
    have hlinks := ih₂ (follows_cons (by decide)) (lexes_close hlex)
    exact lexes_mark (by decide) (ih₁ (follows_links cs (follows_cons (by decide))) hlinks)
  case conditional ih₁ ih₂ ih₃ =>
    simp only [Part.print, Expr.print_conditional, spaced_append, List.cons_append, List.nil_append,
      List.append_assoc]
    have horelse := ih₃ (follows_cons (by decide)) (lexes_close hlex)
    have htest := ih₂ (follows_cons (by decide)) (lexes_spaced (s := .else) (by decide) horelse)
    have hbody := ih₁ (follows_cons (by decide)) (lexes_spaced (s := .if) (by decide) htest)
    exact lexes_mark (by decide) hbody
  case itemsNil => exact hlex
  case itemsCons e es us vs _ _ ih₁ ih₂ =>
    simp only [Part.print, Expr.printItems_cons, List.append_assoc]
    refine ih₁ (follows_separator es ?_ (hrest.any id))
      (lexes_separator es (ih₂ (hrest.any id) hlex))
    rintro rfl
    rfl
  case entriesNil => exact hlex
  case entriesCons k e es us vs ws _ _ _ ih₁ ih₂ ih₃ =>
    simp only [Part.print, Expr.printEntries_cons, List.cons_append, List.nil_append,
      List.append_assoc]
    have hmore := lexes_separator es (ih₃ (hrest.any id) hlex)
    have hvalue := ih₂ (follows_separator es (by rintro rfl; rfl) (hrest.any id)) hmore
    exact ih₁ (follows_cons (by decide)) (lexes_mark (by decide) (lexes_blank hvalue))
  case positional ih => exact ih (hrest.any id) hlex
  case keyword e us n he hname ih =>
    have hvalue := ih (hrest.any id) hlex
    obtain ⟨c, more, htext, -, hc⟩ := he.head_print
    have hassign : ((Part.expr e).print ++ rest).head? ≠ some '=' := by
      rw [Part.print, htext]
      exact fun h => hc (Option.some.inj h)
    have hprint : (Part.argument (.keyword n e)).print ++ rest =
        n.toList ++ '=' :: ((Part.expr e).print ++ rest) := by
      simp [Part.print, show (Argument.keyword n e).print = n.toList ++ ['='] ++ e.print from rfl]
    rw [hprint]
    exact lexes_name hname (stops_cons (by decide)) (lexes_assign hassign hvalue)
  case unpack e us he ih =>
    have hvalue := ih (hrest.any id) hlex
    obtain ⟨c, more, htext, hc, -⟩ := he.head_print
    refine lexes_star ?_ hvalue
    change (e.print ++ rest).head? ≠ some '*'
    rw [htext]
    exact fun h => hc (Option.some.inj h)
  case unpackKeywords ih => exact lexes_doubleStar (ih (hrest.any id) hlex)
  case argumentsNil => exact hlex
  case argumentsCons a args us vs _ _ ih₁ ih₂ =>
    simp only [Part.print, Expr.printArguments_cons, List.append_assoc]
    refine ih₁ (follows_separator args ?_ (hrest.any id))
      (lexes_separator args (ih₂ (hrest.any id) hlex))
    rintro rfl
    rfl
  case linksNil => exact hlex
  case linksCons e cs us vs op _ _ ih₁ ih₂ =>
    simp only [Part.print, Expr.printComparisons_cons, List.cons_append, List.nil_append,
      List.append_assoc]
    have hlinks := ih₂ (hrest.any id) hlex
    have hright := ih₁ (follows_links cs (hrest.any id)) hlinks
    exact lexes_blank (lexes_compareOp op hright)
  case clausesNil => exact hlex
  case clausesCons t e conds cs us vs ws xs _ _ _ _ ih₁ ih₂ ih₃ ih₄ =>
    simp only [Part.print, Expr.printClauses_cons, spaced_append, List.cons_append,
      List.append_assoc]
    have hclauses := ih₄ (hrest.any id) hlex
    have hconds := ih₃ (follows_clauses cs (hrest.any id)) hclauses
    have hiter := ih₂ (follows_conditions conds (follows_clauses cs (hrest.any id))) hconds
    have htarget := ih₁ (follows_cons (by decide)) (lexes_spaced (s := .in) (by decide) hiter)
    exact lexes_spaced (by decide) htarget
  case conditionsNil => exact hlex
  case conditionsCons e es us vs _ _ ih₁ ih₂ =>
    simp only [Part.print, Expr.printConditions_cons, spaced_append, List.cons_append,
      List.append_assoc]
    have hmore := ih₂ (hrest.any id) hlex
    exact lexes_spaced (by decide) (ih₁ (follows_conditions es (hrest.any id)) hmore)
  case noBound => exact hlex
  case someBound ih => exact ih (hrest.any id) hlex
  case subscriptExpr ih => exact ih (hrest.any id) hlex
  case slice ih₁ ih₂ =>
    simp only [Part.print, Expr.print_slice, List.cons_append, List.append_assoc]
    exact ih₁ (follows_cons (by decide)) (lexes_mark (by decide) (ih₂ (hrest.any id) hlex))
  case sliceStep ih₁ ih₂ ih₃ =>
    simp only [Part.print, Expr.print_sliceStep, List.cons_append,
      List.append_assoc]
    have hstep := lexes_mark (c := ':') (s := .colon) (by decide) (ih₃ (hrest.any id) hlex)
    exact ih₁ (follows_cons (by decide)) (lexes_mark (by decide) (ih₂ (follows_cons (by decide)) hstep))
  case subscriptsNil => exact hlex
  case subscriptsCons e es us vs _ _ ih₁ ih₂ =>
    simp only [Part.print, Expr.printItems_cons, List.append_assoc]
    refine ih₁ (follows_separator es ?_ (hrest.any id))
      (lexes_separator es (ih₂ (hrest.any id) hlex))
    rintro rfl
    rfl
  case indexOne hone ih =>
    rw [Part.print_index hone]
    exact ih (hrest.any id) hlex
  case indexTuple e es us _ ih =>
    rw [Part.print_index_tuple, List.append_assoc, List.append_assoc]
    refine ih ?_ (lexes_loneText (e :: es) hlex)
    unfold loneText
    split
    · exact follows_cons (by decide)
    · exact hrest.any id
  case source ih => exact ih (hrest.any id) hlex

end ComponentMarkup
