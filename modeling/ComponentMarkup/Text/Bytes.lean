/-!
# Byte offsets into text

Text is a list of characters, while every position shown to a user is an offset in bytes of its
UTF-8 form. Three things live here: the length of a text in bytes, cutting a text at a byte offset,
and the slice between two offsets. A cut succeeds exactly at the boundaries between characters.
-/

namespace ComponentMarkup.Text

/-- The number of bytes a text takes in UTF-8. -/
def byteLength : List Char → Nat
  | [] => 0
  | c :: text => c.utf8Size + byteLength text

@[simp]
theorem byteLength_nil : byteLength [] = 0 := rfl

@[simp]
theorem byteLength_cons (c : Char) (text : List Char) :
    byteLength (c :: text) = c.utf8Size + byteLength text := rfl

@[simp]
theorem byteLength_append (front back : List Char) :
    byteLength (front ++ back) = byteLength front + byteLength back := by
  induction front with
  | nil => simp
  | cons c front ih => simp [ih, Nat.add_assoc]

/-! ## Cutting at an offset -/

/-- What is left of a text after its first `n` bytes, if a character ends there. -/
def dropBytes? : Nat → List Char → Option (List Char)
  | 0, text => some text
  | _ + 1, [] => none
  | n + 1, c :: text => if c.utf8Size ≤ n + 1 then dropBytes? (n + 1 - c.utf8Size) text else none

/-- The characters that make up the first `n` bytes of a text, if a character ends there. -/
def takeBytes? : Nat → List Char → Option (List Char)
  | 0, _ => some []
  | _ + 1, [] => none
  | n + 1, c :: text =>
    if c.utf8Size ≤ n + 1 then (takeBytes? (n + 1 - c.utf8Size) text).map (c :: ·) else none

/-- The text between two byte offsets, if both are boundaries and in order. -/
def slice? (text : List Char) (start stop : Nat) : Option (List Char) :=
  if start ≤ stop then (dropBytes? start text).bind (takeBytes? (stop - start)) else none

/-- Cutting off a whole leading text leaves what follows it. -/
theorem dropBytes?_append (front back : List Char) :
    dropBytes? (byteLength front) (front ++ back) = some back := by
  induction front with
  | nil => simp [dropBytes?]
  | cons c front ih =>
    have hpos := c.utf8Size_pos
    have hlen : byteLength (c :: front) = (c.utf8Size + byteLength front - 1) + 1 := by
      simp only [byteLength_cons]; omega
    rw [hlen, List.cons_append, dropBytes?, if_pos (by omega)]
    have hrest : c.utf8Size + byteLength front - 1 + 1 - c.utf8Size = byteLength front := by omega
    rw [hrest, ih]

/-- Taking the length of a leading text gives that text back. -/
theorem takeBytes?_append (front back : List Char) :
    takeBytes? (byteLength front) (front ++ back) = some front := by
  induction front with
  | nil => simp [takeBytes?]
  | cons c front ih =>
    have hpos := c.utf8Size_pos
    have hlen : byteLength (c :: front) = (c.utf8Size + byteLength front - 1) + 1 := by
      simp only [byteLength_cons]; omega
    rw [hlen, List.cons_append, takeBytes?, if_pos (by omega)]
    have hrest : c.utf8Size + byteLength front - 1 + 1 - c.utf8Size = byteLength front := by omega
    rw [hrest, ih]
    rfl

end ComponentMarkup.Text
