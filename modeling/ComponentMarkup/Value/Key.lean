/-!
# Dictionary keys

The values that may stand as keys of a dictionary. A boolean and an integer are different keys, even
where they are equal as numbers.
-/

namespace ComponentMarkup

inductive Key where
  | none
  | bool (value : Bool)
  | int (value : Int64)
  | str (value : String)
  | tuple (items : List Key)
deriving Inhabited, Repr

namespace Key

mutual

/-- Keys of the same kind and content. -/
def same : Key → Key → Bool
  | .none, .none => true
  | .bool a, .bool b => a == b
  | .int a, .int b => a == b
  | .str a, .str b => a == b
  | .tuple as, .tuple bs => sameItems as bs
  | _, _ => false

def sameItems : List Key → List Key → Bool
  | [], [] => true
  | a :: as, b :: bs => same a b && sameItems as bs
  | _, _ => false

end

mutual

theorem eq_of_same : ∀ a b : Key, same a b = true → a = b
  | .none, b, h => by cases b <;> simp_all [same]
  | .bool _, b, h => by cases b <;> simp_all [same]
  | .int _, b, h => by cases b <;> simp_all [same]
  | .str _, b, h => by cases b <;> simp_all [same]
  | .tuple as, b, h => by
    cases b with
    | tuple bs => rw [eq_of_sameItems as bs (by simpa [same] using h)]
    | _ => simp [same] at h

theorem eq_of_sameItems : ∀ as bs : List Key, sameItems as bs = true → as = bs
  | [], bs, h => by cases bs <;> simp_all [sameItems]
  | a :: as, bs, h => by
    cases bs with
    | nil => simp [sameItems] at h
    | cons b bs =>
      simp only [sameItems, Bool.and_eq_true] at h
      rw [eq_of_same a b h.1, eq_of_sameItems as bs h.2]

end

mutual

theorem same_refl : ∀ a : Key, same a a = true
  | .none => rfl
  | .bool _ => by simp [same]
  | .int _ => by simp [same]
  | .str _ => by simp [same]
  | .tuple as => by simp [same, sameItems_refl as]

theorem sameItems_refl : ∀ as : List Key, sameItems as as = true
  | [] => rfl
  | a :: as => by simp [sameItems, same_refl a, sameItems_refl as]

end

instance : BEq Key := ⟨same⟩

instance : LawfulBEq Key where
  eq_of_beq h := eq_of_same _ _ h
  rfl := same_refl _

end Key

end ComponentMarkup
