import ComponentMarkup.Expr.Basic

/-!
# Equality of expressions

Two trees are the same if they have the same shape and the same leaves. Float constants are compared
as numbers, so that the test is not the equality of the logic.
-/

namespace ComponentMarkup

/-- Constants of the same kind and value. -/
def Constant.same : Constant → Constant → Bool
  | .none, .none => true
  | .bool a, .bool b => a == b
  | .int a, .int b => a == b
  | .float a, .float b => a == b
  | .str a, .str b => a == b
  | _, _ => false

mutual

/-- Targets of the same shape and names. -/
def Target.same : Target → Target → Bool
  | .name a, .name b => a == b
  | .tuple as, .tuple bs => Target.sameItems as bs
  | _, _ => false

def Target.sameItems : List Target → List Target → Bool
  | [], [] => true
  | a :: as, b :: bs => a.same b && Target.sameItems as bs
  | _, _ => false

end

mutual

/-- Expressions of the same shape and leaves. -/
def Expr.same (e other : Expr) : Bool :=
  match e with
  | .constant a => match other with
    | .constant b => a.same b
    | _ => false
  | .name a => match other with
    | .name b => a == b
    | _ => false
  | .list as => match other with
    | .list bs => Expr.sameItems as bs
    | _ => false
  | .tuple as => match other with
    | .tuple bs => Expr.sameItems as bs
    | _ => false
  | .dict as => match other with
    | .dict bs => Expr.sameEntries as bs
    | _ => false
  | .attribute a m => match other with
    | .attribute b n => a.same b && m == n
    | _ => false
  | .subscript a i => match other with
    | .subscript b j => a.same b && i.same j
    | _ => false
  | .slice l u s => match other with
    | .slice l' u' s' => Expr.sameOptional l l' && Expr.sameOptional u u' && Expr.sameOptional s s'
    | _ => false
  | .call f as => match other with
    | .call g bs => f.same g && Expr.sameArguments as bs
    | _ => false
  | .binary o a b => match other with
    | .binary p c d => o == p && a.same c && b.same d
    | _ => false
  | .unary o a => match other with
    | .unary p b => o == p && a.same b
    | _ => false
  | .logic o a b => match other with
    | .logic p c d => o == p && a.same c && b.same d
    | _ => false
  | .compare a cs => match other with
    | .compare b ds => a.same b && Expr.sameComparisons cs ds
    | _ => false
  | .conditional t a b => match other with
    | .conditional u c d => t.same u && a.same c && b.same d
    | _ => false
  | .listComp a cs => match other with
    | .listComp b ds => a.same b && Expr.sameClauses cs ds
    | _ => false
  | .generator a cs => match other with
    | .generator b ds => a.same b && Expr.sameClauses cs ds
    | _ => false
  | .dictComp k a cs => match other with
    | .dictComp l b ds => k.same l && a.same b && Expr.sameClauses cs ds
    | _ => false
termination_by structural e

def Expr.sameOptional : Option Expr → Option Expr → Bool
  | none, none => true
  | some a, some b => a.same b
  | _, _ => false
termination_by structural x => x

def Expr.sameItems : List Expr → List Expr → Bool
  | [], [] => true
  | a :: as, b :: bs => a.same b && Expr.sameItems as bs
  | _, _ => false
termination_by structural x => x

def Expr.sameEntries : List (Expr × Expr) → List (Expr × Expr) → Bool
  | [], [] => true
  | (k, a) :: as, (l, b) :: bs => k.same l && a.same b && Expr.sameEntries as bs
  | _, _ => false
termination_by structural x => x

def Argument.same : Argument → Argument → Bool
  | .positional a, .positional b => a.same b
  | .keyword m a, .keyword n b => m == n && a.same b
  | .unpack a, .unpack b => a.same b
  | .unpackKeywords a, .unpackKeywords b => a.same b
  | _, _ => false
termination_by structural x => x

def Expr.sameArguments : List Argument → List Argument → Bool
  | [], [] => true
  | a :: as, b :: bs => a.same b && Expr.sameArguments as bs
  | _, _ => false
termination_by structural x => x

def Expr.sameComparisons : List (CompareOp × Expr) → List (CompareOp × Expr) → Bool
  | [], [] => true
  | (o, a) :: as, (p, b) :: bs => o == p && a.same b && Expr.sameComparisons as bs
  | _, _ => false
termination_by structural x => x

def Expr.sameClauses : List Clause → List Clause → Bool
  | [], [] => true
  | ⟨t, i, cs⟩ :: as, ⟨u, j, ds⟩ :: bs =>
    t.same u && i.same j && Expr.sameItems cs ds && Expr.sameClauses as bs
  | _, _ => false
termination_by structural x => x

end

end ComponentMarkup
