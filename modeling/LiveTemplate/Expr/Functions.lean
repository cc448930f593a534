import LiveTemplate.Expr

/-!
Which patterns make functions in their defaults. Such a function sees all names of its pattern,
also those that are bound after it was made.
-/

namespace LiveTemplate

set_option autoImplicit false

mutual

/-- Whether an expression spells a function outside of other functions. -/
def Expr.makesFunction : Expr → Bool
  | .literal _ _ | .name _ _ => false
  | .template _ parts _ => Expr.partsMakeFunction parts
  | .member target _ _ _ => Expr.makesFunction target
  | .keyed target key _ _ => Expr.makesFunction target || Expr.makesFunction key
  | .call callee args _ _ => Expr.makesFunction callee || Expr.anyMakesFunction args
  | .unary _ e _ => Expr.makesFunction e
  | .binary _ l r _ => Expr.makesFunction l || Expr.makesFunction r
  | .conditional c y n _ =>
    Expr.makesFunction c || Expr.makesFunction y || Expr.makesFunction n
  | .array es _ => Expr.anyMakesFunction es
  | .object fields _ => Expr.fieldsMakeFunction fields
  | .arrow _ _ _ => true

def Expr.anyMakesFunction : List Expr → Bool
  | [] => false
  | e :: rest => Expr.makesFunction e || Expr.anyMakesFunction rest

def Expr.partsMakeFunction : List (Expr × String) → Bool
  | [] => false
  | (e, _) :: rest => Expr.makesFunction e || Expr.partsMakeFunction rest

def Expr.fieldsMakeFunction : List (String × Expr) → Bool
  | [] => false
  | (_, e) :: rest => Expr.makesFunction e || Expr.fieldsMakeFunction rest

/-- Whether a default of a pattern spells a function. -/
def Pattern.makesFunction : Pattern → Bool
  | .name _ _ => false
  | .array elements _ => Pattern.elementsMakeFunction elements
  | .object properties _ => Pattern.propertiesMakeFunction properties
  | .fallback target default _ => Pattern.makesFunction target || Expr.makesFunction default

def Pattern.elementsMakeFunction : List (Option Pattern) → Bool
  | [] => false
  | none :: rest => Pattern.elementsMakeFunction rest
  | some p :: rest => Pattern.makesFunction p || Pattern.elementsMakeFunction rest

def Pattern.propertiesMakeFunction : List (String × Pattern) → Bool
  | [] => false
  | (_, p) :: rest => Pattern.makesFunction p || Pattern.propertiesMakeFunction rest

end

end LiveTemplate
