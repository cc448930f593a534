import LiveTemplate.Decimal.Reading
import LiveTemplate.Value.Members
import LiveTemplate.Value.Sameness

/-!
Values as text and as numbers, loose equality and order. A compound value becomes a plain one by
the methods it has for that, which may be functions of a template.
-/

namespace LiveTemplate.Value

set_option autoImplicit false

/-- What a compound value is wanted for. -/
inductive Purpose where
  | text | number
deriving DecidableEq, Repr, Inhabited

/-- The methods that are asked for a plain value, in turn. -/
def Purpose.methods : Purpose → List String
  | text => ["toString", "valueOf"]
  | number => ["valueOf", "toString"]

/-- The plain value that the first of some methods gives. -/
def askFor (call : Call) (v : Value) : List String → Eval Value
  | [] => throw .badOperand
  | name :: rest => do
    let f ← v.member name
    if f.isFunction then
      let plain ← call f v []
      if plain.isCompound then askFor call v rest else return plain
    else askFor call v rest

/-- The plain value that a value stands for. -/
def toPlain (call : Call) (purpose : Purpose) (v : Value) : Eval Value :=
  if v.isCompound then askFor call v purpose.methods else return v

/-- The text of a value. -/
def toText (call : Call) (v : Value) : Eval String := do
  return (← v.toPlain call .text).plainText

/-- The number that a plain value stands for. -/
def plainNumber : Value → Float
  | null => 0
  | flag b => if b then 1 else 0
  | number x => x
  | text s => Decimal.numberOf s
  | _ => 0.0 / 0.0

/-- The number a value stands for. -/
def toNumber (call : Call) (v : Value) : Eval Float := do
  return (← v.toPlain call .number).plainNumber

/-- The texts of list items; absent ones are empty. -/
def itemTexts (call : Call) (items : List Value) : Eval (List String) :=
  items.mapM fun v => if v.isAbsent then return "" else v.toText call

/-- What a value is asked for when it is compared: times for their text, all else for a number. -/
def comparedBy (v : Value) : Purpose :=
  match v.origin with
  | date _ _ => .text
  | _ => .number

/-- The operator `==` on values that are not compound. -/
def plainEq (a b : Value) : Bool :=
  if a.isAbsent || b.isAbsent then a.isAbsent && b.isAbsent
  else match a, b with
    | text s, text t => s == t
    | a, b => a.plainNumber == b.plainNumber

/-- The operator `==`: two compound values are equal as one and the same; beside a plain value
stands the plain value of the other. -/
def looseEq (call : Call) (a b : Value) : Eval Bool := do
  if a.isAbsent || b.isAbsent then return a.isAbsent && b.isAbsent
  else if a.isCompound && b.isCompound then return strictEq a b
  else
    let x ← a.toPlain call a.comparedBy
    let y ← b.toPlain call b.comparedBy
    return plainEq x y

/-- The sign of a difference: texts are compared unit by unit, all else as numbers. -/
def difference (call : Call) (a b : Value) : Eval Float :=
  match a, b with
  | text s, text t =>
    match Text.compare s t with
    | .lt => return -1
    | .eq => return 0
    | .gt => return 1
  | a, b => do
    let x ← a.toNumber call
    let y ← b.toNumber call
    return x - y

end LiveTemplate.Value
