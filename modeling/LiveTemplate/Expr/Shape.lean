import LiveTemplate.Expr
import LiveTemplate.Number

/-!
What can be told about an expression's value without evaluating it.
-/

namespace LiveTemplate

set_option autoImplicit false

inductive LiteralShape where
  | string | boolean | integer | float | nil | list | map
  /-- Anything computed. -/
  | expression
deriving DecidableEq, Repr, Inhabited

def LiteralShape.text : LiteralShape → String
  | string => "string"
  | boolean => "boolean"
  | integer => "integer"
  | float => "float"
  | nil => "nil"
  | list => "list"
  | map => "map"
  | expression => "expression"

def LiteralShape.ofText? : String → Option LiteralShape
  | "string" => some string
  | "boolean" => some boolean
  | "integer" => some integer
  | "float" => some float
  | "nil" => some nil
  | "list" => some list
  | "map" => some map
  | "expression" => some expression
  | _ => none

theorem LiteralShape.ofText?_text (s : LiteralShape) : ofText? s.text = some s := by
  cases s <;> rfl

/-- The shape of a number. -/
def LiteralShape.ofNumber (x : Float) : LiteralShape :=
  if Number.isInteger x then .integer else .float

/-- The shape of an expression, with its value when that is a constant. -/
def Expr.shape : Expr → LiteralShape × Literal
  | .literal (.text s) _ => (.string, .text s)
  | .literal (.flag b) _ => (.boolean, .flag b)
  | .literal (.number x) _ => (.ofNumber x, .number x)
  | .literal .null _ => (.nil, .null)
  | .literal .undefined _ => (.nil, .undefined)
  | .unary .negate (.literal (.number x) _) _ => (.ofNumber x, .number (-x))
  | .template head [] _ => (.string, .text head)
  | .array _ _ => (.list, .undefined)
  | .object _ _ => (.map, .undefined)
  | _ => (.expression, .undefined)

end LiveTemplate
