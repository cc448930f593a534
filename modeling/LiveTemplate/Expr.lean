import LiveTemplate.Span

/-!
Expressions and binding patterns of templates. Spans are offsets into the whole template.
-/

namespace LiveTemplate

set_option autoImplicit false

inductive UnaryOp where
  | not | negate | plus | typeof
deriving DecidableEq, Repr, Inhabited

inductive BinaryOp where
  | coalesce | or | and
  | strictEq | strictNe | looseEq | looseNe
  | less | lessEq | greater | greaterEq
  | add | sub | mul | div | rem
deriving DecidableEq, Repr, Inhabited

/-- An operator as it is written. -/
def UnaryOp.text : UnaryOp → String
  | not => "!"
  | negate => "-"
  | plus => "+"
  | typeof => "typeof"

/-- An operator as it is written. -/
def BinaryOp.text : BinaryOp → String
  | coalesce => "??"
  | or => "||"
  | and => "&&"
  | strictEq => "==="
  | strictNe => "!=="
  | looseEq => "=="
  | looseNe => "!="
  | less => "<"
  | lessEq => "<="
  | greater => ">"
  | greaterEq => ">="
  | add => "+"
  | sub => "-"
  | mul => "*"
  | div => "/"
  | rem => "%"

/-- How tightly an operator binds, from one for `??` to seven for multiplication. -/
def BinaryOp.level : BinaryOp → Nat
  | coalesce => 1
  | or => 2
  | and => 3
  | strictEq | strictNe | looseEq | looseNe => 4
  | less | lessEq | greater | greaterEq => 5
  | add | sub => 6
  | mul | div | rem => 7

/-- Constants that an expression spells out. -/
inductive Literal where
  | text (s : String)
  | number (x : Float)
  | flag (b : Bool)
  | null
  | undefined

mutual

/-- Expressions. A template text alternates literal pieces and expressions and begins and ends
with a piece. -/
inductive Expr where
  | literal (value : Literal) (span : Span)
  | template (head : String) (parts : List (Expr × String)) (span : Span)
  | name (name : String) (span : Span)
  | member (object : Expr) (name : String) (optional : Bool) (span : Span)
  | keyed (object key : Expr) (optional : Bool) (span : Span)
  | call (callee : Expr) (args : List Expr) (optional : Bool) (span : Span)
  | unary (op : UnaryOp) (operand : Expr) (span : Span)
  | binary (op : BinaryOp) (left right : Expr) (span : Span)
  | conditional (condition yes no : Expr) (span : Span)
  | array (elements : List Expr) (span : Span)
  | object (fields : List (String × Expr)) (span : Span)
  | arrow (params : List Pattern) (body : Expr) (span : Span)

/-- Patterns bind names to parts of a value. An array pattern may leave holes. -/
inductive Pattern where
  | name (name : String) (span : Span)
  | array (elements : List (Option Pattern)) (span : Span)
  | object (properties : List (String × Pattern)) (span : Span)
  | fallback (target : Pattern) (value : Expr) (span : Span)

end

instance : Inhabited Expr := ⟨.literal .undefined default⟩
instance : Inhabited Pattern := ⟨.name "" default⟩

/-- The header of a loop: what each item is bound to, and the items. -/
structure ForHeader where
  pattern : Pattern
  items : Expr
  span : Span
deriving Inhabited

def Expr.span : Expr → Span
  | literal _ s | template _ _ s | name _ s | member _ _ _ s | keyed _ _ _ s | call _ _ _ s
  | unary _ _ s | binary _ _ _ s | conditional _ _ _ s | array _ s | object _ s | arrow _ _ s => s

def Pattern.span : Pattern → Span
  | name _ s | array _ s | object _ s | fallback _ _ s => s

mutual

/-- Every name a pattern binds, in source order and with repetitions. -/
def Pattern.boundNames : Pattern → List String
  | .name n _ => [n]
  | .array elements _ => elementNames elements
  | .object properties _ => propertyNames properties
  | .fallback target _ _ => boundNames target

/-- The names bound by the elements of an array pattern. -/
def Pattern.elementNames : List (Option Pattern) → List String
  | [] => []
  | none :: rest => elementNames rest
  | some p :: rest => boundNames p ++ elementNames rest

/-- The names bound by the properties of an object pattern. -/
def Pattern.propertyNames : List (String × Pattern) → List String
  | [] => []
  | (_, p) :: rest => boundNames p ++ propertyNames rest

end

/-- The names bound by a list of parameters. -/
def Pattern.allNames (params : List Pattern) : List String := params.flatMap boundNames

end LiveTemplate
