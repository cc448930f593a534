import LiveTemplate.Expr.Shape
import LiveTemplate.Text.Blank

/-!
The parse tree of a template: text, code, elements, blocks, and calls of components with their
slot entries. Each call is also recorded on its own, with what can be told about its arguments,
for verification.
-/

namespace LiveTemplate

set_option autoImplicit false

inductive ElementAttribute where
  | literal (name value : String) (quote : Option Char) (span : Span)
  | flag (name : String) (span : Span)
  | code (name : String) (value : Expr) (span : Span)
  | spread (value : Expr) (span : Span)
deriving Inhabited

/-- An attribute of a component or slot entry, with the shape of its value. -/
inductive ComponentAttribute where
  | named (name : String) (value : Expr) (shape : LiteralShape) (literal : Literal) (span : Span)
  | spread (value : Expr) (span : Span)
deriving Inhabited

/-- The component a tag names: one of its own unit, or of a named unit. -/
structure Target where
  unit : Option String
  name : String
deriving DecidableEq, Repr, Inhabited

structure RecordedAttribute where
  name : String
  shape : LiteralShape
  literal : Literal
  span : Span

structure RecordedSlot where
  name : String
  attributes : List RecordedAttribute
  hasSpread : Bool
  span : Span

/-- A call with the shapes of what it passes. -/
structure ComponentCall where
  target : Target
  attributes : List RecordedAttribute
  slots : List RecordedSlot
  hasSpread : Bool
  /-- The default slot receives content. -/
  hasInnerBlock : Bool
  file : String
  span : Span

mutual

inductive Node where
  | text (content : String) (span : Span)
  | code (value : Expr) (span : Span)
  | element (name : String) (void : Bool) (attributes : List ElementAttribute)
      (children : List Node) (span : Span)
  | loop (header : ForHeader) (body : List Node) (span : Span)
  | conditional (branches : List Branch) (span : Span)
  | component (call : ComponentNode)

/-- A branch of a conditional; the last may have no condition. -/
structure Branch where
  condition : Option Expr
  body : List Node
  span : Span

/-- A slot entry; a self-closing one has no body. -/
structure SlotEntry where
  name : String
  pattern : Option Pattern
  attributes : List ComponentAttribute
  body : Option (List Node)
  span : Span

/-- A call of a component; a self-closing one has no body. -/
structure ComponentNode where
  tag : String
  target : Target
  pattern : Option Pattern
  attributes : List ComponentAttribute
  slots : List SlotEntry
  body : Option (List Node)
  call : ComponentCall
  span : Span

end

instance : Inhabited Node := ⟨.text "" default⟩

def Node.span : Node → Span
  | text _ s => s
  | code _ s => s
  | element _ _ _ _ s => s
  | loop _ _ s => s
  | conditional _ s => s
  | component c => c.span

/-- A whole template: its nodes, whether a single element makes it up, and its calls. -/
structure NodeTree where
  children : List Node
  root : Bool
  calls : List ComponentCall
deriving Inhabited

namespace Node

def isBlank : Node → Bool
  | text content _ => Text.allBlank content.toList
  | _ => false

def isElement : Node → Bool
  | element _ _ _ _ _ => true
  | _ => false

/-- Whether one element stands alone, blanks aside. -/
def isRoot (nodes : List Node) : Bool :=
  match nodes.filter fun n => !n.isBlank with
  | [n] => n.isElement
  | _ => false

end Node

namespace ComponentAttribute

def isSpread : ComponentAttribute → Bool
  | spread _ _ => true
  | _ => false

/-- What verification keeps of an attribute; spreads are not kept. -/
def record? : ComponentAttribute → Option RecordedAttribute
  | named name _ shape literal span => some ⟨name, shape, literal, span⟩
  | spread _ _ => none

end ComponentAttribute

/-- What verification keeps of a slot entry. -/
def SlotEntry.record (s : SlotEntry) : RecordedSlot where
  name := s.name
  attributes := s.attributes.filterMap ComponentAttribute.record?
  hasSpread := s.attributes.any ComponentAttribute.isSpread
  span := s.span

end LiveTemplate
