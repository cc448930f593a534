import LiveTemplate.Diagnostic.Catalog
import LiveTemplate.Value

/-!
Faults of evaluation. Most have a cause and the span of the expression at fault; a few arise inside
a call and have no place of their own.
-/

namespace LiveTemplate

set_option autoImplicit false

/-- Values and names appear in causes as messages show them. -/
inductive EvalCause where
  | undefinedName (name : String)
  | badKey (key : String)
  | notCallable (callee : String)
  | absentRead (field value : String)
  | blockedRead (field : String)
  | misplacedRenderSlot
  | notListPattern (value : String)
  | notRecordPattern (value : String)
  | notIterable (value : String)
  | notAttributes (value : String)
  | notSlot (value : String)
  | emptySlot (slot : Option String)
  | unknownComponent (tag : String)
deriving DecidableEq, Repr, Inhabited

namespace EvalCause

def code : EvalCause → Code
  | undefinedName _ | badKey _ | notCallable _ | absentRead _ _ | blockedRead _ | notSlot _ =>
    .evaluationFailed
  | misplacedRenderSlot => .misplacedRenderSlot
  | notListPattern _ | notRecordPattern _ => .patternMismatch
  | notIterable _ => .notIterable
  | notAttributes _ => .invalidAttributes
  | emptySlot _ => .slotWithoutContent
  | unknownComponent _ => .unknownComponent

def message : EvalCause → String
  | undefinedName name => name ++ " is not defined"
  | badKey key => "invalid property key " ++ key
  | notCallable callee => callee ++ " is not a function"
  | absentRead field value => "cannot read \"" ++ field ++ "\" of " ++ value
  | blockedRead field => "access to \"" ++ field ++ "\" is not allowed"
  | misplacedRenderSlot =>
    "renderSlot(...) must be the whole output expression, as in \x7brenderSlot(inner_block)\x7d"
  | notListPattern value => "cannot destructure " ++ value ++ " as an array"
  | notRecordPattern value => "cannot destructure " ++ value ++ " as an object"
  | notIterable value => value ++ " is not iterable"
  | notAttributes value => "expected attributes to be an object, got: " ++ value
  | notSlot value => "renderSlot expects a slot, got: " ++ value
  | emptySlot slot =>
    "attempted to render slot <:" ++ slot.getD "?" ++ "> but the slot has no inner content"
  | unknownComponent tag => "undefined component <" ++ tag ++ ">"

end EvalCause

inductive EvalError where
  | failed (cause : EvalCause) (span : Span)
  /-- A fault inside a call that no expression spells out. -/
  | unplaced (cause : EvalCause)
  /-- A method was given a value of a kind it cannot use. -/
  | badOperand
  /-- A count is out of range, or calls nest too deep. -/
  | outOfRange
deriving DecidableEq, Repr, Inhabited

def EvalError.message : EvalError → String
  | failed cause _ | unplaced cause => cause.message
  | badOperand => "value of a kind that cannot be used here"
  | outOfRange => "out of range"

/-- Evaluation makes new compound values and may fail. -/
abbrev Eval := ExceptT EvalError Fresh

namespace Eval

def fail {α : Type} (cause : EvalCause) (span : Span) : Eval α := throw (.failed cause span)

/-- A new list. -/
def newList (items : List Value) : Eval Value := do
  let id ← freshId
  return .list id items

/-- A new plain record. -/
def newRecord (fields : Record Value) : Eval Value := do
  let id ← freshId
  return .record id .plain fields

end Eval

/-- How a function is called: on a receiver, with arguments. -/
abbrev Call := Value → Value → List Value → Eval Value

end LiveTemplate
