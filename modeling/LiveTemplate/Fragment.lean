import LiveTemplate.Expr.Reads
import LiveTemplate.Node

/-!
Compiled fragments: the static text of a part of a template, and a plan for each hole between.
A fragment has one static more than it has plans.
-/

namespace LiveTemplate

set_option autoImplicit false

/-- How the value of an attribute becomes text. -/
inductive AttributeForm where
  /-- Name and value, the name alone for true, and nothing for false and for absent values. -/
  | whole
  /-- The value only; quotes stand in the static text. -/
  | value
  | classes
  | styles
deriving DecidableEq, Repr, Inhabited

def AttributeForm.text : AttributeForm → String
  | whole => "attribute"
  | value => "value"
  | classes => "class"
  | styles => "style"

/-- What a component or slot entry is given. -/
inductive Argument where
  | named (name : String) (value : Expr) (reads : Reads) (span : Span)
  | spread (value : Expr) (reads : Reads) (span : Span)

namespace Argument

def reads : Argument → Reads
  | named _ _ r _ => r
  | spread _ r _ => r

end Argument

mutual

inductive Plan where
  | body (value : Expr) (reads : Reads) (span : Span)
  | attribute (name : String) (form : AttributeForm) (value : Expr) (reads : Reads) (span : Span)
  | spread (value : Expr) (reads : Reads) (span : Span)
  | slot (slot : Expr) (argument : Option Expr) (reads : Reads) (span : Span)
  | conditional (branches : List BranchPlan) (reads : Reads) (span : Span)
  | comprehension (header : ForHeader) (body : Fragment) (reads : Reads) (span : Span)
  | component (call : ComponentPlan)

structure Fragment where
  statics : List String
  plans : List Plan
  fingerprint : String
  /-- A single element makes it up. -/
  root : Bool
  reads : Reads

structure BranchPlan where
  condition : Option Expr
  body : Fragment

/-- A slot entry; a self-closing one has no body. -/
structure SlotPlan where
  name : String
  pattern : Option Pattern
  attributes : List Argument
  body : Option Fragment
  reads : Reads
  span : Span

structure ComponentPlan where
  tag : String
  target : Target
  attributes : List Argument
  slots : List SlotPlan
  call : ComponentCall
  reads : Reads
  span : Span

end

instance : Inhabited Fragment := ⟨⟨[""], [], "", false, .empty⟩⟩
instance : Inhabited Plan := ⟨.body default .empty default⟩

namespace Plan

def reads : Plan → Reads
  | .body _ r _ | .attribute _ _ _ r _ | .spread _ r _ | .slot _ _ r _ | .conditional _ r _
  | .comprehension _ _ r _ => r
  | .component c => c.reads

def span : Plan → Span
  | .body _ _ s | .attribute _ _ _ _ s | .spread _ _ s | .slot _ _ _ s | .conditional _ _ s
  | .comprehension _ _ _ s => s
  | .component c => c.span

/-- The kind of a plan. -/
def kind : Plan → String
  | .body _ _ _ => "body"
  | .attribute _ _ _ _ _ => "attribute"
  | .spread _ _ _ => "spread"
  | .slot _ _ _ _ => "render-slot"
  | .conditional _ _ _ => "conditional"
  | .comprehension _ _ _ _ => "comprehension"
  | .component _ => "component"

/-- The kind of a plan as its fingerprint sees it. -/
def shape : Plan → String
  | .attribute _ form _ _ _ => "attribute:" ++ form.text
  | plan => plan.kind

end Plan

/-- The name of the slot that holds what is not in any other slot. -/
def innerBlock : String := "inner_block"

/-- The name by which a template renders a slot. -/
def renderSlotName : String := "renderSlot"

end LiveTemplate
