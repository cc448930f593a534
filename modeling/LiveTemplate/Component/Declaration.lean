import LiveTemplate.Component.Spec
import LiveTemplate.Diagnostic.Catalog
import LiveTemplate.Eval
import LiveTemplate.Value.Json

/-!
Declarations of components. What is declared wrongly is corrected or dropped, and an issue is
recorded for it, so that every spec is well formed.
-/

namespace LiveTemplate

set_option autoImplicit false

structure AttrOptions where
  required : Option Bool := none
  default : Option Value := none
  doc : Option String := none

structure AttrDeclaration where
  name : String
  type : AttrType
  options : AttrOptions

structure SlotDeclaration where
  name : String
  required : Bool
  doc : Option String
  attrs : List AttrDeclaration

inductive Declaration where
  | attr (d : AttrDeclaration)
  | slot (d : SlotDeclaration)
  /-- The source of the template; the last one counts. -/
  | template (source : String)

inductive IssueCause where
  | innerBlockAttr
  | duplicateAttr
  | secondRest (first : String)
  | requiredRest
  | requiredWithDefault
  | slotAttrDefault
  | defaultMismatch (type : AttrType) (default : Value)
  | duplicateSlot
  | innerBlockAttrs
deriving Inhabited

/-- A declaration that was corrected or dropped. -/
structure Issue where
  cause : IssueCause
  attr : Option String
  slot : Option String
deriving Inhabited

namespace Issue

def code (i : Issue) : Code :=
  match i.cause with
  | .duplicateAttr => .duplicateAttrDefinition
  | .duplicateSlot => .duplicateSlotDefinition
  | .innerBlockAttrs => .invalidSlotDefinition
  | _ => .invalidAttrDefinition

/-- The attribute in quotes, with the slot it belongs to. -/
def label (i : Issue) : String :=
  let name := "\"" ++ i.attr.getD "" ++ "\""
  match i.slot with
  | none => name
  | some slot => name ++ " in slot \"" ++ slot ++ "\""

/-- The message; a default value is shown as interchange text. -/
def message (i : Issue) : Eval String :=
  match i.cause with
  | .innerBlockAttr => return "cannot define attribute called " ++ innerBlock ++
      ". Maybe you wanted to use a slot instead?"
  | .duplicateAttr => return "a duplicate attribute with name " ++ i.label ++ " already exists"
  | .secondRest first => return "cannot define global attribute \"" ++ i.attr.getD "" ++
      "\" because one is already defined as \"" ++ first ++
      "\". Only a single global attribute may be defined"
  | .requiredRest => return "global attributes do not support the required option"
  | .requiredWithDefault => return "only one of required or default must be given"
  | .slotAttrDefault => return "invalid option default for attr " ++ i.label ++
      ". Slot attributes do not support default values"
  | .defaultMismatch type default => do
    let got ← default.json Value.call
    return "expected the default value for attr " ++ i.label ++ " to be " ++ type.describe ++
      ", got: " ++ got
  | .duplicateSlot =>
    return "a duplicate slot with name \"" ++ i.slot.getD "" ++ "\" already exists"
  | .innerBlockAttrs =>
    return "cannot define attributes in a slot with name \"" ++ innerBlock ++ "\""

def data (i : Issue) (component : String) : List (String × Datum) :=
  ("component", .text component) ::
    (i.attr.map fun a => ("attribute", Datum.text a)).toList ++
    (i.slot.map fun s => ("slot", Datum.text s)).toList

end Issue

/-- What is wrong with a default value: attributes that are required or belong to a slot have
none, and it must fit the type. -/
def AttrDeclaration.defaultFault? (d : AttrDeclaration) (required inSlot : Bool) (default : Value) :
    Option IssueCause :=
  if required then some .requiredWithDefault
  else if inSlot then some .slotAttrDefault
  else if d.type.accepts default then none
  else some (.defaultMismatch d.type default)

/-- Why an attribute cannot be declared beside those before it. -/
def AttrDeclaration.refusal? (d : AttrDeclaration) (attrs : List AttrSpec) : Option IssueCause :=
  if d.name = innerBlock then some .innerBlockAttr
  else if attrs.any (·.name = d.name) then some .duplicateAttr
  else if d.type = .rest then (restAttr? attrs).map fun a => .secondRest a.name
  else none

/-- The attribute as it is kept, and what was corrected. -/
def AttrDeclaration.settle (d : AttrDeclaration) (inSlot : Bool) : AttrSpec × List IssueCause :=
  let isRest := d.type = .rest
  let required := d.options.required.getD false && !isRest
  let overruled : List IssueCause :=
    if isRest ∧ d.options.required.isSome then [.requiredRest] else []
  let fault := d.options.default.bind (d.defaultFault? required inSlot)
  let default := if fault.isSome then none else d.options.default
  (⟨d.name, d.type, required, default, d.options.doc⟩, overruled ++ fault.toList)

/-- Adds an attribute to those of a component or of one of its slots. -/
def AttrDeclaration.add (slot : Option String) (attrs : List AttrSpec) (d : AttrDeclaration) :
    List AttrSpec × List Issue :=
  match d.refusal? attrs with
  | some cause => (attrs, [⟨cause, some d.name, slot⟩])
  | none =>
    let (attr, causes) := d.settle slot.isSome
    (attrs ++ [attr], causes.map fun c => ⟨c, some d.name, slot⟩)

/-- Adds attributes in turn. -/
def AttrDeclaration.addAll (slot : Option String) :
    List AttrDeclaration → List AttrSpec → List AttrSpec × List Issue
  | [], attrs => (attrs, [])
  | d :: rest, attrs =>
    let (attrs, issues) := d.add slot attrs
    let (attrs, more) := addAll slot rest attrs
    (attrs, issues ++ more)

/-- Adds a slot to those before it. The default slot has no attributes. -/
def SlotDeclaration.add (slots : List SlotSpec) (d : SlotDeclaration) :
    List SlotSpec × List Issue :=
  if slots.any (·.name = d.name) then (slots, [⟨.duplicateSlot, none, some d.name⟩])
  else
    let (attrs, issues) := AttrDeclaration.addAll (some d.name) d.attrs []
    if d.name = innerBlock ∧ attrs ≠ [] then
      (slots ++ [⟨d.name, d.required, [], d.doc⟩],
        issues ++ [⟨.innerBlockAttrs, none, some d.name⟩])
    else (slots ++ [⟨d.name, d.required, attrs, d.doc⟩], issues)

/-- What a list of declarations comes to. -/
structure Declared where
  attrs : List AttrSpec := []
  slots : List SlotSpec := []
  source : Option String := none
  issues : List Issue := []

namespace Declared

def add (d : Declared) : Declaration → Declared
  | .attr a =>
    let (attrs, issues) := a.add none d.attrs
    { d with attrs, issues := d.issues ++ issues }
  | .slot s =>
    let (slots, issues) := s.add d.slots
    { d with slots, issues := d.issues ++ issues }
  | .template source => { d with source := some source }

def ofList (declarations : List Declaration) : Declared := declarations.foldl add {}

def spec (d : Declared) (name : String) : ComponentSpec := ⟨name, d.attrs, d.slots⟩

end Declared

end LiveTemplate
