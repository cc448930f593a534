import LiveTemplate.Component.GlobalAttribute
import LiveTemplate.Component.Spec
import LiveTemplate.Diagnostic.Catalog
import LiveTemplate.Text.Blank
import LiveTemplate.Text.Cut

/-!
Checks of component calls against what the component declares. Only literals are checked for their
types; what is computed passes. All findings are warnings at the place of the call.
-/

namespace LiveTemplate

set_option autoImplicit false

/-- What is doubtful about a call. -/
inductive CallFault where
  | undefinedComponent
  | missingAttr (attr : String)
  | undefinedAttr (attr : String)
  | restGiven (attr : String) (slot : Option String)
  | typeMismatch (attr : String) (slot : Option String) (type : AttrType) (written : String)
  | missingSlot (slot : String)
  | missingSlotAttr (slot attr : String)
  | undefinedSlotAttr (slot attr : String)
  | undefinedSlot (slot : String)
deriving DecidableEq, Repr, Inhabited

namespace CallFault

def code : CallFault → Code
  | undefinedComponent => .undefinedComponent
  | missingAttr _ => .missingRequiredAttr
  | undefinedAttr _ => .undefinedAttr
  | restGiven _ _ => .globalAttrProvided
  | typeMismatch _ _ _ _ => .attrTypeMismatch
  | missingSlot _ => .missingRequiredSlot
  | missingSlotAttr _ _ => .missingRequiredSlotAttr
  | undefinedSlotAttr _ _ => .undefinedSlotAttr
  | undefinedSlot _ => .undefinedSlot

def quoted (kind name : String) : String := kind ++ " \"" ++ name ++ "\""

/-- The component or slot that a value is given to. -/
def «where» (component : String) : Option String → String
  | none => "in component " ++ component
  | some slot => "in " ++ quoted "slot" slot ++ " for component " ++ component

def message (component : String) : CallFault → String
  | undefinedComponent => "undefined component " ++ component
  | missingAttr attr => "missing required " ++ quoted "attribute" attr ++ " for component " ++
    component
  | undefinedAttr attr => "undefined " ++ quoted "attribute" attr ++ " for component " ++ component
  | restGiven attr slot => "global " ++ quoted "attribute" attr ++ " " ++
    «where» component slot ++ " may not be provided directly"
  | typeMismatch attr slot type written => quoted "attribute" attr ++ " " ++
    «where» component slot ++ " must be " ++ type.describe ++ ", got: " ++ written
  | missingSlot slot => "missing required " ++ quoted "slot" slot ++ " for component " ++ component
  | missingSlotAttr slot attr => "missing required " ++ quoted "attribute" attr ++ " in " ++
    quoted "slot" slot ++ " for component " ++ component
  | undefinedSlotAttr slot attr => "undefined " ++ quoted "attribute" attr ++ " in " ++
    quoted "slot" slot ++ " for component " ++ component
  | undefinedSlot slot => "undefined " ++ quoted "slot" slot ++ " for component " ++ component

def attrData (attr : String) : List (String × Datum) := [("attribute", .text attr)]

def slotData (slot : Option String) : List (String × Datum) :=
  (slot.map fun s => ("slot", Datum.text s)).toList

/-- A type as diagnostics carry it. -/
def typeDatum : AttrType → Datum
  | .struct name => .fields [("struct", .text name)]
  | type => .text type.text

def data : CallFault → List (String × Datum)
  | undefinedComponent => []
  | missingAttr attr | undefinedAttr attr => attrData attr
  | restGiven attr slot => attrData attr ++ slotData slot
  | typeMismatch attr slot type _ => attrData attr ++ slotData slot ++ [("type", typeDatum type)]
  | missingSlot slot | undefinedSlot slot => slotData (some slot)
  | missingSlotAttr slot attr | undefinedSlotAttr slot attr =>
    slotData (some slot) ++ attrData attr

end CallFault

/-- A fault with the place it is reported at. -/
structure CallFinding where
  fault : CallFault
  span : Span
deriving DecidableEq, Repr, Inhabited

/-- How messages name the called component. -/
def Target.display (t : Target) : String := t.unit.getD "" ++ "." ++ t.name

/-- The warning about a call. -/
def CallFinding.warning (f : CallFinding) (call : ComponentCall) (source : Source) : Diagnostic :=
  let component := call.target.display
  f.fault.code.report .verify source (f.fault.message component) (some f.span)
    (("component", .text component) :: f.fault.data)

/-- The value of an attribute as it is written; `true` where none is. -/
def RecordedAttribute.written (a : RecordedAttribute) (source : Source) : String :=
  match Text.cut? ['='] (source.slice a.span).toList with
  | none => "true"
  | some (_, value) =>
    let value := Text.trim value
    if value.head? = some '\x7b' ∧ value.getLast? = some '\x7d' then
      String.ofList (Text.trim (value.tail.dropLast))
    else String.ofList value

/-- Checks a given value against its declaration. -/
def AttrSpec.check (attr : AttrSpec) (slot : Option String) (source : Source)
    (given : RecordedAttribute) : List CallFinding :=
  if attr.type = .rest then [⟨.restGiven attr.name slot, given.span⟩]
  else if attr.type.acceptsShape given.shape then []
  else [⟨.typeMismatch attr.name slot attr.type (given.written source), given.span⟩]

namespace ComponentCall

/-- The attributes of a call, each name once with what it was given last. -/
def given (call : ComponentCall) : Assoc String RecordedAttribute :=
  Assoc.setAll [] (call.attributes.map fun a => (a.name, a))

/-- A declared attribute: it is checked, or it is missing. -/
def checkAttr (call : ComponentCall) (source : Source) (attr : AttrSpec) : List CallFinding :=
  match Assoc.get? call.given attr.name with
  | some a => attr.check none source a
  | none =>
    if attr.required && !call.hasSpread then [⟨.missingAttr attr.name, call.span⟩] else []

/-- Attributes that are not declared. -/
def strayAttrs (call : ComponentCall) (spec : ComponentSpec) : List CallFinding :=
  call.given.filterMap fun (name, a) =>
    if spec.attrs.any (·.name = name) then none
    else if hasRest spec.attrs && GlobalAttribute.contains name then none
    else some ⟨.undefinedAttr name, a.span⟩

/-- The entries of each slot. Content of the call itself is the one entry of the default slot. -/
def entries (call : ComponentCall) : Assoc String (List RecordedSlot) :=
  let grouped := call.slots.foldl (fun slots e =>
    Assoc.set slots e.name ((Assoc.get? slots e.name).getD [] ++ [e])) []
  if call.hasInnerBlock then
    Assoc.set grouped innerBlock [⟨innerBlock, [], false, call.span⟩]
  else grouped

/-- Required attributes of a slot that an entry does not give. -/
def missingSlotAttrs (slot : SlotSpec) (entry : RecordedSlot) : List CallFinding :=
  slot.attrs.filterMap fun attr =>
    if attr.required && !entry.hasSpread && !entry.attributes.any (·.name = attr.name) then
      some ⟨.missingSlotAttr slot.name attr.name, entry.span⟩
    else none

/-- An attribute of an entry: it is checked, or it is not declared. -/
def checkSlotAttr (slot : SlotSpec) (source : Source) (a : RecordedAttribute) :
    List CallFinding :=
  match slot.attrs.find? (·.name = a.name) with
  | some attr => attr.check (some slot.name) source a
  | none =>
    if hasRest slot.attrs && GlobalAttribute.contains a.name then []
    else [⟨.undefinedSlotAttr slot.name a.name, a.span⟩]

/-- A declared slot: each of its entries is checked, or it is missing. -/
def checkSlot (call : ComponentCall) (source : Source) (slot : SlotSpec) : List CallFinding :=
  match Assoc.get? call.entries slot.name with
  | some entries => entries.flatMap fun e =>
    missingSlotAttrs slot e ++ e.attributes.flatMap (checkSlotAttr slot source)
  | none => if slot.required then [⟨.missingSlot slot.name, call.span⟩] else []

/-- Entries of slots that are not declared. The default slot need not be, once a slot is. -/
def straySlots (call : ComponentCall) (spec : ComponentSpec) : List CallFinding :=
  call.entries.flatMap fun (name, entries) =>
    if spec.slots.any (·.name = name) ∨ (name = innerBlock ∧ spec.slots ≠ []) then []
    else entries.map fun e => ⟨.undefinedSlot name, e.span⟩

/-- All that is doubtful about a call. -/
def check (call : ComponentCall) (spec : ComponentSpec) (source : Source) : List CallFinding :=
  spec.attrs.flatMap (call.checkAttr source) ++ call.strayAttrs spec ++
    spec.slots.flatMap (call.checkSlot source) ++ call.straySlots spec

end ComponentCall

end LiveTemplate
