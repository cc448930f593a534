import LiveTemplate.Value.Bindings
import LiveTemplate.Value.Sameness

/-!
The declared interface of a component: its attributes with their types and defaults, and its
slots. Applying a spec to what a caller passes gives the bindings the component renders with.
-/

namespace LiveTemplate

set_option autoImplicit false

/-- The types of attributes. -/
inductive AttrType where
  | any | string | atom | boolean | integer | float | list | map
  /-- Collects every attribute that is not declared. -/
  | rest
  /-- A value of a class of its own. -/
  | struct (name : String)
deriving DecidableEq, Repr, Inhabited

namespace AttrType

def text : AttrType → String
  | any => "any"
  | string => "string"
  | atom => "atom"
  | boolean => "boolean"
  | integer => "integer"
  | float => "float"
  | list => "list"
  | map => "map"
  | rest => "global"
  | struct name => name

/-- The type of a name that is not the name of a class. -/
def ofText? : String → Option AttrType
  | "any" => some any
  | "string" => some string
  | "atom" => some atom
  | "boolean" => some boolean
  | "integer" => some integer
  | "float" => some float
  | "list" => some list
  | "map" => some map
  | "global" => some rest
  | _ => none

/-- The type with its article. -/
def describe (type : AttrType) : String :=
  match type with
  | atom | integer | any => "an " ++ type.text
  | type => "a " ++ type.text

/-- Whether a value fits a type. Null fits every type. -/
def accepts (type : AttrType) (v : Value) : Bool :=
  match v with
  | .null => true
  | v =>
    match type with
    | any => true
    | string => match v with | .text _ => true | _ => false
    | atom => match v with | .text _ | .flag _ => true | _ => false
    | boolean => match v with | .flag _ => true | _ => false
    | integer => match v with | .number x => Number.isInteger x | _ => false
    | float => match v with | .number _ => true | _ => false
    | list => match v with | .list _ _ => true | _ => false
    | map | rest => v.fields?.isSome
    | struct _ =>
      match v with
      | .list _ _ => false
      | v => v.isStructured && v.fields?.isNone

/-- Whether a literal of some shape fits a type. What is computed fits every type. -/
def acceptsShape (type : AttrType) (shape : LiteralShape) : Bool :=
  match type, shape with
  | any, _ | _, .expression => true
  | string, .string | atom, .string | atom, .boolean | boolean, .boolean | integer, .integer
  | float, .float | list, .list | map, .map | rest, .map => true
  | _, _ => false

end AttrType

structure AttrSpec where
  name : String
  type : AttrType
  required : Bool
  default : Option Value
  doc : Option String

structure SlotSpec where
  name : String
  required : Bool
  attrs : List AttrSpec
  doc : Option String

structure ComponentSpec where
  name : String
  attrs : List AttrSpec
  slots : List SlotSpec

/-- The attribute that collects what is not declared. -/
def restAttr? (attrs : List AttrSpec) : Option AttrSpec := attrs.find? fun a => a.type = .rest

def hasRest (attrs : List AttrSpec) : Bool := attrs.any fun a => a.type = .rest

namespace ComponentSpec

/-- Nothing is declared; calls are not verified then. -/
def isEmpty (spec : ComponentSpec) : Bool := spec.attrs.isEmpty && spec.slots.isEmpty

/-- The declared defaults of attributes that need not be given. -/
def defaults (spec : ComponentSpec) : List (String × Value) :=
  spec.attrs.filterMap fun a =>
    if a.required ∨ a.type = .rest then none else a.default.map fun v => (a.name, v)

/-- An empty list for each slot that need not be given. -/
def emptySlots (spec : ComponentSpec) : Fresh (List (String × Value)) :=
  (spec.slots.filter fun s => !s.required).mapM fun s => do
    let id ← freshId
    return (s.name, .list id [])

/-- The names that are not collected as further attributes. -/
def knownNames (spec : ComponentSpec) : List String :=
  spec.attrs.map AttrSpec.name ++ spec.slots.map SlotSpec.name ++ [innerBlock, "__slot__"]

/-- What is collected of the values that are not declared, on top of the fields of a default. -/
def collected (attr : AttrSpec) (more : Record Value) : Record Value :=
  Record.merge ((attr.default.bind Value.fields?).getD []) (({} : Bindings).assignAll more).fields

/-- The bindings for what a caller passes. -/
def apply (spec : ComponentSpec) (values : Record Value) : Fresh Bindings := do
  let slots ← spec.emptySlots
  let given := ({} : Bindings).assignAll (spec.defaults ++ slots)
  match restAttr? spec.attrs with
  | none => return given.assignAll values
  | some attr =>
    let (known, more) := values.partition fun e => e.1 ∈ spec.knownNames
    let given := given.assignAll known
    if Assoc.contains values attr.name then return given
    else
      let id ← freshId
      return given.assign attr.name (.record id .plain (collected attr more))

end ComponentSpec

/-! ### Components as templates call them -/

/-- The template of a component, with what it declares and what it can see. -/
structure Definition where
  /-- The name that mount keys show. -/
  name : String
  spec : ComponentSpec
  fragment : Fragment
  source : Source
  helpers : Assoc String Value
  /-- The unit whose components its template can call. -/
  unit : Option Nat

/-- Finds the component that a tag names, from the unit of the template. -/
abbrev Resolver := Option Nat → Target → Option Definition

end LiveTemplate
