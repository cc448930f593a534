import LiveTemplate.Change
import LiveTemplate.Fragment
import LiveTemplate.Identity
import LiveTemplate.Source

/-!
Values that a template can see. Compound values have an identity of their own beside their
content: two lists made at different times differ even when they hold the same items. A record has
a parent, from which it inherits what it does not hold itself. The content of a slot is a value
too; it carries the frame it is to be evaluated in.
-/

namespace LiveTemplate

set_option autoImplicit false

inductive TextMethod where
  | toUpperCase | toLowerCase | trim | slice | includes | startsWith | endsWith | indexOf | split
  | charAt | repeat | concat | replace | padStart
deriving DecidableEq, Repr, Inhabited

inductive ListMethod where
  | map | filter | find | some | every | reduce | slice | concat | indexOf | includes | join | flat
deriving DecidableEq, Repr, Inhabited

inductive NumberMethod where
  | toFixed | toString
deriving DecidableEq, Repr, Inhabited

/-- The methods that turn a value into a plain one; the first two come with every value. -/
inductive Conversion where
  | kindText | itself
  | listText | textItself | numberItself | flagText | flagItself
  | dateText | dateNumber | dateInterchange
  | markupText | functionText
deriving DecidableEq, Repr, Inhabited

/-- The methods that come with values. -/
inductive Method where
  | text (m : TextMethod)
  | list (m : ListMethod)
  | number (m : NumberMethod)
  | conversion (c : Conversion)
  | mapGet
  | mapHas
  | setHas
  /-- Whether a value holds a field itself. -/
  | holds
  /-- A method that templates can name but have no use for. -/
  | unused (owner name : String)
deriving DecidableEq, Repr, Inhabited

/-- The functions every template can call by name. -/
inductive Helper where
  /-- Marks a text as markup that is written as it is. -/
  | raw
  /-- The attributes among what a component was given. -/
  | assignsToAttributes
  /-- Only the plan of a hole renders a slot; a call from anywhere else is an error. -/
  | renderSlot
deriving DecidableEq, Repr, Inhabited

/-- A component and one of its slots. -/
structure SlotOwner where
  cid : Nat
  slot : String
deriving DecidableEq, Repr, Inhabited

mutual

inductive Value where
  | undefined
  | null
  | flag (b : Bool)
  | number (x : Float)
  | text (s : String)
  | list (id : Identity) (items : List Value)
  | record (id : Identity) (parent : Parent) (fields : List (String × Value))
  | map (id : Identity) (entries : List (Value × Value))
  | set (id : Identity) (items : List Value)
  /-- A point in time in milliseconds; none is an invalid one. -/
  | date (id : Identity) (time : Option Int)
  /-- Markup that is written as it is. -/
  | html (id : Identity) (markup : String)
  | method (m : Method)
  | helper (h : Helper)
  /-- A function with the names around it, the innermost first. -/
  | closure (id : Identity) (params : List Pattern) (body : Expr) (scope : List Layer)
  | block (id : Identity) (content : Block)

/-- What a record inherits from. -/
inductive Parent where
  /-- What all values have in common. -/
  | plain
  | nothing
  /-- Another value; the record is then no plain one. -/
  | value (v : Value)

/-- Names with their values. While the names of a pattern are being bound, their layer has an
identity, by which functions made in the meantime come to see the names bound after them. -/
structure Layer where
  id : Option Identity
  names : List (String × Value)

/-- The content of a slot entry, to be rendered by the component that received it. -/
structure Block where
  slot : String
  pattern : Option Pattern
  body : Fragment
  /-- Where the entry stands. -/
  caller : Frame
  /-- What the entry reads may have changed since the last render. -/
  affected : Bool

/-- All that a plan is evaluated against. -/
structure Frame where
  source : Source
  helpers : List (String × Value)
  /-- The unit whose components the template can call. -/
  unit : Option Nat
  /-- The bindings; as one record they have a parent and an identity. -/
  assigns : List (String × Value)
  assignsParent : Parent
  assignsId : Identity
  changed : Option ChangedSet
  /-- The number of the render that mounts the components of this frame. -/
  render : Nat
  /-- Where the plan stands: the root or a component, followed by a path of plans. -/
  position : String
  /-- The component whose template this is. -/
  cid : Option Nat
  locals : List (String × Value)
  /-- The component and slot that the content being rendered was handed to. -/
  owner : Option SlotOwner

end

instance : Inhabited Value := ⟨.undefined⟩

instance : Inhabited Parent := ⟨.plain⟩

/-- Whether a record with this parent is a plain one. -/
def Parent.isPlain : Parent → Bool
  | value _ => false
  | _ => true

/-- Layers of names, the innermost first. -/
abbrev Scope := List Layer

namespace Value

/-- The value a literal spells. -/
def ofLiteral : Literal → Value
  | .text s => .text s
  | .number x => .number x
  | .flag b => .flag b
  | .null => .null
  | .undefined => .undefined

/-- Whether a value is null or undefined. -/
def isAbsent : Value → Bool
  | undefined | null => true
  | _ => false

/-- Whether a value counts as true in a condition. -/
def truthy : Value → Bool
  | undefined | null => false
  | flag b => b
  | number x => !(x == 0 || x.isNaN)
  | text s => !s.isEmpty
  | _ => true

def isFunction : Value → Bool
  | method _ | helper _ | closure _ _ _ _ => true
  | _ => false

/-- The fields of a plain record: one whose parent is no other value. -/
def fields? : Value → Option (Record Value)
  | record _ parent fields => if parent.isPlain then some fields else none
  | _ => none

/-- The identity of a compound value. -/
def identity? : Value → Option Identity
  | list id _ | record id _ _ | map id _ | set id _ | date id _ | html id _
  | closure id _ _ _ | block id _ => some id
  | _ => none

/-- Whether a value is neither a plain scalar nor absent. -/
def isCompound (v : Value) : Bool := v.isFunction || v.identity?.isSome

/-- Whether a value is compound and no function. -/
def isStructured (v : Value) : Bool := v.identity?.isSome && !v.isFunction

/-- A value of some class of its own: it has fields, yet it is no plain record. -/
def ofClass (id : Identity) (fields : Record Value) : Value :=
  record id (.value (record 0 .plain [])) fields

/-- The value at the end of the line of parents. -/
def origin : Value → Value
  | record _ (.value v) _ => origin v
  | v => v

mutual

/-- Replaces a layer, wherever functions inside a value hold an earlier form of it. -/
def rebind (id : Identity) (layer : Layer) : Value → Value
  | list i items => list i (rebindAll id layer items)
  | record i parent fields => record i (rebindParent id layer parent) (rebindNames id layer fields)
  | map i entries => map i (rebindPairs id layer entries)
  | set i items => set i (rebindAll id layer items)
  | closure i params body scope => closure i params body (rebindScope id layer scope)
  | v => v

def rebindParent (id : Identity) (layer : Layer) : Parent → Parent
  | .value v => .value (rebind id layer v)
  | .plain => .plain
  | .nothing => .nothing

def rebindAll (id : Identity) (layer : Layer) : List Value → List Value
  | [] => []
  | v :: rest => rebind id layer v :: rebindAll id layer rest

def rebindNames (id : Identity) (layer : Layer) : List (String × Value) → List (String × Value)
  | [] => []
  | (name, v) :: rest => (name, rebind id layer v) :: rebindNames id layer rest

def rebindPairs (id : Identity) (layer : Layer) : List (Value × Value) → List (Value × Value)
  | [] => []
  | (a, b) :: rest => (rebind id layer a, rebind id layer b) :: rebindPairs id layer rest

/-- What lies outside of the layer is older than it and does not hold it. -/
def rebindScope (id : Identity) (layer : Layer) : List Layer → List Layer
  | [] => []
  | ⟨i, names⟩ :: rest =>
    if i = some id then layer :: rest
    else ⟨i, rebindNames id layer names⟩ :: rebindScope id layer rest

end

end Value

namespace Layer

/-- The value of a name of the layer, as functions in it see the layer now. -/
def current (layer : Layer) (v : Value) : Value :=
  match layer.id with
  | none => v
  | some id => v.rebind id layer

/-- The names once all of them are bound. -/
def finished (layer : Layer) : List (String × Value) :=
  match layer.id with
  | none => layer.names
  | some _ => layer.names.map fun n => (n.1, layer.current n.2)

end Layer

namespace Scope

/-- A scope of one layer. -/
def ofNames (names : List (String × Value)) : Scope := [⟨none, names⟩]

/-- The value of the innermost binding of a name. -/
def lookup : Scope → String → Option Value
  | [], _ => none
  | layer :: rest, name =>
    match Assoc.get? layer.names name with
    | some v => some (layer.current v)
    | none => lookup rest name

/-- Adds a layer inside the others, unless it is empty. -/
def extend (scope : Scope) (layer : Layer) : Scope :=
  if layer.names.isEmpty then scope else layer :: scope

end Scope

/-- Names resolve to locals, then to the record of all bindings, then to helpers, then to
bindings. -/
def Frame.scope (frame : Frame) : Scope :=
  [⟨none, frame.locals⟩,
    ⟨none, [("assigns", .record frame.assignsId frame.assignsParent frame.assigns)]⟩,
    ⟨none, frame.helpers⟩, ⟨none, frame.assigns⟩]

end LiveTemplate
