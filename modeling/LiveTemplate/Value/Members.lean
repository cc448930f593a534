import LiveTemplate.Eval.Fault
import LiveTemplate.Text.Quoted
import LiveTemplate.Value.Bindings

/-!
Members of values: what they hold themselves, the methods of their kind, and what all values have
in common. Records come to the members of their parents.
-/

namespace LiveTemplate

set_option autoImplicit false

namespace Method

def textMethod? : String → Option TextMethod
  | "toUpperCase" => some .toUpperCase
  | "toLowerCase" => some .toLowerCase
  | "trim" => some .trim
  | "slice" => some .slice
  | "includes" => some .includes
  | "startsWith" => some .startsWith
  | "endsWith" => some .endsWith
  | "indexOf" => some .indexOf
  | "split" => some .split
  | "charAt" => some .charAt
  | "repeat" => some .repeat
  | "concat" => some .concat
  | "replace" => some .replace
  | "padStart" => some .padStart
  | _ => none

def listMethod? : String → Option ListMethod
  | "map" => some .map
  | "filter" => some .filter
  | "find" => some .find
  | "some" => some .some
  | "every" => some .every
  | "reduce" => some .reduce
  | "slice" => some .slice
  | "concat" => some .concat
  | "indexOf" => some .indexOf
  | "includes" => some .includes
  | "join" => some .join
  | "flat" => some .flat
  | _ => none

def numberMethod? : String → Option NumberMethod
  | "toFixed" => some .toFixed
  | "toString" => some .toString
  | _ => none

/-- How many arguments a method names. -/
def parameterCount : Method → Nat
  | .text .toUpperCase | .text .toLowerCase | .text .trim | .list .flat => 0
  | .text .slice | .text .split | .text .replace | .text .padStart | .list .slice => 2
  | .conversion .dateInterchange => 1
  | .conversion _ => 0
  | _ => 1

end Method

namespace Value

/-- The text of the unit at an offset. -/
def unitAt? (s : String) (i : Nat) : Option Value :=
  if i < Text.length s then some (text (String.ofList (Text.slice i (i + 1) s.toList))) else none

/-- How many arguments a function asks for. -/
def parameterCount : Value → Nat
  | method m => m.parameterCount
  | helper .raw | helper .assignsToAttributes => 1
  | _ => 0

/-- The length of a value that has one of its own. -/
def length? : Value → Option Nat
  | text s => some (Text.length s)
  | list _ items => some items.length
  | v => if v.isFunction then some v.parameterCount else none

/-- What a value holds under a name itself. -/
def own? (v : Value) (name : String) : Option Value :=
  match v with
  | record _ _ fields => Assoc.get? fields name
  | html _ markup => if name = "html" then some (text markup) else none
  | v =>
    if name = "length" then v.length?.map fun n => number (Float.ofNat n)
    else
      match v, Record.index? name with
      | text s, some i => unitAt? s i
      | list _ items, some i => items[i]?
      | _, _ => none

/-- What the values of a kind have in common with all others. -/
def sharedMember? (kind name : String) : Option Value :=
  match name with
  | "toString" => some (method (.conversion .kindText))
  | "valueOf" => some (method (.conversion .itself))
  | "hasOwnProperty" => some (method .holds)
  | "constructor" => some (method (.unused kind name))
  | name =>
    if name ∈ sharedNames ∧ name ≠ parentName then some (method (.unused "" name)) else none

/-- A conversion that a kind of values has in place of a shared one. -/
def conversion? (table : List (String × Conversion)) (name : String) : Option Value :=
  (table.lookup name).map fun c => method (.conversion c)

/-- The member of a name that comes with the kind of a value. -/
def kindMember? (v : Value) (name : String) : Option Value :=
  match v with
  | undefined | null => none
  | text _ => ((Method.textMethod? name).map fun m => method (.text m))
      |>.or (conversion? [("toString", .textItself), ("valueOf", .textItself)] name)
      |>.or (sharedMember? "String" name)
  | number _ => ((Method.numberMethod? name).map fun m => method (.number m))
      |>.or (conversion? [("valueOf", .numberItself)] name)
      |>.or (sharedMember? "Number" name)
  | flag _ => (conversion? [("toString", .flagText), ("valueOf", .flagItself)] name)
      |>.or (sharedMember? "Boolean" name)
  | list _ _ => ((Method.listMethod? name).map fun m => method (.list m))
      |>.or (conversion? [("toString", .listText)] name)
      |>.or (sharedMember? "Array" name)
  | map _ entries =>
    match name with
    | "size" => some (number (Float.ofNat entries.length))
    | "get" => some (method .mapGet)
    | "has" => some (method .mapHas)
    | name => sharedMember? "Map" name
  | set _ items =>
    match name with
    | "size" => some (number (Float.ofNat items.length))
    | "has" => some (method .setHas)
    | name => sharedMember? "Set" name
  | date _ _ =>
    (conversion? [("toString", .dateText), ("valueOf", .dateNumber), ("toJSON", .dateInterchange)]
      name).or (sharedMember? "Date" name)
  | html _ _ => (conversion? [("toString", .markupText)] name).or (sharedMember? "SafeHtml" name)
  | method _ | helper _ | closure _ _ _ _ =>
    (conversion? [("toString", .functionText)] name).or (sharedMember? "Function" name)
  | record _ _ _ | block _ _ => sharedMember? "Object" name

/-- The member of a name: a value's own, its parent's, or that of its kind. -/
def lookup? : Value → String → Option Value
  | record id parent fields, name =>
    match Assoc.get? fields name with
    | some v => some v
    | none =>
      match parent with
      | .plain => (record id .plain []).kindMember? name
      | .nothing => none
      | .value v => lookup? v name
  | v, name => (v.own? name).or (v.kindMember? name)

/-- Whether a record would take its size from a map or a set among its parents; a size is told of
maps and sets alone. -/
def borrowsSize : Value → Bool
  | record _ (.value v) fields =>
    !Assoc.contains fields "size" &&
      match v with
      | map _ _ | set _ _ => true
      | v => v.borrowsSize
  | _ => false

/-- The parent of a value, as far as templates can tell. -/
def parent : Value → Value
  | undefined | null => undefined
  | record _ (.value v) _ => v
  | record _ .nothing _ => undefined
  | record _ .plain _ => record 0 .nothing []
  | list _ _ => list 0 []
  | text _ => text ""
  | _ => record 0 .plain []

/-- What a member of a value is; undefined when it has none of that name. -/
def member (v : Value) (name : String) : Eval Value :=
  if name = "size" && v.borrowsSize then throw .badOperand
  else if name = parentName && v.takesParent then return v.parent
  else return (v.lookup? name).getD undefined

/-- The fields that a value lists as its own. -/
def entries : Value → Record Value
  | record _ _ fields => fields
  | list _ items => items.zipIdx.map fun (v, i) => (toString i, v)
  | text s => s.toList.zipIdx.map fun (c, i) => (toString i, text (String.singleton c))
  | html _ markup => [("html", text markup)]
  | _ => []

/-- The operator `typeof`. -/
def typeName : Value → String
  | undefined => "undefined"
  | flag _ => "boolean"
  | number _ => "number"
  | text _ => "string"
  | method _ | helper _ | closure _ _ _ _ => "function"
  | _ => "object"

/-- The kind of a value. Records pass for maps and sets when these are among their parents. -/
def kindName : Value → String
  | undefined => "Undefined"
  | null => "Null"
  | flag _ => "Boolean"
  | number _ => "Number"
  | text _ => "String"
  | list _ _ => "Array"
  | date _ _ => "Date"
  | method _ | helper _ | closure _ _ _ _ => "Function"
  | v =>
    match v.origin with
    | map _ _ => "Map"
    | set _ _ => "Set"
    | _ => "Object"

/-- The text of a value that is not compound. -/
def plainText : Value → String
  | undefined => "undefined"
  | null => "null"
  | flag b => if b then "true" else "false"
  | number x => Number.text x
  | text s => s
  | _ => ""

/-- How messages name a value. -/
def describe (v : Value) : String :=
  match v with
  | text s => Text.quote s
  | list _ _ => "an array"
  | method _ | helper _ | closure _ _ _ _ => "a function"
  | v =>
    if v.fields?.isSome then "an object"
    else if v.isCompound then "a " ++ v.kindName
    else v.plainText

end Value

/-- The argument at a position; undefined when it was not given. -/
def argument (args : List Value) (i : Nat) : Value := args.getD i .undefined

end LiveTemplate
