import LiveTemplate.Eval
import LiveTemplate.Html.Escape

/-!
What values become in a page. Markup is written as it is and anything else is escaped; absent
values and false write nothing between tags and drop an attribute.
-/

namespace LiveTemplate.Html

set_option autoImplicit false

/-- Markup as it is, and the text of anything else escaped. -/
def plain (call : Call) (v : Value) : Eval String := do
  match v.markup? with
  | some markup => return markup
  | none => return escape (← v.toText call)

mutual

/-- The text of a value between tags. -/
def text (call : Call) : Value → Eval String
  | .undefined | .null | .flag false => return ""
  | .list _ items => texts call items
  | v => plain call v

/-- The texts of list items, one after the other. -/
def texts (call : Call) : List Value → Eval String
  | [] => return ""
  | v :: rest => do
    let first ← text call v
    return first ++ (← texts call rest)

end

mutual

/-- The text of a value between the quotes of an attribute. -/
def attributeValue (call : Call) : Value → Eval String
  | .list _ items => attributeValues call items
  | v => plain call v

def attributeValues (call : Call) : List Value → Eval String
  | [] => return ""
  | v :: rest => do
    let first ← attributeValue call v
    return first ++ (← attributeValues call rest)

end

mutual

/-- The items of nested lists in a row. -/
def leaves : Value → List Value
  | .list _ items => allLeaves items
  | v => [v]

def allLeaves : List Value → List Value
  | [] => []
  | v :: rest => leaves v ++ allLeaves rest

end

/-- Whether an entry of a list of classes or styles is left out. -/
def isDropped : Value → Bool
  | .undefined | .null | .flag _ => true
  | .text s => s.isEmpty
  | _ => false

/-- The entries of a value that are kept, with a separator between them. -/
def joined (separator : String) (call : Call) : Value → Eval String
  | .undefined | .null | .flag _ => return ""
  | .list _ items => do
    let kept := (allLeaves items).filter fun v => !isDropped v
    return String.intercalate separator (← kept.mapM (attributeValue call))
  | v => attributeValue call v

/-- Classes are separated by single spaces. -/
def classes : Call → Value → Eval String := joined " "

/-- Declarations of a style are separated by semicolons. -/
def styles : Call → Value → Eval String := joined "; "

/-- A whole attribute with the space before it. -/
def namedAttribute (call : Call) (name : String) : Value → Eval String
  | .flag true => return " " ++ name
  | .undefined | .null | .flag false => return ""
  | v => do
    let value ← if name = "class" then classes call v else attributeValue call v
    return " " ++ name ++ "=\"" ++ value ++ "\""

/-- Names under which a record stands for attributes with a common beginning. -/
def groups : List String := ["data", "aria"]

/-- The attributes that one field of a record stands for. -/
def grouped (field : String × Value) : List (String × Value) :=
  match field.2.fields? with
  | some nested =>
    if field.1 ∈ groups then nested.map fun f => (field.1 ++ "-" ++ f.1, f.2) else [field]
  | none => [field]

/-- A record of attributes. -/
def attributes (call : Call) (fields : Record Value) : Eval String := do
  let written ← (fields.flatMap grouped).mapM fun f => namedAttribute call f.1 f.2
  return String.join written

/-- The attributes that any value lists. -/
def spread (call : Call) (v : Value) : Eval String :=
  if v.isAbsent then throw .badOperand else attributes call v.entries

end LiveTemplate.Html
