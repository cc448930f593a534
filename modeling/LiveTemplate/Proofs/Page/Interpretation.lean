import LiveTemplate.Template

/-!
The text of a template read off its parse tree: text as it is, an element as its tags around its
children, the value of an expression where it stands, the first branch that holds, the body of a loop
for each item. Nothing is cut into statics and holes, and no tree of a page is made.
-/

namespace LiveTemplate

set_option autoImplicit false

/-- An attribute with its value between double quotes. -/
def quotedAttribute (name value : String) : String := " " ++ name ++ "=\"" ++ value ++ "\""

namespace ElementAttribute

/-- The values of the parts of a text, each with the literal piece after it. -/
def interpretParts (scope : Scope) : List (Expr × String) → Eval String
  | [] => return ""
  | (value, piece) :: rest => do
    let v ← value.eval scope
    let text ← Html.attributeValue Value.call v
    return text ++ Html.escape piece ++ (← interpretParts scope rest)

def interpret (scope : Scope) : ElementAttribute → Eval String
  | .literal name value none _ => return " " ++ name ++ "=" ++ value
  | .literal name value (some q) _ =>
    return " " ++ name ++ "=" ++ q.toString ++ value ++ q.toString
  | .flag name _ => return " " ++ name
  | .spread value span => do
    let v ← value.eval scope
    let fields ← v.spreadFields span
    Html.attributes Value.call fields
  | .code name (.template head parts _) _ => do
    return quotedAttribute name (Html.escape head ++ (← interpretParts scope parts))
  | .code name value _ => do
    let v ← value.eval scope
    if name = "class" then return quotedAttribute name (← Html.classes Value.call v)
    else if name = "style" then return quotedAttribute name (← Html.styles Value.call v)
    else Html.namedAttribute Value.call name v

def interpretAll (scope : Scope) : List ElementAttribute → Eval String
  | [] => return ""
  | a :: rest => do
    let text ← a.interpret scope
    return text ++ (← interpretAll scope rest)

end ElementAttribute

mutual

/-- The text of a node, in the scope of a frame. Components are not interpreted. -/
def Node.interpret (frame : Frame) : Node → Eval String
  | .text content _ => return content
  | .code value _ => do
    let v ← value.eval frame.scope
    Html.text Value.call v
  | .element name void attributes children _ => do
    let written ← ElementAttribute.interpretAll frame.scope attributes
    let start := "<" ++ name ++ written ++ ">"
    if void then return start
    else return start ++ (← Node.interpretAll frame children) ++ ("</" ++ name ++ ">")
  | .loop header body _ => do
    let source ← header.items.eval frame.scope
    let items ← source.items Value.call header.items.span
    let texts ← items.mapM fun item => do
      let locals ← header.pattern.bindOver item frame.scope frame.locals
      Node.interpretAll { frame with locals } body
    return String.join texts
  | .conditional branches _ => Branch.interpretFirst frame branches
  | .component _ => return ""

def Node.interpretAll (frame : Frame) : List Node → Eval String
  | [] => return ""
  | node :: rest => do
    let text ← node.interpret frame
    return text ++ (← Node.interpretAll frame rest)

/-- The text of the first branch whose condition holds; nothing if none does. -/
def Branch.interpretFirst (frame : Frame) : List Branch → Eval String
  | [] => return ""
  | ⟨none, body, _⟩ :: _ => Node.interpretAll frame body
  | ⟨some condition, body, _⟩ :: rest => do
    let v ← condition.eval frame.scope
    if v.truthy then Node.interpretAll frame body else Branch.interpretFirst frame rest

end

/-- The text of a whole template for some bindings. -/
def Template.interpret (t : Template) (nodes : List Node) (assigns : Record Value) :
    Eval String := do
  let assignsId ← freshId
  Node.interpretAll (t.frame { fields := assigns } assignsId none 0) nodes

mutual

/-- Whether a node calls no component and puts no slot in its place. -/
def Node.isPlain : Node → Bool
  | .text _ _ => true
  | .code value _ => (Fragment.slotCall? [] value).isNone
  | .element _ _ _ children _ => Node.allPlain children
  | .loop _ body _ => Node.allPlain body
  | .conditional branches _ => Branch.allPlain branches
  | .component _ => false

def Node.allPlain : List Node → Bool
  | [] => true
  | node :: rest => node.isPlain && Node.allPlain rest

def Branch.allPlain : List Branch → Bool
  | [] => true
  | ⟨_, body, _⟩ :: rest => Node.allPlain body && Branch.allPlain rest

end

end LiveTemplate
