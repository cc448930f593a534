import LiveTemplate.Tree

/-!
The page of a rendered tree. References to components are looked up in a table.
-/

namespace LiveTemplate

set_option autoImplicit false

/-- Texts between statics. -/
def interleave : List String → List String → String
  | [], texts => String.join texts
  | s :: _, [] => s
  | s :: statics, t :: texts => s ++ t ++ interleave statics texts

mutual

/-- The text of a dynamic, with the pages of components from a parameter. -/
def Dynamic.htmlWith (component : Nat → Except TreeError String) : Dynamic → Except TreeError String
  | ⟨_, content⟩ => Content.htmlWith component content

def Content.htmlWith (component : Nat → Except TreeError String) :
    Content → Except TreeError String
  | .text s => .ok s
  | .component cid => component cid
  | .nested tree => Tree.htmlWith component tree
  | .list trees => String.join <$> Tree.allHtmlWith component trees
  | .rows _ statics rows => String.join <$> Row.allHtmlWith component statics rows

/-- The page of a tree. -/
def Tree.htmlWith (component : Nat → Except TreeError String) : Tree → Except TreeError String
  | ⟨_, statics, dynamics, _, _⟩ => interleave statics <$> Dynamic.allHtmlWith component dynamics

def Row.htmlWith (component : Nat → Except TreeError String) (statics : List String) :
    Row → Except TreeError String
  | ⟨_, dynamics⟩ => interleave statics <$> Dynamic.allHtmlWith component dynamics

def Dynamic.allHtmlWith (component : Nat → Except TreeError String) :
    List Dynamic → Except TreeError (List String)
  | [] => .ok []
  | d :: rest => do
    let text ← Dynamic.htmlWith component d
    let texts ← Dynamic.allHtmlWith component rest
    .ok (text :: texts)

def Tree.allHtmlWith (component : Nat → Except TreeError String) :
    List Tree → Except TreeError (List String)
  | [] => .ok []
  | t :: rest => do
    let text ← Tree.htmlWith component t
    let texts ← Tree.allHtmlWith component rest
    .ok (text :: texts)

def Row.allHtmlWith (component : Nat → Except TreeError String) (statics : List String) :
    List Row → Except TreeError (List String)
  | [] => .ok []
  | r :: rest => do
    let text ← Row.htmlWith component statics r
    let texts ← Row.allHtmlWith component statics rest
    .ok (text :: texts)

end

/-- The page of a component, nested so deep at most. -/
def componentHtml (table : Nat → Option Tree) : Nat → Nat → Except TreeError String
  | 0, _ => .error .endless
  | depth + 1, cid =>
    match table cid with
    | none => .error (.notMounted cid)
    | some tree => tree.htmlWith (componentHtml table depth)

/-- The page of a tree with a table of components. Components that are nested deeper than the
table has entries contain themselves. -/
def Tree.html (tree : Tree) (components : List (Nat × Tree)) : Except TreeError String :=
  let table (cid : Nat) : Option Tree := (components.find? fun c => c.1 == cid).map Prod.snd
  tree.htmlWith (componentHtml table (components.length + 1))

end LiveTemplate
