import LiveTemplate.Expr.Reading
import LiveTemplate.Markup.Lexer
import LiveTemplate.Node

/-!
Building the parse tree from tokens. Open tags and blocks form a stack; every token changes the
innermost of them or closes it into its parent.
-/

namespace LiveTemplate

set_option autoImplicit false

/-- A tag or block that is still open. -/
inductive OpenNode where
  /-- Attributes and loop header are those of an element; slot entries those of a component. -/
  | tag (tag : OpenTag) (children : List Node) (attributes : List ElementAttribute)
      (slots : List SlotEntry) (loop : Option ForHeader)
  /-- The branches before the current one, and the current one. -/
  | conditional (before : List Branch) (current : Branch) (start : Int)
  | loop (header : ForHeader) (children : List Node) (start : Int)

/-- The parse so far, with the innermost open node first. -/
structure ParseState where
  stack : List OpenNode
  nodes : List Node
  calls : List ComponentCall
deriving Inhabited

namespace NodeTree

/-- Adds a node to an open one. -/
def attach (node : Node) : OpenNode → OpenNode
  | .tag t children attributes slots loop => .tag t (children ++ [node]) attributes slots loop
  | .conditional before current start =>
    .conditional before { current with body := current.body ++ [node] } start
  | .loop header children start => .loop header (children ++ [node]) start

/-- Adds a node where the parse stands. -/
def push (state : ParseState) (node : Node) : ParseState :=
  match state.stack with
  | top :: rest => { state with stack := attach node top :: rest }
  | [] => { state with nodes := state.nodes ++ [node] }

def enter (state : ParseState) (node : OpenNode) : ParseState :=
  { state with stack := node :: state.stack }

/-- Turns a fault in embedded code into an error of the template. -/
def placed {α : Type} (place : CodePlace) : Except ExprError α → Except SyntaxError α
  | .ok a => .ok a
  | .error e => .error ⟨.badCode place e.fault, e.span⟩

def readExpr (code : List Char) (base : Int) : Except SyntaxError Expr :=
  placed .expression (Expr.ofChars code base)

def readSlice (slice : CodeSlice) : Except SyntaxError Expr :=
  readExpr slice.text.toList slice.span.start

/-! ### Attributes -/

/-- Whether a name begins with a colon. -/
def isDirective (name : String) : Bool := name.toList.head? = some ':'

/-- The attributes of an element, and its loop header with the attribute that gives it. -/
def elementAttributes (source : Source) :
    List TagAttribute → Option (ForHeader × Span) →
    Except SyntaxError (List ElementAttribute × Option ForHeader)
  | [], loop => .ok ([], loop.map Prod.fst)
  | .spread slice span :: rest, loop => do
    let value ← readSlice slice
    let (more, loop) ← elementAttributes source rest loop
    .ok (.spread value span :: more, loop)
  | .named name value span :: rest, loop =>
    if name = ":for" then
      match loop, value with
      | some (_, first), _ =>
        .error ⟨.secondFor (source.positionAt first.start).line, span⟩
      | none, .code slice => do
        let header ← placed .forAttribute (ForHeader.ofText slice.text slice.span.start)
        elementAttributes source rest (some (header, span))
      | none, _ => .error ⟨.forWithoutCode, span⟩
    else if isDirective name then .error ⟨.badAttribute name .element, span⟩
    else do
      let attr ← match value with
        | .literal value quote => .ok (.literal name value quote span)
        | .none => .ok (.flag name span)
        | .code slice => do
          let value ← readSlice slice
          .ok (.code name value span)
      let (more, loop) ← elementAttributes source rest loop
      .ok (attr :: more, loop)

/-- A named attribute of a component or slot entry. -/
def componentAttribute (name : String) (value : AttributeValue) (span : Span) :
    Except SyntaxError ComponentAttribute :=
  match value with
  | .literal value _ =>
    .ok (.named name (.literal (.text value) span) .string (.text value) span)
  | .none => .ok (.named name (.literal (.flag true) span) .boolean (.flag true) span)
  | .code slice => do
    let value ← readSlice slice
    .ok (.named name value value.shape.1 value.shape.2 span)

/-- The attributes of a component or slot entry, and its `:let` pattern with the attribute that
gives it. -/
def componentAttributes (source : Source) (place : TagPlace) :
    List TagAttribute → Option (Pattern × Span) →
    Except SyntaxError (List ComponentAttribute × Option (Pattern × Span))
  | [], binding => .ok ([], binding)
  | .spread slice span :: rest, binding => do
    let value ← readSlice slice
    let (more, binding) ← componentAttributes source place rest binding
    .ok (.spread value span :: more, binding)
  | .named name value span :: rest, binding =>
    if name = ":let" then
      match binding, value with
      | some (_, first), _ =>
        .error ⟨.secondLet (source.positionAt first.start).line, span⟩
      | none, .code slice => do
        let pattern ← placed .letAttribute (Pattern.ofText slice.text slice.span.start)
        componentAttributes source place rest (some (pattern, span))
      | none, _ => .error ⟨.letWithoutCode, span⟩
    else if isDirective name then .error ⟨.badAttribute name place, span⟩
    else do
      let attr ← componentAttribute name value span
      let (more, binding) ← componentAttributes source place rest binding
      .ok (attr :: more, binding)

/-- A `:let` needs content to bind in. -/
def requireContent (place : TagPlace) (binding : Option (Pattern × Span))
    (body : Option (List Node)) : Except SyntaxError Unit :=
  match binding, body with
  | some (_, span), none => .error ⟨.letWithoutContent place, span⟩
  | _, _ => .ok ()

/-! ### Components and slots -/

/-- The component that a tag name calls. The last point parts a unit's name from the component's. -/
def targetOf (kind : TagKind) (name : String) : Target :=
  if kind = .localComponent then ⟨none, String.ofList (name.toList.drop 1)⟩
  else
    let pieces := Text.splitAt '.' name.toList
    ⟨some (String.intercalate "." (pieces.dropLast.map String.ofList)),
      String.ofList (pieces.getLastD [])⟩

/-- A call of a component, which is also recorded. -/
def closeComponent (source : Source) (state : ParseState) (tag : OpenTag) (slots : List SlotEntry)
    (body : Option (List Node)) (span : Span) : Except SyntaxError ParseState := do
  let target := targetOf tag.kind tag.name
  let (attributes, binding) ← componentAttributes source .component tag.attributes none
  requireContent .component binding body
  let call : ComponentCall := {
    target := target
    attributes := attributes.filterMap ComponentAttribute.record?
    slots := slots.map SlotEntry.record
    hasSpread := attributes.any ComponentAttribute.isSpread
    hasInnerBlock := (body.getD []).any fun n => !n.isBlank
    file := source.file
    span := tag.span }
  let node : Node := .component {
    tag := tag.name
    target := target
    pattern := binding.map Prod.fst
    attributes := attributes
    slots := slots
    body := body
    call := call
    span := span }
  .ok (push { state with calls := state.calls ++ [call] } node)

def slotEntry (source : Source) (tag : OpenTag) (body : Option (List Node)) (span : Span) :
    Except SyntaxError SlotEntry := do
  let (attributes, binding) ← componentAttributes source .slot tag.attributes none
  requireContent .slot binding body
  .ok ⟨String.ofList (tag.name.toList.drop 1), binding.map Prod.fst, attributes, body, span⟩

/-- Adds a slot entry to the component it stands in. -/
def addSlot (state : ParseState) (entry : SlotEntry) : ParseState :=
  match state.stack with
  | .tag t children attributes slots loop :: rest =>
    { state with stack := .tag t children attributes (slots ++ [entry]) loop :: rest }
  | _ => state

/-- Wraps an element into the loop of its `:for`. -/
def inLoop (loop : Option ForHeader) (node : Node) : Node :=
  match loop with
  | some header => .loop header [node] node.span
  | none => node

/-! ### Tokens -/

/-- Whether the innermost open node is a component. -/
def insideComponent (state : ParseState) : Bool :=
  match state.stack with
  | .tag t _ _ _ _ :: _ => t.kind.isComponent
  | _ => false

def openSlot (source : Source) (state : ParseState) (tag : OpenTag) :
    Except SyntaxError ParseState :=
  if tag.name = ":inner_block" then .error ⟨.reservedSlot, tag.span⟩
  else if !insideComponent state then .error ⟨.slotPlace tag.name, tag.span⟩
  else if tag.selfClosing then do
    let entry ← slotEntry source tag none tag.span
    .ok (addSlot state entry)
  else .ok (enter state (.tag tag [] [] [] none))

def openElement (source : Source) (state : ParseState) (tag : OpenTag) :
    Except SyntaxError ParseState := do
  let (attributes, loop) ← elementAttributes source tag.attributes none
  if tag.selfClosing ∨ tag.kind = .void then
    let element := Node.element tag.name (tag.kind = .void) attributes [] tag.span
    .ok (push state (inLoop loop element))
  else .ok (enter state (.tag tag [] attributes [] loop))

def openTag (source : Source) (state : ParseState) (tag : OpenTag) :
    Except SyntaxError ParseState :=
  match tag.kind with
  | .slot => openSlot source state tag
  | .localComponent | .remoteComponent =>
    if tag.selfClosing then closeComponent source state tag [] none tag.span
    else .ok (enter state (.tag tag [] [] [] none))
  | .element | .void => openElement source state tag

def closeTag (source : Source) (state : ParseState) (name : String) (span : Span) :
    Except SyntaxError ParseState :=
  match state.stack with
  | .tag tag children attributes slots loop :: rest =>
    if tag.name = name then
      let outer := { state with stack := rest }
      let full := tag.span.join span
      match tag.kind with
      | .slot => do
        let entry ← slotEntry source tag (some children) full
        .ok (addSlot outer entry)
      | .localComponent | .remoteComponent =>
        closeComponent source outer tag slots (some children) full
      | .element | .void =>
        .ok (push outer (inLoop loop (.element tag.name false attributes children full)))
    else
      let line := (source.positionAt tag.span.start).line
      .error ⟨.wrongCloseTag tag.name name line tag.span span, span⟩
  | _ => .error ⟨.strayCloseTag name, span⟩

/-- Whether a text begins with a word, up to the word's end. -/
def startsWord (word : List Char) (cs : List Char) : Bool :=
  word.isPrefixOf cs &&
    match cs.drop word.length with
    | c :: _ => !(c.isAlphanum || c = '_')
    | [] => true

/-- What follows an `else` and blanks and an `if`, with the count of characters before it. -/
def elseIf? (cs : List Char) : Option (List Char × Nat) :=
  let tail := cs.drop 4
  let blanks := (tail.takeWhile Text.isBlank).length
  if ['e', 'l', 's', 'e'].isPrefixOf cs ∧ 0 < blanks ∧ startsWord ['i', 'f'] (tail.drop blanks)
  then some (tail.drop (blanks + 2), 4 + blanks + 2)
  else none

/-- Closes the innermost block, which must not hold an open tag. -/
def endBlock (state : ParseState) (span : Span) : Except SyntaxError ParseState :=
  match state.stack with
  | .conditional before current start :: rest =>
    .ok (push { state with stack := rest }
      (.conditional (before ++ [current]) ⟨start, span.stop⟩))
  | .loop header children start :: rest =>
    .ok (push { state with stack := rest } (.loop header children ⟨start, span.stop⟩))
  | .tag tag _ _ _ _ :: _ => .error ⟨.unclosedTag tag.name .block tag.span, tag.span⟩
  | [] => .error ⟨.noBlock .stop, span⟩

/-- Begins the next branch of the innermost conditional. -/
def nextBranch (state : ParseState) (condition : Except SyntaxError (Option Expr)) (span : Span) :
    Except SyntaxError ParseState :=
  match state.stack with
  | .conditional before current start :: rest =>
    if current.condition.isNone then .error ⟨.elseAfterElse, span⟩
    else do
      let condition ← condition
      let next := OpenNode.conditional (before ++ [current]) ⟨condition, [], span⟩ start
      .ok { state with stack := next :: rest }
  | .loop _ _ _ :: _ => .error ⟨.elseInLoop, span⟩
  | .tag tag _ _ _ _ :: _ => .error ⟨.unclosedTag tag.name .block tag.span, tag.span⟩
  | [] => .error ⟨.noBlock .otherwise, span⟩

/-- A control marker with its code, blanks around it dropped; `base` is where the code begins. -/
def control (state : ParseState) (code : List Char) (base : Int) (span : Span) :
    Except SyntaxError ParseState :=
  if code = ['e', 'n', 'd'] then endBlock state span
  else if code = ['e', 'l', 's', 'e'] then nextBranch state (.ok none) span
  else match elseIf? code with
    | some (condition, n) =>
      nextBranch state ((readExpr condition (base + n)).map some) span
    | none => .error ⟨.badMarker (String.ofList code), span⟩

def code (state : ParseState) (mark : CodeMark) (slice : CodeSlice) (span : Span) :
    Except SyntaxError ParseState :=
  let cs := slice.text.toList
  let front := Text.width (cs.takeWhile Text.isBlank)
  let trimmed := Text.trim cs
  let base := slice.span.start + front
  if mark = .control then control state trimmed base span
  else if mark = .output ∧ startsWord ['i', 'f'] trimmed then do
    let condition ← readExpr (trimmed.drop 2) (base + 2)
    .ok (enter state (.conditional [] ⟨some condition, [], span⟩ span.start))
  else if mark = .output ∧ startsWord ['f', 'o', 'r'] trimmed then do
    let header ← placed .expression (ForHeader.ofChars (trimmed.drop 3) (base + 3))
    .ok (enter state (.loop header [] span.start))
  else do
    let value ← readSlice slice
    .ok (push state (.code value span))

/-- Reads one token. -/
def step (source : Source) (state : ParseState) : Token → Except SyntaxError ParseState
  | .text content span => .ok (push state (.text content span))
  | .openTag tag => openTag source state tag
  | .closeTag name _ span => closeTag source state name span
  | .code mark slice span => code state mark slice span

/-- Nothing may be open at the end. -/
def finish (source : Source) (state : ParseState) : Except SyntaxError NodeTree :=
  match state.stack with
  | [] => .ok ⟨state.nodes, Node.isRoot state.nodes, state.calls⟩
  | .tag tag _ _ _ _ :: _ => .error ⟨.unclosedTag tag.name .template tag.span, tag.span⟩
  | .conditional _ _ start :: _ => .error ⟨.unclosedBlock .conditional, ⟨start, source.width⟩⟩
  | .loop _ _ start :: _ => .error ⟨.unclosedBlock .loop, ⟨start, source.width⟩⟩

/-- The tree of a list of tokens. -/
def ofTokens (tokens : List Token) (source : Source) : Except SyntaxError NodeTree := do
  let state ← tokens.foldlM (step source) ⟨[], [], []⟩
  finish source state

/-- The tree of a template. -/
def ofSource (source : Source) : Except SyntaxError NodeTree := do
  let tokens ← Token.ofSource source
  ofTokens tokens source

end NodeTree

end LiveTemplate
