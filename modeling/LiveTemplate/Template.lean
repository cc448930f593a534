import LiveTemplate.Fragment.Building
import LiveTemplate.Node.Parsing
import LiveTemplate.Render

/-!
Compiled templates: a fragment with the helpers and the unit it was compiled with.
-/

namespace LiveTemplate

set_option autoImplicit false

structure Template where
  source : Source
  helpers : Assoc String Value
  /-- The unit whose components can be called. -/
  unit : Option Nat
  fragment : Fragment
  calls : List ComponentCall

/-- The events of reading segments, as far as they can be read. -/
def Lexer.events : List Segment → LexState → List Event
  | [], _ => []
  | .text content start :: rest, state =>
    match chunk content state start with
    | .ok (_, next) => events rest next
    | .error _ => []
  | .marker _ _ _ start _ :: rest, state =>
    let more := events rest state
    match state with
    | .text => more
    | state => .markerInRaw state.name start :: more

namespace Template

/-- Compiles a source. -/
def ofSource (source : Source) (helpers : Assoc String Value) (unit : Option Nat)
    (trimmed : Bool) : Except SyntaxError Template := do
  let tree ← NodeTree.ofSource source
  let fragment := Fragment.ofTree tree source (Assoc.keys helpers) trimmed
  .ok ⟨source, helpers, unit, fragment, tree.calls⟩

/-- What compiling a source reports, up to the stage that fails. -/
def events (source : Source) (helpers : Assoc String Value) (trimmed : Bool) : List Event :=
  match Segment.ofSource source with
  | .error _ => []
  | .ok segments =>
    let lexed := Lexer.events segments .text
    match Token.ofSource source with
    | .error _ => lexed
    | .ok tokens =>
      let lexed := lexed ++ [.tokens source.file tokens.length]
      match NodeTree.ofTokens tokens source with
      | .error _ => lexed
      | .ok tree =>
        let f := Fragment.ofTree tree source (Assoc.keys helpers) trimmed
        lexed ++ [.fragment source.file tree.children.length tree.root,
          .template source.file f.fingerprint f.statics.length f.plans.length]

/-- Compiles a source and reports it. -/
def compile (source : Source) (helpers : Assoc String Value) (unit : Option Nat)
    (trimmed : Bool) : Traced (Except SyntaxError Template) := do
  Traced.emitAll (events source helpers trimmed)
  return ofSource source helpers unit trimmed

/-- The frame of a whole template. -/
def frame (t : Template) (assigns : Bindings) (assignsId : Identity) (changed : Option ChangedSet)
    (render : Nat) : Frame where
  source := t.source
  helpers := t.helpers
  unit := t.unit
  assigns := assigns.fields
  assignsParent := assigns.parent
  assignsId := assignsId
  changed := changed
  render := render
  position := "root"
  cid := none
  locals := []
  owner := none

/-- Renders into a frame; what an earlier tree holds may be reused. -/
def render (t : Template) (resolve : Resolver) (frame : Frame) (previous : Option Tree) :
    Render Tree :=
  renderWithin resolve renderDepth t.fragment frame previous

/-- The page for some bindings, by a render of its own. -/
def page (t : Template) (resolve : Resolver) (assigns : Record Value) :
    Traced (Except RenderError String) := fun journal =>
  let (assignsId, nextId) := freshId.run journal.nextId
  let mounts : Mounts := {}
  let frame := t.frame { fields := assigns } assignsId none mounts.nextRender
  let start : RenderState := ⟨mounts.start none, { journal with nextId }⟩
  let (result, state) := (t.render resolve frame none).run.run start
  let page := result.bind fun root =>
    (state.mounts.snapshot mounts.nextRender root).html.mapError .tree
  (page, state.journal)

end Template

end LiveTemplate
