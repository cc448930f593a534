import LiveTemplate.Html.Encoding
import LiveTemplate.Render.Arguments
import LiveTemplate.Render.Basic

/-!
Rendering: a fragment and a frame give a tree. Where changes are tracked, a plan whose reads are
untouched hands back the dynamic it produced before. Components and slot contents are rendered
through a parameter, which is tied to a depth of nesting at the end.
-/

namespace LiveTemplate

set_option autoImplicit false

/-- What a render calls beyond the fragment at hand: the components that tags name, and the render
of another fragment over what it rendered before. -/
structure Surroundings where
  resolve : Resolver
  render : Fragment → Frame → Option Tree → Render Tree

/-- The dynamics of an earlier tree of the same shape; none if there is no such tree. -/
def earlierDynamics (previous : Option Tree) (fingerprint : String) : List Dynamic :=
  match previous with
  | some tree => if tree.fingerprint = fingerprint then tree.dynamics else []
  | none => []

/-- The rows of an earlier loop of the same shape. -/
def earlierRows (previous : Option Dynamic) (fingerprint : String) : Option (List Row) :=
  match previous with
  | some ⟨_, .rows before _ rows⟩ => if before = fingerprint then some rows else none
  | _ => none

/-- The tree that an earlier dynamic holds by itself. -/
def earlierTree (previous : Option Dynamic) : Option Tree :=
  match previous with
  | some ⟨_, .nested tree⟩ => some tree
  | _ => none

/-- The trees that an earlier dynamic holds in a list. -/
def earlierTrees (previous : Option Dynamic) : List Tree :=
  match previous with
  | some ⟨_, .list trees⟩ => trees
  | _ => []

/-- The earlier dynamic, if nothing that the plan reads has changed. -/
def reusable? (frame : Frame) (reads : Reads) (previous : Option Dynamic) : Option Dynamic :=
  if frame.changed.isSome && !reads.isAffected frame.changed then previous else none

/-- The text of an attribute. -/
def AttributeForm.encode (form : AttributeForm) (name : String) (v : Value) : Eval String :=
  match form with
  | whole => Html.namedAttribute Value.call name v
  | value => Html.attributeValue Value.call v
  | classes => Html.classes Value.call v
  | styles => Html.styles Value.call v

/-- The frame that a slot content is rendered in: that of its caller, in the render that made it,
with the names its pattern binds, at the place of the component that renders it. -/
def Block.frame (block : Block) (locals : List (String × Value)) (host : Frame)
    (position : String) : Frame :=
  { block.caller with
    locals := locals
    changed := if block.affected then block.caller.changed else some []
    position := position
    owner := match host.cid with
      | none => block.caller.owner
      | some cid => some ⟨cid, block.slot⟩ }

/-- Renders a slot entry for the component that received it. -/
def Entry.render (around : Surroundings) (host : Frame) (span : Span) (argument : Value)
    (index : Nat) (previous : Option Tree) (entry : Entry) : Render Tree := do
  match entry.content with
  | none => Render.ofEval (Eval.fail (.emptySlot (some entry.slot)) span)
  | some block =>
    let locals ← match block.pattern with
      | none => pure block.caller.locals
      | some p =>
        Render.ofEval (p.bindOver argument block.caller.scope block.caller.locals)
    let position := host.position ++ ">" ++ entry.slot ++ toString index
    around.render block.body (block.frame locals host position) previous

/-- Renders slot entries, each over the tree of its place. -/
def Entry.renderAll (around : Surroundings) (host : Frame) (span : Span) (argument : Value) :
    Nat → List Tree → List Entry → Render (List Tree)
  | _, _, [] => return []
  | index, previous, entry :: rest => do
    let tree ← entry.render around host span argument index previous.head?
    let trees ← Entry.renderAll around host span argument (index + 1) previous.tail rest
    return tree :: trees

/-- What fills the place of a slot: nothing, one tree, or a list of them. -/
def Entry.fill (around : Surroundings) (frame : Frame) (span : Span) (previous : Option Dynamic)
    (entries : List Entry) (argument : Value) : Render Content :=
  match entries with
  | [] => return .text ""
  | [entry] =>
    .nested <$> entry.render around frame span argument 0 (earlierTree previous)
  | entries =>
    .list <$> Entry.renderAll around frame span argument 0 (earlierTrees previous) entries

/-- Renders the entries that a slot has received. -/
def renderSlot (around : Surroundings) (frame : Frame) (slot : Expr) (argument : Option Expr)
    (span : Span) (previous : Option Dynamic) : Render Content := do
  let v ← Render.value frame slot
  let entries ← Render.ofEval (v.slotEntries slot.span)
  let argument ← match argument with
    | none => pure .undefined
    | some e => Render.value frame e
  Entry.fill around frame span previous entries argument

/-- The frame of a component's own template, in the render of the frame that calls it. -/
def Definition.frame (definition : Definition) (callee : CalleeAssigns) (assignsId : Identity)
    (render cid : Nat) : Frame where
  source := definition.source
  helpers := definition.helpers
  unit := definition.unit
  assigns := callee.assigns.fields
  assignsParent := callee.assigns.parent
  assignsId := assignsId
  changed := callee.changed
  render := render
  position := "c" ++ toString cid
  cid := some cid
  locals := []
  owner := none

/-- Mounts a component and renders its template. -/
def renderComponent (around : Surroundings) (frame : Frame) (plan : ComponentPlan) :
    Render Content := do
  match around.resolve frame.unit plan.target with
  | none => Render.ofEval (Eval.fail (.unknownComponent plan.tag) plan.span)
  | some definition =>
    let key ← Render.ofEval (plan.mountKey frame definition.name)
    let (cid, node) ← Render.ofMounting (Mounts.enter frame.render key)
    let callee ← Render.ofEval (plan.calleeAssigns frame definition.spec node)
    Render.emit (.component cid key (callee.changed.map Assoc.keys))
    let own := definition.frame callee (← Render.newId) frame.render cid
    let tree ← around.render definition.fragment own (node.map Instance.tree)
    let left (a : Arena) : Arena :=
      a.leave cid key node tree callee.assigns.fields frame.owner
    modify fun s => { s with mounts := s.mounts.update frame.render left }
    Render.emit (.mount cid key node.isNone)
    return .component cid

mutual

/-- The tree of a fragment; dynamics of an earlier tree of its shape may be reused. -/
def Fragment.render (around : Surroundings) (frame : Frame) (previous : Option Tree) :
    Fragment → Render Tree
  | ⟨statics, plans, fingerprint, root, _⟩ => do
    let dynamics ← Plan.renderAll around frame 0 (earlierDynamics previous fingerprint) plans
    let id ← Render.newPart
    Render.ofTree (Tree.create id statics dynamics fingerprint root)

/-- One dynamic for each plan. -/
def Plan.renderAll (around : Surroundings) (frame : Frame) (index : Nat)
    (previous : List Dynamic) : List Plan → Render (List Dynamic)
  | [] => return []
  | plan :: rest => do
    let position := frame.position ++ "/" ++ toString index
    let dynamic ← match reusable? frame plan.reads previous.head? with
      | some before => do
        Render.ofMounting (Mounts.retain frame.render before)
        Render.emit (.skip position plan.kind)
        pure before
      | none =>
        Render.placing frame.source do
          let content ←
            Plan.render around { frame with position := position } previous.head? plan
          Render.newDynamic content
    let dynamics ← Plan.renderAll around frame (index + 1) previous.tail rest
    return dynamic :: dynamics

/-- What a plan puts in its place. -/
def Plan.render (around : Surroundings) (frame : Frame) (previous : Option Dynamic) :
    Plan → Render Content
  | .body e _ _ => do
    let v ← Render.value frame e
    .text <$> Render.ofEval (Html.text Value.call v)
  | .attribute name form e _ _ => do
    let v ← Render.value frame e
    .text <$> Render.ofEval (form.encode name v)
  | .spread e _ span => do
    let v ← Render.value frame e
    let fields ← Render.ofEval (v.spreadFields span)
    .text <$> Render.ofEval (Html.attributes Value.call fields)
  | .slot slot argument _ span => renderSlot around frame slot argument span previous
  | .conditional branches _ _ =>
    BranchPlan.renderFirst around frame (earlierTree previous) 0 branches
  | .comprehension header ⟨statics, plans, fingerprint, _, _⟩ _ _ => do
    let source ← Render.value frame header.items
    let items ← Render.ofEval (source.items Value.call header.items.span)
    let earlier := earlierRows previous fingerprint
    let rows ← items.zipIdx.mapM fun (item, i) => do
      let locals ← Render.ofEval (header.pattern.bindOver item frame.scope frame.locals)
      let place := frame.position ++ ":" ++ toString i
      let before := ((earlier.getD [])[i]?.map Row.dynamics).getD []
      let dynamics ←
        Plan.renderAll around { frame with locals := locals, position := place } 0 before plans
      let id ← Render.newPart
      return Row.mk id dynamics
    Render.emit (.comprehension frame.position rows.length earlier.isSome)
    Render.ofTree (Content.createRows fingerprint statics rows)
  | .component plan => renderComponent around frame plan

/-- The first branch whose condition holds; nothing if none does. -/
def BranchPlan.renderFirst (around : Surroundings) (frame : Frame) (previous : Option Tree)
    (index : Nat) : List BranchPlan → Render Content
  | [] => return .text ""
  | ⟨condition, body⟩ :: rest => do
    let holds ← match condition with
      | none => pure true
      | some e => Value.truthy <$> Render.value frame e
    if holds then
      let place := frame.position ++ "?" ++ toString index
      .nested <$> Fragment.render around { frame with position := place } previous body
    else BranchPlan.renderFirst around frame previous (index + 1) rest

end

/-- Renders with components and slot contents nested so deep at most. -/
def renderWithin (resolve : Resolver) : Nat → Fragment → Frame → Option Tree → Render Tree
  | 0, _, _, _ => throw (.eval .outOfRange)
  | depth + 1, fragment, frame, previous =>
    fragment.render ⟨resolve, renderWithin resolve depth⟩ frame previous

/-- How deep components and slot contents may nest. -/
def renderDepth : Nat := 1000

end LiveTemplate
