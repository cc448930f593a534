import LiveTemplate.Assigns
import LiveTemplate.Snapshot
import LiveTemplate.Template

/-!
Live sessions: one connected view. A session holds the bindings, the last snapshot and the mount
keys, and turns changed bindings into patches.
-/

namespace LiveTemplate

set_option autoImplicit false

/-- The events of the keyed loops in a patch, the inner ones first. -/
def RowsPatch.ownEvents : RowsPatch → List Event
  | .keyed removes moves inserts updates =>
    [.keyed removes.length moves.length inserts.length updates.length]
  | _ => []

mutual

def TreePatch.events : TreePatch → List Event
  | .full _ _ _ => []
  | .edit slots => SlotPatch.placedEvents slots

def SlotPatch.events : SlotPatch → List Event
  | .text _ | .component _ => []
  | .tree patch => TreePatch.events patch
  | .list patch => ListPatch.events patch
  | .rows patch => RowsPatch.innerEvents patch ++ patch.ownEvents

def ListPatch.events : ListPatch → List Event
  | .full _ => []
  | .edit trees => TreePatch.placedEvents trees

def RowsPatch.innerEvents : RowsPatch → List Event
  | .full _ _ => []
  | .edit rows | .keyed _ _ _ rows => SlotPatch.rowEvents rows

def SlotPatch.placedEvents : List (Nat × SlotPatch) → List Event
  | [] => []
  | (_, slot) :: rest => SlotPatch.events slot ++ SlotPatch.placedEvents rest

def SlotPatch.rowEvents : List (Nat × List (Nat × SlotPatch)) → List Event
  | [] => []
  | (_, row) :: rest => SlotPatch.placedEvents row ++ SlotPatch.rowEvents rest

def TreePatch.placedEvents : List (Nat × TreePatch) → List Event
  | [] => []
  | (_, tree) :: rest => TreePatch.events tree ++ TreePatch.placedEvents rest

end

/-- What making a patch reports. -/
def Patch.events (p : Patch) : List Event :=
  let trees := p.root.toList ++ p.components.filterMap Prod.snd
  let removed := p.components.filter fun c => c.2.isNone
  trees.flatMap TreePatch.events ++
    [.snapshot p.root.isSome p.components.length removed.length]

inductive SessionError where
  | assign (e : AssignError)
  | render (e : RenderError)
  | mountedTwice (label : String)
  | notMounted (label : String)
deriving DecidableEq, Repr, Inhabited

def SessionError.message : SessionError → String
  | assign e => e.message
  | render e => e.message
  | mountedTwice label => "session " ++ label ++ " is already mounted"
  | notMounted label => "session " ++ label ++ " has not been mounted"

/-- A render that is done. -/
structure Shown where
  root : Tree
  /-- The number of the render. -/
  render : Nat

structure Session where
  template : Template
  label : String
  assigns : Assigns := {}
  mounts : Mounts := {}
  /-- The last render that counts. -/
  shown : Option Shown := none

/-- Steps of a session, which may fail. -/
abbrev SessionStep := ExceptT SessionError (StateT Session Traced)

namespace Session

def isMounted (s : Session) : Bool := s.shown.isSome

/-- The snapshot that the client holds. -/
def current (s : Session) : Option Snapshot :=
  s.shown.map fun shown => s.mounts.snapshot shown.render shown.root

/-- Changes bindings. -/
def onAssigns {α : Type} (x : Assigning α) : SessionStep α :=
  ExceptT.mk do
    let s ← get
    let (result, assigns) ← Traced.ofFresh (x.run.run s.assigns)
    set { s with assigns }
    return result.mapError .assign

/-- The frame of the next render. -/
def frame (s : Session) : Frame :=
  s.template.frame s.assigns.bindings s.assigns.id
    (if s.isMounted then some s.assigns.changes else none) s.mounts.nextRender

/-- The render of the bindings as they are, and the patch to it. -/
def next (s : Session) (resolve : Resolver) : Render (Shown × Patch) := do
  let root ← s.template.render resolve s.frame (s.shown.map Shown.root)
  let mounts := (← get).mounts
  let before := { s with mounts }.current
  let patch ← Render.ofTree (Snapshot.diff before (mounts.snapshot s.mounts.nextRender root))
  return (⟨root, s.mounts.nextRender⟩, patch)

/-- Renders what changed. A render that fails leaves what is shown as it was, but for components
that earlier slot content mounted meanwhile; the numbers given to components are used up. -/
def render (resolve : Resolver) : SessionStep Patch := do
  let s ← get
  let before : RenderState := ⟨s.mounts.start (s.shown.map Shown.render), ← getThe Journal⟩
  let (result, done) := ((s.next resolve).run.run before)
  set done.journal
  match result with
  | .error e =>
    set { s with mounts := done.mounts }
    throw (.render e)
  | .ok (shown, patch) =>
    let mounts := done.mounts.commit shown.render
    set { s with assigns := s.assigns.reset, mounts, shown := some shown }
    let changed := s.shown.map fun _ => Assoc.keys s.assigns.changes
    let count := (mounts.arena shown.render).nodes.length
    liftM (Traced.emitAll (patch.events ++
      [.rendered s.label s.shown.isNone changed count]))
    return patch

/-- The page as it is. -/
def html : SessionStep String := do
  let s ← get
  match s.current with
  | none => throw (.notMounted s.label)
  | some snapshot =>
    match snapshot.html with
    | .ok page => return page
    | .error e => throw (.render (.tree e))

/-- The first render: the whole page, and the patch that a client starts from. -/
def mount (resolve : Resolver) (bindings : Record Value) : SessionStep (String × Patch) := do
  let s ← get
  if s.isMounted then throw (.mountedTwice s.label)
  onAssigns (Assigns.assignAll bindings)
  let patch ← render resolve
  return (← html, patch)

end Session

end LiveTemplate
