import LiveTemplate.Tree.Diff
import LiveTemplate.Tree.Html
import LiveTemplate.Value

/-!
Snapshots: what one whole render leaves behind. The components of a page are kept in a flat table;
trees refer to them by number. The patch between two snapshots is one for the root, and one for each
component by itself.
-/

namespace LiveTemplate

set_option autoImplicit false

/-- One mounted component. -/
structure Instance where
  cid : Nat
  /-- What tells the instance from all others of the render. -/
  key : String
  tree : Tree
  /-- The bindings it rendered with, after defaults and slot entries. -/
  assigns : Record Value
  /-- The components that its slot contents mounted, by slot. -/
  children : Assoc String (List Nat)

structure Snapshot where
  root : Tree
  /-- The instances in the order in which their renders ended. -/
  components : List Instance

namespace Snapshot

def find? (s : Snapshot) (cid : Nat) : Option Instance := s.components.find? fun c => c.cid == cid

def contains (s : Snapshot) (cid : Nat) : Bool := s.components.any fun c => c.cid == cid

/-- The whole page. -/
def html (s : Snapshot) : Except TreeError String :=
  s.root.html (s.components.map fun c => (c.cid, c.tree))

end Snapshot

namespace Snapshot

/-- The components that the trees of a snapshot refer to. -/
def refs (s : Snapshot) : List Nat := s.root.refs ++ s.components.flatMap fun c => c.tree.refs

/-- Every reference must be to a component of the table. -/
def checkRefs (s : Snapshot) : Except TreeError Unit :=
  match s.refs.find? fun cid => !s.contains cid with
  | some cid => .error (.danglingReference cid)
  | none => .ok ()

/-- The patch of a component: none when nothing of it changed. -/
def diffInstance (previous : Option Snapshot) (current : Instance) :
    Except TreeError (Option (Nat × Option TreePatch)) := do
  let patch ← Tree.diff ((previous.bind (·.find? current.cid)).map Instance.tree) current.tree none
  .ok (patch.map fun p => (current.cid, some p))

/-- The components that are no longer there. -/
def removed (previous : Option Snapshot) (current : Snapshot) : List Nat :=
  match previous with
  | none => []
  | some before =>
    (before.components.map Instance.cid).filter fun cid => !current.contains cid

/-- The patch of a whole render. -/
def diff (previous : Option Snapshot) (current : Snapshot) : Except TreeError Patch := do
  current.checkRefs
  let root ← Tree.diff (previous.map Snapshot.root) current.root none
  let components ← current.components.mapM (diffInstance previous)
  .ok ⟨root, components.filterMap id ++ (removed previous current).map fun cid => (cid, none)⟩

end Snapshot

end LiveTemplate
