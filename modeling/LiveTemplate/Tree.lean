import LiveTemplate.Identity

/-!
Rendered trees. A tree is the static text of a fragment with one dynamic for each hole between.
Dynamics, rows and trees have an identity: what a render hands on unchanged is the very same as
before, and a comparison need not look into it.
-/

namespace LiveTemplate

set_option autoImplicit false

mutual

/-- What fills a hole. -/
structure Dynamic where
  id : Identity
  content : Content

inductive Content where
  /-- Text of the page. -/
  | text (s : String)
  | component (cid : Nat)
  | nested (tree : Tree)
  /-- Trees of possibly different shapes. -/
  | list (trees : List Tree)
  /-- A loop: one shared shape and a row of dynamics for each item. -/
  | rows (fingerprint : String) (statics : List String) (rows : List Row)

structure Row where
  id : Identity
  dynamics : List Dynamic

/-- The fingerprint tells the shape; `root` says that a single element makes up the template. -/
structure Tree where
  id : Identity
  statics : List String
  dynamics : List Dynamic
  fingerprint : String
  root : Bool

end

instance : Inhabited Content := ⟨.text ""⟩
instance : Inhabited Dynamic := ⟨⟨0, default⟩⟩
instance : Inhabited Row := ⟨⟨0, []⟩⟩
instance : Inhabited Tree := ⟨⟨0, [""], [], "", false⟩⟩

/-- Broken rules of trees, component tables and patches. -/
inductive TreeError where
  | staticsLength (fingerprint : String) (statics dynamics : Nat)
  | rowLength (fingerprint : String) (dynamics expected : Nat)
  | treeShapes (fingerprint : String) (previous current : Nat)
  | rowShapes (previous current : Nat)
  | danglingReference (cid : Nat)
  | notMounted (cid : Nat)
  | notMountedBefore (cid : Nat)
  | mountedTwice (key : String)
  | repeatedKey (cid : Nat)
  /-- Components contain each other without end. -/
  | endless
deriving DecidableEq, Repr, Inhabited

namespace TreeError

def code : TreeError → String
  | staticsLength _ _ _ | rowLength _ _ _ => "tessera/statics-length"
  | treeShapes _ _ _ | rowShapes _ _ => "tessera/shape-mismatch"
  | danglingReference _ | notMounted _ | notMountedBefore _ => "tessera/missing-component"
  | mountedTwice _ => "tessera/duplicate-component"
  | repeatedKey _ => "tessera/duplicate-key"
  | endless => ""

def message : TreeError → String
  | staticsLength fingerprint statics dynamics =>
    "rendered tree " ++ fingerprint ++ " has " ++ toString statics ++ " statics for " ++
      toString dynamics ++ " dynamics"
  | rowLength fingerprint dynamics expected =>
    "comprehension " ++ fingerprint ++ " item has " ++ toString dynamics ++
      " dynamics, expected " ++ toString expected
  | treeShapes fingerprint previous current =>
    "trees sharing fingerprint " ++ fingerprint ++ " have " ++ toString previous ++ " and " ++
      toString current ++ " dynamics"
  | rowShapes previous current =>
    "comprehension items have " ++ toString previous ++ " and " ++ toString current ++ " dynamics"
  | danglingReference cid =>
    "component " ++ toString cid ++ " is referenced but not present in the component table"
  | notMounted cid => "component " ++ toString cid ++ " is referenced but not mounted"
  | notMountedBefore cid =>
    "reused content references component " ++ toString cid ++ ", which was not mounted before"
  | mountedTwice key =>
    "component key \"" ++ key ++ "\" is mounted more than once in a single render"
  | repeatedKey cid => "component " ++ toString cid ++ " keys more than one comprehension item"
  | endless => "components contain each other without end"

end TreeError

/-- A tree must have one static more than it has dynamics. -/
def Tree.create (id : Identity) (statics : List String) (dynamics : List Dynamic)
    (fingerprint : String) (root : Bool) : Except TreeError Tree :=
  if statics.length = dynamics.length + 1 then .ok ⟨id, statics, dynamics, fingerprint, root⟩
  else .error (.staticsLength fingerprint statics.length dynamics.length)

/-- Every row of a loop must fit between the statics. -/
def Content.createRows (fingerprint : String) (statics : List String) (rows : List Row) :
    Except TreeError Content :=
  match rows.find? fun r => r.dynamics.length + 1 ≠ statics.length with
  | some r => .error (.rowLength fingerprint r.dynamics.length (statics.length - 1))
  | none => .ok (.rows fingerprint statics rows)

/-- The component that keys a row: its first dynamic, when that is a component. -/
def Row.key? (row : Row) : Option Nat :=
  match row.dynamics with
  | ⟨_, .component cid⟩ :: _ => some cid
  | _ => none

mutual

/-- The components that a dynamic refers to, in the order of the page. -/
def Dynamic.refs : Dynamic → List Nat
  | ⟨_, content⟩ => Content.refs content

def Content.refs : Content → List Nat
  | .text _ => []
  | .component cid => [cid]
  | .nested tree => Tree.refs tree
  | .list trees => Tree.allRefs trees
  | .rows _ _ rows => Row.allRefs rows

def Row.refs : Row → List Nat
  | ⟨_, dynamics⟩ => Dynamic.allRefs dynamics

def Tree.refs : Tree → List Nat
  | ⟨_, _, dynamics, _, _⟩ => Dynamic.allRefs dynamics

def Dynamic.allRefs : List Dynamic → List Nat
  | [] => []
  | d :: rest => Dynamic.refs d ++ Dynamic.allRefs rest

def Row.allRefs : List Row → List Nat
  | [] => []
  | r :: rest => Row.refs r ++ Row.allRefs rest

def Tree.allRefs : List Tree → List Nat
  | [] => []
  | t :: rest => Tree.refs t ++ Tree.allRefs rest

end

end LiveTemplate
