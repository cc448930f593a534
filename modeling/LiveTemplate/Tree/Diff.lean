import LiveTemplate.Change
import LiveTemplate.Tree
import LiveTemplate.Tree.Patch

/-!
The patch between two trees. Trees of different shape are replaced; of trees of one shape only the
dynamics that differ are sent. A loop whose rows all begin with a component is compared by those
components, so that rows can be removed, moved and inserted.
-/

namespace LiveTemplate

set_option autoImplicit false

mutual

/-- The patch that replaces whatever the client holds. -/
def Dynamic.full : Dynamic → SlotPatch
  | ⟨_, content⟩ => Content.full content

def Content.full : Content → SlotPatch
  | .text s => .text s
  | .component cid => .component cid
  | .nested tree => .tree (Tree.full tree)
  | .list trees => .list (.full (Tree.allFull trees))
  | .rows _ statics rows => .rows (.full (some statics) (Row.allFull rows))

def Tree.full : Tree → TreePatch
  | ⟨_, statics, dynamics, _, root⟩ => .full statics root (Dynamic.allFull dynamics)

def Row.full : Row → List SlotPatch
  | ⟨_, dynamics⟩ => Dynamic.allFull dynamics

def Dynamic.allFull : List Dynamic → List SlotPatch
  | [] => []
  | d :: rest => Dynamic.full d :: Dynamic.allFull rest

def Tree.allFull : List Tree → List TreePatch
  | [] => []
  | t :: rest => Tree.full t :: Tree.allFull rest

def Row.allFull : List Row → List (List SlotPatch)
  | [] => []
  | r :: rest => Row.full r :: Row.allFull rest

end

/-- Whether the rows of two loops are all keyed, and there are any. -/
def areKeyed (previous current : List Row) : Bool :=
  !(previous.isEmpty && current.isEmpty) && (previous ++ current).all fun r => r.key?.isSome

/-- The first key that occurs a second time. -/
def repeated? : List Nat → List Nat → Option Nat
  | _, [] => none
  | seen, key :: rest => if key ∈ seen then some key else repeated? (key :: seen) rest

/-- The keys of rows, which must not repeat. -/
def rowKeys (rows : List Row) : Except TreeError (List Nat) :=
  let keys := rows.map fun r => r.key?.getD 0
  match repeated? [] keys with
  | some key => .error (.repeatedKey key)
  | none => .ok keys

/-- Edits of one place, when there are any. -/
def someEdit {α β : Type} (wrap : List α → β) (edits : List α) : Option β :=
  if edits.isEmpty then none else some (wrap edits)

/-- Whether two lists of trees have the same shapes. -/
def sameShapes (previous current : List Tree) : Bool :=
  previous.map Tree.fingerprint == current.map Tree.fingerprint

/-- What a keyed loop inserts and changes, with final indices. -/
structure KeyedEdits where
  inserts : List (Nat × List SlotPatch)
  updates : List (Nat × List (Nat × SlotPatch))

mutual

/-- The patch from one tree to another of any shape. -/
def Tree.diffTo (previous : Tree) : Tree → Except TreeError (Option TreePatch)
  | ⟨id, statics, dynamics, fingerprint, root⟩ =>
    if previous.fingerprint ≠ fingerprint then
      .ok (some (Tree.full ⟨id, statics, dynamics, fingerprint, root⟩))
    else if previous.dynamics.length ≠ dynamics.length then
      .error (.treeShapes fingerprint previous.dynamics.length dynamics.length)
    else do
      let slots ← Dynamic.diffAll 0 previous.dynamics dynamics
      .ok (someEdit .edit slots)
termination_by structural tree => tree

/-- The patches of the dynamics that differ, with their positions. -/
def Dynamic.diffAll : Nat → List Dynamic → List Dynamic → Except TreeError (List (Nat × SlotPatch))
  | n, before :: previous, ⟨id, content⟩ :: current => do
    let patch ← if before.id = id then .ok none else Content.diffTo before.content content
    let rest ← Dynamic.diffAll (n + 1) previous current
    .ok (match patch with
      | some p => (n, p) :: rest
      | none => rest)
  | _, _, _ => .ok []
termination_by structural _ _ dynamics => dynamics

def Content.diffTo (previous : Content) : Content → Except TreeError (Option SlotPatch)
  | .text s =>
    match previous with
    | .text t => .ok (if t = s then none else some (.text s))
    | _ => .ok (some (.text s))
  | .component cid =>
    match previous with
    | .component before => .ok (if before = cid then none else some (.component cid))
    | _ => .ok (some (.component cid))
  | .nested tree =>
    match previous with
    | .nested before => do
      let patch ← Tree.diffTo before tree
      .ok (patch.map .tree)
    | _ => .ok (some (.tree (Tree.full tree)))
  | .list trees =>
    match previous with
    | .list before =>
      if sameShapes before trees then do
        let edits ← Tree.diffAll 0 before trees
        .ok (someEdit (fun es => .list (.edit es)) edits)
      else .ok (some (.list (.full (Tree.allFull trees))))
    | _ => .ok (some (.list (.full (Tree.allFull trees))))
  | .rows fingerprint statics rows =>
    match previous with
    | .rows before _ previousRows =>
      if before ≠ fingerprint then .ok (some (.rows (.full (some statics) (Row.allFull rows))))
      else if areKeyed previousRows rows then do
        let previousKeys ← rowKeys previousRows
        let currentKeys ← rowKeys rows
        let removes := previousKeys.zipIdx.filterMap fun (key, i) =>
          if key ∈ currentKeys then none else some i
        let moves := Move.plan (previousKeys.filter (· ∈ currentKeys))
          (currentKeys.filter (· ∈ previousKeys))
        let edits ← Row.diffKeyed 0 previousRows rows
        if removes.isEmpty && moves.isEmpty && edits.inserts.isEmpty && edits.updates.isEmpty then
          .ok none
        else .ok (some (.rows (.keyed removes moves edits.inserts edits.updates)))
      else if previousRows.length ≠ rows.length then
        .ok (some (.rows (.full none (Row.allFull rows))))
      else do
        let edits ← Row.diffAll 0 previousRows rows
        .ok (someEdit (fun es => .rows (.edit es)) edits)
    | _ => .ok (some (.rows (.full (some statics) (Row.allFull rows))))
termination_by structural content => content

/-- The patches of the trees of a list that differ; the shapes are the same. -/
def Tree.diffAll : Nat → List Tree → List Tree → Except TreeError (List (Nat × TreePatch))
  | n, before :: previous, tree :: current => do
    let patch ← if before.id = tree.id then .ok none else Tree.diffTo before tree
    let rest ← Tree.diffAll (n + 1) previous current
    .ok (match patch with
      | some p => (n, p) :: rest
      | none => rest)
  | _, _, _ => .ok []
termination_by structural _ _ trees => trees

/-- The edits from one row to another. -/
def Row.diffTo (before : Row) : Row → Except TreeError (List (Nat × SlotPatch))
  | ⟨id, dynamics⟩ =>
    if before.id = id then .ok []
    else if before.dynamics.length ≠ dynamics.length then
      .error (.rowShapes before.dynamics.length dynamics.length)
    else Dynamic.diffAll 0 before.dynamics dynamics
termination_by structural row => row

/-- The edits of the rows that differ, row by row. -/
def Row.diffAll : Nat → List Row → List Row →
    Except TreeError (List (Nat × List (Nat × SlotPatch)))
  | n, before :: previous, row :: current => do
    let edits ← Row.diffTo before row
    let rest ← Row.diffAll (n + 1) previous current
    .ok (if edits.isEmpty then rest else (n, edits) :: rest)
  | _, _, _ => .ok []
termination_by structural _ _ rows => rows

/-- The rows to insert and the edits of those that stay, each compared with the row of its key. -/
def Row.diffKeyed (n : Nat) (previous : List Row) : List Row → Except TreeError KeyedEdits
  | [] => .ok ⟨[], []⟩
  | row :: current => do
    match previous.find? fun r => r.key? = row.key? with
    | none =>
      let rest ← Row.diffKeyed (n + 1) previous current
      .ok { rest with inserts := (n, Row.full row) :: rest.inserts }
    | some before =>
      let edits ← Row.diffTo before row
      let rest ← Row.diffKeyed (n + 1) previous current
      .ok (if edits.isEmpty then rest else { rest with updates := (n, edits) :: rest.updates })
termination_by structural rows => rows

end

/-- The patch for a client that may hold nothing yet. A changed-set that is empty says that trees
of one shape are the same. -/
def Tree.diff (previous : Option Tree) (current : Tree) (changed : Option ChangedSet) :
    Except TreeError (Option TreePatch) :=
  match previous with
  | none => .ok (some current.full)
  | some before =>
    if before.fingerprint = current.fingerprint ∧ changed.any List.isEmpty then .ok none
    else before.diffTo current

end LiveTemplate
