import LiveTemplate.Datum
import LiveTemplate.Record
import LiveTemplate.Tree.Moves

/-!
Patches: what a client that holds one tree needs to get to another. A full patch replaces, an edit
names the places that change. The wire form of a patch is plain data: statics under `s`, dynamics
under their positions.
-/

namespace LiveTemplate

set_option autoImplicit false

mutual

inductive TreePatch where
  | full (statics : List String) (root : Bool) (slots : List SlotPatch)
  | edit (slots : List (Nat × SlotPatch))

inductive SlotPatch where
  | text (s : String)
  | component (cid : Nat)
  | tree (patch : TreePatch)
  | list (patch : ListPatch)
  | rows (patch : RowsPatch)

inductive ListPatch where
  | full (trees : List TreePatch)
  | edit (trees : List (Nat × TreePatch))

inductive RowsPatch where
  /-- All rows; the statics come along when the client does not have them yet. -/
  | full (statics : Option (List String)) (rows : List (List SlotPatch))
  /-- Changed rows at their places. -/
  | edit (rows : List (Nat × List (Nat × SlotPatch)))
  /-- Removals by previous index, then moves, then insertions and changes by final index. -/
  | keyed (removes : List Nat) (moves : List Move) (inserts : List (Nat × List SlotPatch))
      (updates : List (Nat × List (Nat × SlotPatch)))

end

/-- The patch of a whole render: the root, and each component that is new or changed, or gone. -/
structure Patch where
  root : Option TreePatch
  components : List (Nat × Option TreePatch)

def Patch.isEmpty (p : Patch) : Bool := p.root.isNone && p.components.isEmpty

/-- A field for each position. -/
def positions {α : Type} (encode : α → Datum) (xs : List (Nat × α)) : List (String × Datum) :=
  xs.map fun x => (toString x.1, encode x.2)

/-- A field that is left out when its list is empty. -/
def unlessEmpty {α : Type} (name : String) (encode : List α → Datum) (xs : List α) :
    List (String × Datum) :=
  if xs.isEmpty then [] else [(name, encode xs)]

def Move.encode (m : Move) : Datum := .list [.number m.source, .number m.target]

mutual

/-- The wire form of a tree. -/
def TreePatch.encode : TreePatch → Datum
  | .full statics root slots =>
    .fields (("s", .list (statics.map .text)) :: (if root then [("r", .number 1)] else []) ++
      SlotPatch.encodeFrom 0 slots)
  | .edit slots => .fields (SlotPatch.encodePlaces slots)

def SlotPatch.encode : SlotPatch → Datum
  | .text s => .text s
  | .component cid => .number cid
  | .tree patch => TreePatch.encode patch
  | .list patch => ListPatch.encode patch
  | .rows patch => RowsPatch.encode patch

def ListPatch.encode : ListPatch → Datum
  | .full trees => .fields [("l", .list (TreePatch.encodeAll trees))]
  | .edit trees => .fields [("u", .fields (TreePatch.encodePlaces trees))]

def RowsPatch.encode : RowsPatch → Datum
  | .full statics rows =>
    .fields ((statics.map fun s => ("s", Datum.list (s.map .text))).toList ++
      [("d", .list (SlotPatch.encodeRows rows))])
  | .edit rows => .fields [("u", .fields (SlotPatch.encodeEdits rows))]
  | .keyed removes moves inserts updates =>
    .fields (unlessEmpty "x" (fun xs => .list (xs.map fun (n : Nat) => Datum.number n)) removes ++
      unlessEmpty "m" (fun xs => .list (xs.map Move.encode)) moves ++
      unlessEmpty "i" .list (SlotPatch.encodeInserts inserts) ++
      unlessEmpty "u" .fields (SlotPatch.encodeEdits updates))

/-- Slots under consecutive positions. -/
def SlotPatch.encodeFrom : Nat → List SlotPatch → List (String × Datum)
  | _, [] => []
  | n, slot :: rest => (toString n, SlotPatch.encode slot) :: SlotPatch.encodeFrom (n + 1) rest

def SlotPatch.encodePlaces : List (Nat × SlotPatch) → List (String × Datum)
  | [] => []
  | (n, slot) :: rest => (toString n, SlotPatch.encode slot) :: SlotPatch.encodePlaces rest

def SlotPatch.encodeAll : List SlotPatch → List Datum
  | [] => []
  | slot :: rest => SlotPatch.encode slot :: SlotPatch.encodeAll rest

def SlotPatch.encodeRows : List (List SlotPatch) → List Datum
  | [] => []
  | row :: rest => .list (SlotPatch.encodeAll row) :: SlotPatch.encodeRows rest

def SlotPatch.encodeInserts : List (Nat × List SlotPatch) → List Datum
  | [] => []
  | (n, row) :: rest =>
    .list [.number n, .list (SlotPatch.encodeAll row)] :: SlotPatch.encodeInserts rest

def SlotPatch.encodeEdits : List (Nat × List (Nat × SlotPatch)) → List (String × Datum)
  | [] => []
  | (n, row) :: rest =>
    (toString n, .fields (SlotPatch.encodePlaces row)) :: SlotPatch.encodeEdits rest

def TreePatch.encodeAll : List TreePatch → List Datum
  | [] => []
  | tree :: rest => TreePatch.encode tree :: TreePatch.encodeAll rest

def TreePatch.encodePlaces : List (Nat × TreePatch) → List (String × Datum)
  | [] => []
  | (n, tree) :: rest => (toString n, TreePatch.encode tree) :: TreePatch.encodePlaces rest

end

/-- The wire form of a whole render: the fields of the root, and components under `c`. -/
def Patch.encode (p : Patch) : Datum :=
  let root :=
    match p.root.map TreePatch.encode with
    | some (.fields fields) => fields
    | _ => []
  let component (tree : Option TreePatch) : Datum :=
    match tree with
    | some t => t.encode
    | none => .none
  .fields (root ++ unlessEmpty "c" (fun cs => .fields (positions component cs)) p.components)

end LiveTemplate
