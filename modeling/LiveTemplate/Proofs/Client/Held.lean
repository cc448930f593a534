import LiveTemplate.Tree.Patch
import LiveTemplate.Tree.Diff

/-!
What a client holds of a page: statics and slots, without fingerprints and identities. A patch is
applied to what is held; a patch that edits something the client does not hold cannot be applied.
-/

namespace LiveTemplate

set_option autoImplicit false

mutual

/-- What a client holds in the place of a dynamic. -/
inductive HeldSlot where
  | text (s : String)
  | component (cid : Nat)
  | tree (tree : HeldTree)
  | list (trees : List HeldTree)
  | rows (statics : List String) (rows : List (List HeldSlot))

/-- What a client holds of a tree. -/
structure HeldTree where
  statics : List String
  slots : List HeldSlot

end

namespace HeldSlot

def tree? : HeldSlot → Option HeldTree
  | tree t => some t
  | _ => none

def list? : HeldSlot → Option (List HeldTree)
  | list ts => some ts
  | _ => none

def rows? : HeldSlot → Option (List String × List (List HeldSlot))
  | rows statics rs => some (statics, rs)
  | _ => none

end HeldSlot

/-! ### Views of trees -/

mutual

/-- What a client that is up to date holds of a dynamic. -/
def Dynamic.held : Dynamic → HeldSlot
  | ⟨_, content⟩ => Content.held content

def Content.held : Content → HeldSlot
  | .text s => .text s
  | .component cid => .component cid
  | .nested tree => .tree (Tree.held tree)
  | .list trees => .list (Tree.allHeld trees)
  | .rows _ statics rows => .rows statics (Row.allHeld rows)

def Row.held : Row → List HeldSlot
  | ⟨_, dynamics⟩ => Dynamic.allHeld dynamics

def Tree.held : Tree → HeldTree
  | ⟨_, statics, dynamics, _, _⟩ => ⟨statics, Dynamic.allHeld dynamics⟩

def Dynamic.allHeld : List Dynamic → List HeldSlot
  | [] => []
  | d :: rest => Dynamic.held d :: Dynamic.allHeld rest

def Row.allHeld : List Row → List (List HeldSlot)
  | [] => []
  | r :: rest => Row.held r :: Row.allHeld rest

def Tree.allHeld : List Tree → List HeldTree
  | [] => []
  | t :: rest => Tree.held t :: Tree.allHeld rest

end

@[simp] theorem Dynamic.held_eq (d : Dynamic) : d.held = d.content.held := by
  cases d
  rfl

@[simp] theorem Row.held_eq (r : Row) : r.held = Dynamic.allHeld r.dynamics := by
  cases r
  rfl

theorem Tree.held_eq (t : Tree) : t.held = ⟨t.statics, Dynamic.allHeld t.dynamics⟩ := by
  cases t
  rfl

attribute [local simp] Dynamic.allHeld Row.allHeld Tree.allHeld

theorem Dynamic.allHeld_eq_map (ds : List Dynamic) : Dynamic.allHeld ds = ds.map Dynamic.held := by
  induction ds with
  | nil => rfl
  | cons d rest ih => simp [ih]

theorem Row.allHeld_eq_map (rs : List Row) : Row.allHeld rs = rs.map Row.held := by
  induction rs with
  | nil => rfl
  | cons r rest ih => simp [ih]

theorem Tree.allHeld_eq_map (ts : List Tree) : Tree.allHeld ts = ts.map Tree.held := by
  induction ts with
  | nil => rfl
  | cons t rest ih => simp [ih]

/-! ### Patches -/

/-- The items that do not stand at given places. -/
def withoutPlaces {α : Type} (places : List Nat) (items : List α) : List α :=
  (items.zipIdx.filter fun e => e.2 ∉ places).map Prod.fst

theorem withoutPlaces_nil {α : Type} (items : List α) : withoutPlaces [] items = items := by
  have hall : items.zipIdx.filter (fun e => decide (e.2 ∉ ([] : List Nat))) = items.zipIdx :=
    List.filter_eq_self.mpr fun e he => by simp
  rw [withoutPlaces, hall]
  exact List.zipIdx_map_fst 0 items

mutual

/-- Applies a patch to what is held of a tree, if anything is. -/
def TreePatch.apply : TreePatch → Option HeldTree → Option HeldTree
  | .full statics _ slots, _ => do
    let slots ← SlotPatch.make slots
    some ⟨statics, slots⟩
  | .edit slots, held => do
    let tree ← held
    let slots ← SlotPatch.applyPlaces slots tree.slots
    some ⟨tree.statics, slots⟩

def SlotPatch.apply : SlotPatch → Option HeldSlot → Option HeldSlot
  | .text s, _ => some (.text s)
  | .component cid, _ => some (.component cid)
  | .tree patch, held => (TreePatch.apply patch (held.bind HeldSlot.tree?)).map .tree
  | .list patch, held => (ListPatch.apply patch (held.bind HeldSlot.list?)).map .list
  | .rows patch, held =>
    (RowsPatch.apply patch (held.bind HeldSlot.rows?)).map fun r => .rows r.1 r.2

def ListPatch.apply : ListPatch → Option (List HeldTree) → Option (List HeldTree)
  | .full trees, _ => TreePatch.make trees
  | .edit edits, held => do TreePatch.applyPlaces edits (← held)

/-- Applies the patch of a loop to its statics and rows. Keyed edits come in turn: removals by
previous index, moves, insertions by final index, changes by final index. -/
def RowsPatch.apply : RowsPatch → Option (List String × List (List HeldSlot)) →
    Option (List String × List (List HeldSlot))
  | .full (some statics) rows, _ => do some (statics, ← SlotPatch.makeRows rows)
  | .full none rows, held => do
    let (statics, _) ← held
    some (statics, ← SlotPatch.makeRows rows)
  | .edit edits, held => do
    let (statics, rows) ← held
    some (statics, ← SlotPatch.applyRows edits rows)
  | .keyed removes moves inserts updates, held => do
    let (statics, rows) ← held
    let moved := Move.applyAll (withoutPlaces removes rows) moves
    let filled ← SlotPatch.insertRows inserts moved
    some (statics, ← SlotPatch.applyRows updates filled)

/-- What full patches make where nothing is held. -/
def SlotPatch.make : List SlotPatch → Option (List HeldSlot)
  | [] => some []
  | slot :: rest => do
    let made ← SlotPatch.apply slot none
    some (made :: (← SlotPatch.make rest))

def SlotPatch.makeRows : List (List SlotPatch) → Option (List (List HeldSlot))
  | [] => some []
  | row :: rest => do
    let made ← SlotPatch.make row
    some (made :: (← SlotPatch.makeRows rest))

def TreePatch.make : List TreePatch → Option (List HeldTree)
  | [] => some []
  | tree :: rest => do
    let made ← TreePatch.apply tree none
    some (made :: (← TreePatch.make rest))

def SlotPatch.applyPlaces : List (Nat × SlotPatch) → List HeldSlot → Option (List HeldSlot)
  | [], slots => some slots
  | (i, patch) :: rest, slots => do
    let old ← slots[i]?
    let new ← SlotPatch.apply patch (some old)
    SlotPatch.applyPlaces rest (slots.set i new)

def TreePatch.applyPlaces : List (Nat × TreePatch) → List HeldTree → Option (List HeldTree)
  | [], trees => some trees
  | (i, patch) :: rest, trees => do
    let old ← trees[i]?
    let new ← TreePatch.apply patch (some old)
    TreePatch.applyPlaces rest (trees.set i new)

def SlotPatch.applyRows :
    List (Nat × List (Nat × SlotPatch)) → List (List HeldSlot) → Option (List (List HeldSlot))
  | [], rows => some rows
  | (i, edits) :: rest, rows => do
    let old ← rows[i]?
    let new ← SlotPatch.applyPlaces edits old
    SlotPatch.applyRows rest (rows.set i new)

def SlotPatch.insertRows :
    List (Nat × List SlotPatch) → List (List HeldSlot) → Option (List (List HeldSlot))
  | [], rows => some rows
  | (i, row) :: rest, rows => do
    let made ← SlotPatch.make row
    SlotPatch.insertRows rest (Move.putIn i made rows)

end

/-- Changes the items at some places. -/
def editPlaces {α β : Type} (change : α → β → Option β) : List (Nat × α) → List β → Option (List β)
  | [], items => some items
  | (i, edit) :: rest, items => do
    let old ← items[i]?
    let new ← change edit old
    editPlaces change rest (items.set i new)

attribute [local simp] editPlaces SlotPatch.applyPlaces TreePatch.applyPlaces SlotPatch.applyRows

theorem SlotPatch.applyPlaces_eq (edits : List (Nat × SlotPatch)) (slots : List HeldSlot) :
    SlotPatch.applyPlaces edits slots = editPlaces (fun p s => p.apply (some s)) edits slots := by
  induction edits generalizing slots with
  | nil => rfl
  | cons e rest ih => simp [ih]

theorem TreePatch.applyPlaces_eq (edits : List (Nat × TreePatch)) (trees : List HeldTree) :
    TreePatch.applyPlaces edits trees = editPlaces (fun p t => p.apply (some t)) edits trees := by
  induction edits generalizing trees with
  | nil => rfl
  | cons e rest ih => simp [ih]

theorem SlotPatch.applyRows_eq (edits : List (Nat × List (Nat × SlotPatch)))
    (rows : List (List HeldSlot)) :
    SlotPatch.applyRows edits rows = editPlaces SlotPatch.applyPlaces edits rows := by
  induction edits generalizing rows with
  | nil => rfl
  | cons e rest ih => simp [ih]

/-- An edit changes the item at its place, and leaves it to the others to change the rest. -/
theorem editPlaces_at {α β : Type} {change : α → β → Option β} {n : Nat} {edit : α}
    {rest : List (Nat × α)} {done items : List β} {old new : β} (hn : done.length = n)
    (hc : change edit old = some new) :
    editPlaces change ((n, edit) :: rest) (done ++ old :: items) =
      editPlaces change rest (done ++ [new] ++ items) := by
  subst hn
  have ho : (done ++ old :: items)[done.length]? = some old := by simp
  have hs : (done ++ old :: items).set done.length new = done ++ [new] ++ items := by simp
  rw [editPlaces, ho, Option.bind_eq_bind, Option.bind_some, hc, Option.bind_some, hs]

/-- Applies an edit, if there is one. -/
def applyMaybe {α β : Type} (change : α → β → Option β) (edit : Option α) (item : β) : Option β :=
  match edit with
  | none => some item
  | some e => change e item

/-- Applies the patch of a comparison; no patch changes nothing. -/
def TreePatch.applyTo (patch : Option TreePatch) (held : HeldTree) : Option HeldTree :=
  applyMaybe (fun p t => p.apply (some t)) patch held

def SlotPatch.applyTo (patch : Option SlotPatch) (held : HeldSlot) : Option HeldSlot :=
  applyMaybe (fun p s => p.apply (some s)) patch held

end LiveTemplate
