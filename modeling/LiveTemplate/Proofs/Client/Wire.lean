import LiveTemplate.Proofs.Client.Held

/-!
How a client reads messages. An object with statics replaces a tree, any other one changes the
slots it lists; what the fields of an object stand for depends on what the client holds in the place.
-/

namespace LiveTemplate

set_option autoImplicit false

/-- The place that a field name stands for. -/
def placeOf? (key : String) : Option Nat :=
  let n := Nat.ofDigitChars 10 key.toList 0
  if toString n = key then some n else none

theorem placeOf?_toString (n : Nat) : placeOf? (toString n) = some n := by
  have hn : Nat.ofDigitChars 10 (toString n).toList 0 = n := by
    simp
  simp only [placeOf?, hn, if_true]

/-- Puts an item in a place: in that of an earlier one or at the end. -/
def putPlace {α : Type} (i : Nat) (item : α) (items : List α) : Option (List α) :=
  if i < items.length then some (items.set i item)
  else if i = items.length then some (items ++ [item])
  else none

namespace Wire

def texts? : Datum → Option (List String)
  | .list items => items.mapM fun
    | .text s => some s
    | _ => none
  | _ => none

def places? : Datum → Option (List Nat)
  | .list items => items.mapM fun
    | .number n => some n.toNat
    | _ => none
  | _ => none

def moves? : Datum → Option (List Move)
  | .list items => items.mapM fun
    | .list [.number source, .number target] => some ⟨source, target⟩
    | _ => none
  | _ => none

/-- A field of an object that may be left out. -/
def fieldOr {α : Type} (fields : List (String × Datum)) (name : String)
    (read : Datum → Option α) (default : α) : Option α :=
  match Assoc.get? fields name with
  | some d => read d
  | none => some default

/-- A tree from the fields of an object: a new one when there are statics, else the held one. -/
def treeFrom (fields : List (String × Datum)) (fill : List HeldSlot → Option (List HeldSlot))
    (held : Option HeldTree) : Option HeldTree :=
  match Assoc.get? fields "s" with
  | some statics => do some ⟨← texts? statics, ← fill []⟩
  | none => do
    let tree ← held
    some ⟨tree.statics, ← fill tree.slots⟩

mutual

/-- Puts a message in the place of a slot. -/
def intoSlot : Datum → Option HeldSlot → Option HeldSlot
  | .text s, _ => some (.text s)
  | .number n, _ => some (.component n.toNat)
  | .fields items, held =>
    if Assoc.contains items "d" then do
      let rows ← rowsField items
      let statics ← match Assoc.get? items "s" with
        | some statics => texts? statics
        | none => (held.bind HeldSlot.rows?).map Prod.fst
      some (.rows statics rows)
    else if Assoc.contains items "l" then (treesField items).map .list
    else if Assoc.contains items "s" then (treeFrom items (fill items) none).map .tree
    else match held with
      | some (.tree tree) => (treeFrom items (fill items) (some tree)).map .tree
      | some (.list trees) => (treeEditsField items trees).map .list
      | some (.rows statics rows) => do
        let removes ← fieldOr items "x" places? []
        let moves ← fieldOr items "m" moves? []
        let moved := Move.applyAll (withoutPlaces removes rows) moves
        let filled ← insertsField items moved
        some (.rows statics (← rowEditsField items filled))
      | _ => none
  | _, _ => none

/-- Puts a message in the place of a tree. -/
def intoTree : Datum → Option HeldTree → Option HeldTree
  | .fields items, held => treeFrom items (fill items) held
  | _, _ => none

/-- Changes the slots that are listed by their places. -/
def fill : List (String × Datum) → List HeldSlot → Option (List HeldSlot)
  | [], slots => some slots
  | (key, d) :: rest, slots =>
    match placeOf? key with
    | none => fill rest slots
    | some i => do
      let new ← intoSlot d slots[i]?
      fill rest (← putPlace i new slots)

/-- New rows, from the field that holds them all. -/
def rowsField : List (String × Datum) → Option (List (List HeldSlot))
  | [] => none
  | (key, d) :: rest => if key = "d" then newRows d else rowsField rest

def newRows : Datum → Option (List (List HeldSlot))
  | .list rows => newRowList rows
  | _ => none

def newRowList : List Datum → Option (List (List HeldSlot))
  | [] => some []
  | d :: rest => do
    let row ← newRow d
    some (row :: (← newRowList rest))

def newRow : Datum → Option (List HeldSlot)
  | .list slots => newSlots slots
  | _ => none

def newSlots : List Datum → Option (List HeldSlot)
  | [] => some []
  | d :: rest => do
    let slot ← intoSlot d none
    some (slot :: (← newSlots rest))

def treesField : List (String × Datum) → Option (List HeldTree)
  | [] => none
  | (key, d) :: rest => if key = "l" then newTrees d else treesField rest

def newTrees : Datum → Option (List HeldTree)
  | .list trees => newTreeList trees
  | _ => none

def newTreeList : List Datum → Option (List HeldTree)
  | [] => some []
  | d :: rest => do
    let tree ← intoTree d none
    some (tree :: (← newTreeList rest))

def treeEditsField : List (String × Datum) → List HeldTree → Option (List HeldTree)
  | [], trees => some trees
  | (key, d) :: rest, trees => if key = "u" then editTrees d trees else treeEditsField rest trees

def editTrees : Datum → List HeldTree → Option (List HeldTree)
  | .fields edits, trees => editTreeList edits trees
  | _, _ => none

def editTreeList : List (String × Datum) → List HeldTree → Option (List HeldTree)
  | [], trees => some trees
  | (key, d) :: rest, trees => do
    let i ← placeOf? key
    let old ← trees[i]?
    let new ← intoTree d (some old)
    editTreeList rest (trees.set i new)

def insertsField : List (String × Datum) → List (List HeldSlot) → Option (List (List HeldSlot))
  | [], rows => some rows
  | (key, d) :: rest, rows => if key = "i" then inserts d rows else insertsField rest rows

def inserts : Datum → List (List HeldSlot) → Option (List (List HeldSlot))
  | .list items, rows => insertList items rows
  | _, _ => none

def insertList : List Datum → List (List HeldSlot) → Option (List (List HeldSlot))
  | [], rows => some rows
  | .list [.number i, d] :: rest, rows => do
    let row ← newRow d
    insertList rest (Move.putIn i row rows)
  | _ :: _, _ => none

def rowEditsField : List (String × Datum) → List (List HeldSlot) → Option (List (List HeldSlot))
  | [], rows => some rows
  | (key, d) :: rest, rows => if key = "u" then editRows d rows else rowEditsField rest rows

def editRows : Datum → List (List HeldSlot) → Option (List (List HeldSlot))
  | .fields edits, rows => editRowList edits rows
  | _, _ => none

def editRowList : List (String × Datum) → List (List HeldSlot) → Option (List (List HeldSlot))
  | [], rows => some rows
  | (key, d) :: rest, rows => do
    let i ← placeOf? key
    let old ← rows[i]?
    let new ← editRow d old
    editRowList rest (rows.set i new)

def editRow : Datum → List HeldSlot → Option (List HeldSlot)
  | .fields slots, row => fill slots row
  | _, _ => none

end

/-! ### Slots -/

/-- New rows come under `d`, with their statics or for those held. -/
theorem intoSlot_of_rows {items : List (String × Datum)} {held : Option HeldSlot}
    (hd : Assoc.contains items "d" = true) :
    intoSlot (.fields items) held = (do
      let rows ← rowsField items
      let statics ← match Assoc.get? items "s" with
        | some statics => texts? statics
        | none => (held.bind HeldSlot.rows?).map Prod.fst
      some (.rows statics rows)) := by
  rw [intoSlot.eq_def]
  simp only [hd, if_true]

theorem intoSlot_of_trees {items : List (String × Datum)} {held : Option HeldSlot}
    (hd : Assoc.contains items "d" = false) (hl : Assoc.contains items "l" = true) :
    intoSlot (.fields items) held = (treesField items).map .list := by
  rw [intoSlot.eq_def]
  simp only [hd, hl, Bool.false_eq_true, if_false, if_true]

theorem intoSlot_of_statics {items : List (String × Datum)} {held : Option HeldSlot}
    (hd : Assoc.contains items "d" = false) (hl : Assoc.contains items "l" = false)
    (hs : Assoc.contains items "s" = true) :
    intoSlot (.fields items) held = (treeFrom items (fill items) none).map .tree := by
  rw [intoSlot.eq_def]
  simp only [hd, hl, hs, Bool.false_eq_true, if_false, if_true]

theorem intoSlot_of_edit {items : List (String × Datum)} {held : Option HeldSlot}
    (hd : Assoc.contains items "d" = false) (hl : Assoc.contains items "l" = false)
    (hs : Assoc.contains items "s" = false) :
    intoSlot (.fields items) held = match held with
      | some (.tree tree) => (treeFrom items (fill items) (some tree)).map .tree
      | some (.list trees) => (treeEditsField items trees).map .list
      | some (.rows statics rows) => do
        let removes ← fieldOr items "x" places? []
        let moves ← fieldOr items "m" moves? []
        let moved := Move.applyAll (withoutPlaces removes rows) moves
        let filled ← insertsField items moved
        some (.rows statics (← rowEditsField items filled))
      | _ => none := by
  rw [intoSlot.eq_def]
  simp only [hd, hl, hs, Bool.false_eq_true, if_false]

/-! ### Fields -/

/-- What goes through the fields of an object for one name looks that name up. -/
theorem through_eq_get? {α : Type} (through : List (String × Datum) → α) {name : String}
    {read : Datum → α} (hcons : ∀ key d rest,
      through ((key, d) :: rest) = if key = name then read d else through rest)
    (items : List (String × Datum)) :
    through items = (match Assoc.get? items name with
      | some d => read d
      | none => through []) := by
  induction items with
  | nil => rfl
  | cons f rest ih =>
    rw [hcons, Assoc.get?]
    by_cases h : f.1 = name
    · rw [if_pos h, if_pos h]
    · rw [if_neg h, if_neg h, ih]

theorem rowsField_eq (items : List (String × Datum)) :
    rowsField items = (match Assoc.get? items "d" with
      | some d => newRows d
      | none => none) :=
  through_eq_get? rowsField (fun _ _ _ => by rw [rowsField]) items

theorem treesField_eq (items : List (String × Datum)) :
    treesField items = (match Assoc.get? items "l" with
      | some d => newTrees d
      | none => none) :=
  through_eq_get? treesField (fun _ _ _ => by rw [treesField]) items

theorem treeEditsField_eq (items : List (String × Datum)) (trees : List HeldTree) :
    treeEditsField items trees = (match Assoc.get? items "u" with
      | some d => editTrees d trees
      | none => some trees) :=
  through_eq_get? (treeEditsField · trees) (fun _ _ _ => by rw [treeEditsField]) items

theorem insertsField_eq (items : List (String × Datum)) (rows : List (List HeldSlot)) :
    insertsField items rows = (match Assoc.get? items "i" with
      | some d => inserts d rows
      | none => some rows) :=
  through_eq_get? (insertsField · rows) (fun _ _ _ => by rw [insertsField]) items

theorem rowEditsField_eq (items : List (String × Datum)) (rows : List (List HeldSlot)) :
    rowEditsField items rows = (match Assoc.get? items "u" with
      | some d => editRows d rows
      | none => some rows) :=
  through_eq_get? (rowEditsField · rows) (fun _ _ _ => by rw [rowEditsField]) items

end Wire

end LiveTemplate
