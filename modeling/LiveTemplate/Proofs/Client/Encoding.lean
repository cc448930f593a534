import LiveTemplate.Proofs.Client.Wire

/-!
A client that reads the wire form of a patch comes to hold what the patch makes of what it held.
-/

namespace LiveTemplate

set_option autoImplicit false

/-- Fields that are all named by places. -/
def Placed (fields : List (String × Datum)) : Prop := ∀ f ∈ fields, ∃ n : Nat, f.1 = toString n

theorem Placed.get?_eq_none {fields : List (String × Datum)} (h : Placed fields) {name : String}
    (hn : placeOf? name = none) : Assoc.get? fields name = none := by
  induction fields with
  | nil => rfl
  | cons f rest ih =>
    obtain ⟨n, hf⟩ := h f List.mem_cons_self
    have hne : ¬ f.1 = name := by
      rw [hf]
      rintro rfl
      rw [placeOf?_toString] at hn
      cases hn
    rw [Assoc.get?, if_neg hne]
    exact ih fun g hg => h g (List.mem_cons_of_mem f hg)

theorem placed_encodeFrom (n : Nat) (slots : List SlotPatch) :
    Placed (SlotPatch.encodeFrom n slots) := by
  induction slots generalizing n with
  | nil => exact fun f hf => by cases hf
  | cons p rest ih =>
    intro f hf
    rw [SlotPatch.encodeFrom] at hf
    rcases List.mem_cons.mp hf with rfl | hf
    · exact ⟨n, rfl⟩
    · exact ih (n + 1) f hf

theorem placed_encodePlaces (slots : List (Nat × SlotPatch)) :
    Placed (SlotPatch.encodePlaces slots) := by
  induction slots with
  | nil => exact fun f hf => by cases hf
  | cons p rest ih =>
    intro f hf
    rw [SlotPatch.encodePlaces] at hf
    rcases List.mem_cons.mp hf with rfl | hf
    · exact ⟨p.1, rfl⟩
    · exact ih f hf

/-! ### Names that are no places -/

theorem placeOf?_s : placeOf? "s" = none := by decide

theorem placeOf?_r : placeOf? "r" = none := by decide

theorem placeOf?_d : placeOf? "d" = none := by decide

theorem placeOf?_l : placeOf? "l" = none := by decide

theorem texts?_statics (statics : List String) :
    Wire.texts? (.list (statics.map .text)) = some statics := by
  rw [Wire.texts?, List.mapM_map]
  induction statics with
  | nil => rfl
  | cons s rest ih =>
    rw [List.mapM_cons]
    simp [ih]

theorem fill_cons_of_placeOf?_eq_none {key : String} {d : Datum} {rest : List (String × Datum)}
    {slots : List HeldSlot} (h : placeOf? key = none) :
    Wire.fill ((key, d) :: rest) slots = Wire.fill rest slots := by
  rw [Wire.fill, h]

theorem fill_cons_place {n : Nat} {d : Datum} {rest : List (String × Datum)}
    {slots : List HeldSlot} :
    Wire.fill ((toString n, d) :: rest) slots = (do
      let new ← Wire.intoSlot d slots[n]?
      Wire.fill rest (← putPlace n new slots)) := by
  rw [Wire.fill, placeOf?_toString]

theorem putPlace_length {α : Type} (items : List α) (item : α) :
    putPlace items.length item items = some (items ++ [item]) := by
  simp [putPlace]

theorem putPlace_of_getElem? {α : Type} {i : Nat} {items : List α} {old item : α}
    (h : items[i]? = some old) : putPlace i item items = some (items.set i item) := by
  obtain ⟨hi, -⟩ := List.getElem?_eq_some_iff.mp h
  rw [putPlace, if_pos hi]

/-! ### Patches -/

/-- The fields of a tree that is sent whole. -/
def fullFields (statics : List String) (root : Bool) (slots : List SlotPatch) :
    List (String × Datum) :=
  ("s", .list (statics.map .text)) :: (if root then [("r", .number 1)] else []) ++
    SlotPatch.encodeFrom 0 slots

theorem fill_fullFields (statics : List String) (root : Bool) (slots : List SlotPatch)
    (held : List HeldSlot) :
    Wire.fill (fullFields statics root slots) held =
      Wire.fill (SlotPatch.encodeFrom 0 slots) held := by
  rw [fullFields, List.cons_append, fill_cons_of_placeOf?_eq_none placeOf?_s]
  cases root with
  | false => rfl
  | true => exact fill_cons_of_placeOf?_eq_none placeOf?_r

theorem contains_eq_false {fields : List (String × Datum)} {name : String}
    (h : Assoc.get? fields name = none) : Assoc.contains fields name = false := by
  rw [Assoc.contains, h]
  rfl

theorem get?_fullFields_s (statics : List String) (root : Bool) (slots : List SlotPatch) :
    Assoc.get? (fullFields statics root slots) "s" = some (.list (statics.map .text)) := by
  simp [fullFields, Assoc.get?]

theorem get?_fullFields {statics : List String} {root : Bool} {slots : List SlotPatch}
    {name : String} (hs : "s" ≠ name) (hr : "r" ≠ name) (hn : placeOf? name = none) :
    Assoc.get? (fullFields statics root slots) name = none := by
  have hplaced := (placed_encodeFrom 0 slots).get?_eq_none hn
  cases root with
  | false => simp [fullFields, Assoc.get?, hs, hplaced]
  | true => simp [fullFields, Assoc.get?, hs, hr, hplaced]

theorem places?_numbers (places : List Nat) :
    Wire.places? (.list (places.map fun (n : Nat) => Datum.number n)) = some places := by
  rw [Wire.places?, List.mapM_map]
  induction places with
  | nil => rfl
  | cons n rest ih =>
    rw [List.mapM_cons]
    simp [ih]

theorem moves?_encode (moves : List Move) :
    Wire.moves? (.list (moves.map Move.encode)) = some moves := by
  rw [Wire.moves?, List.mapM_map]
  induction moves with
  | nil => rfl
  | cons m rest ih =>
    rw [List.mapM_cons]
    simp [ih, Move.encode]

theorem TreePatch.encode_full (statics : List String) (root : Bool) (slots : List SlotPatch) :
    (TreePatch.full statics root slots).encode = .fields (fullFields statics root slots) := by
  rw [TreePatch.encode, fullFields]

theorem TreePatch.intoSlot_of_intoTree (p : TreePatch) {held : Option HeldSlot} {t : HeldTree}
    (h : Wire.intoTree p.encode (held.bind HeldSlot.tree?) = some t) :
    Wire.intoSlot p.encode held = some (.tree t) := by
  cases p with
  | full statics root slots =>
    have hd : Assoc.get? (fullFields statics root slots) "d" = none :=
      get?_fullFields (by decide) (by decide) placeOf?_d
    have hl : Assoc.get? (fullFields statics root slots) "l" = none :=
      get?_fullFields (by decide) (by decide) placeOf?_l
    have hs : Assoc.contains (fullFields statics root slots) "s" = true := by
      rw [Assoc.contains, get?_fullFields_s]
      rfl
    rw [TreePatch.encode_full, Wire.intoTree, Wire.treeFrom, get?_fullFields_s] at h
    rw [TreePatch.encode_full, Wire.intoSlot_of_statics (contains_eq_false hd)
      (contains_eq_false hl) hs, Wire.treeFrom, get?_fullFields_s]
    exact Option.map_eq_some_iff.mpr ⟨t, h, rfl⟩
  | edit slots =>
    have hplaced := placed_encodePlaces slots
    have hs := hplaced.get?_eq_none placeOf?_s
    rw [TreePatch.encode, Wire.intoTree] at h
    rw [TreePatch.encode, Wire.intoSlot_of_edit
      (contains_eq_false (hplaced.get?_eq_none placeOf?_d))
      (contains_eq_false (hplaced.get?_eq_none placeOf?_l)) (contains_eq_false hs)]
    cases held with
    | none =>
      rw [Wire.treeFrom, hs] at h
      cases h
    | some slot =>
      cases slot with
      | tree tree => exact Option.map_eq_some_iff.mpr ⟨t, h, rfl⟩
      | _ =>
        rw [Wire.treeFrom, hs] at h
        cases h

theorem get?_unlessEmpty_append {α : Type} (name other : String) (encode : List α → Datum)
    (xs : List α) (rest : List (String × Datum)) :
    Assoc.get? (unlessEmpty name encode xs ++ rest) other =
      if xs.isEmpty = false ∧ name = other then some (encode xs) else Assoc.get? rest other := by
  cases xs with
  | nil => simp [unlessEmpty]
  | cons x xs => by_cases h : name = other <;> simp [unlessEmpty, Assoc.get?, h]

theorem get?_unlessEmpty {α : Type} (name other : String) (encode : List α → Datum)
    (xs : List α) : Assoc.get? (unlessEmpty name encode xs) other =
      if xs.isEmpty = false ∧ name = other then some (encode xs) else none := by
  rw [← List.append_nil (unlessEmpty name encode xs), get?_unlessEmpty_append, Assoc.get?_nil]

/-- The fields of the keyed changes of a loop. -/
def keyedFields (removes : List Nat) (moves : List Move) (inserts : List (Nat × List SlotPatch))
    (updates : List (Nat × List (Nat × SlotPatch))) : List (String × Datum) :=
  unlessEmpty "x" (fun xs => .list (xs.map fun (n : Nat) => Datum.number n)) removes ++
    (unlessEmpty "m" (fun xs => .list (xs.map Move.encode)) moves ++
      (unlessEmpty "i" .list (SlotPatch.encodeInserts inserts) ++
        unlessEmpty "u" .fields (SlotPatch.encodeEdits updates)))

theorem RowsPatch.encode_keyed (removes : List Nat) (moves : List Move)
    (inserts : List (Nat × List SlotPatch)) (updates : List (Nat × List (Nat × SlotPatch))) :
    (RowsPatch.keyed removes moves inserts updates).encode =
      .fields (keyedFields removes moves inserts updates) := by
  simp [RowsPatch.encode, keyedFields]

section Keyed

variable (removes : List Nat) (moves : List Move) (inserts : List (Nat × List SlotPatch))
  (updates : List (Nat × List (Nat × SlotPatch)))

theorem get?_keyedFields (name : String) (hx : "x" ≠ name) (hm : "m" ≠ name) (hi : "i" ≠ name)
    (hu : "u" ≠ name) : Assoc.get? (keyedFields removes moves inserts updates) name = none := by
  simp [keyedFields, get?_unlessEmpty_append, get?_unlessEmpty, hx, hm, hi, hu]

theorem fieldOr_x : Wire.fieldOr (keyedFields removes moves inserts updates) "x" Wire.places? [] =
    some removes := by
  rw [Wire.fieldOr, keyedFields, get?_unlessEmpty_append]
  cases removes with
  | nil => simp [get?_unlessEmpty_append, get?_unlessEmpty]
  | cons n rest => simpa using places?_numbers (n :: rest)

theorem fieldOr_m : Wire.fieldOr (keyedFields removes moves inserts updates) "m" Wire.moves? [] =
    some moves := by
  rw [Wire.fieldOr, keyedFields, get?_unlessEmpty_append, get?_unlessEmpty_append]
  cases moves with
  | nil => simp [get?_unlessEmpty_append, get?_unlessEmpty]
  | cons m rest => simpa using moves?_encode (m :: rest)

theorem insertsField_keyed (rows : List (List HeldSlot)) :
    Wire.insertsField (keyedFields removes moves inserts updates) rows =
      Wire.insertList (SlotPatch.encodeInserts inserts) rows := by
  rw [Wire.insertsField_eq, keyedFields]
  cases h : SlotPatch.encodeInserts inserts with
  | nil => simp [get?_unlessEmpty_append, get?_unlessEmpty, Wire.insertList]
  | cons n rest => simp [get?_unlessEmpty_append, Wire.inserts]

theorem rowEditsField_keyed (rows : List (List HeldSlot)) :
    Wire.rowEditsField (keyedFields removes moves inserts updates) rows =
      Wire.editRowList (SlotPatch.encodeEdits updates) rows := by
  rw [Wire.rowEditsField_eq, keyedFields]
  cases h : SlotPatch.encodeEdits updates with
  | nil => simp [get?_unlessEmpty_append, get?_unlessEmpty, Wire.editRowList]
  | cons n rest => simp [get?_unlessEmpty_append, get?_unlessEmpty, Wire.editRows]

end Keyed

mutual

theorem TreePatch.intoTree_encode : ∀ (p : TreePatch) {held : Option HeldTree} {t : HeldTree},
    p.apply held = some t → Wire.intoTree p.encode held = some t
  | .full statics root slots, held, t, h => by
    rw [TreePatch.apply] at h
    obtain ⟨made, hmade, h⟩ := Option.bind_eq_some_iff.mp h
    have hfill := SlotPatch.fill_encodeFrom slots [] hmade
    rw [TreePatch.encode_full, Wire.intoTree, Wire.treeFrom, get?_fullFields_s, ← h]
    simp only [texts?_statics, fill_fullFields, Option.bind_eq_bind, Option.bind_some]
    rw [show SlotPatch.encodeFrom 0 slots = SlotPatch.encodeFrom ([] : List HeldSlot).length slots
      from rfl, hfill]
    rfl
  | .edit slots, held, t, h => by
    rw [TreePatch.apply] at h
    obtain ⟨tree, hheld, h⟩ := Option.bind_eq_some_iff.mp h
    obtain ⟨made, hmade, h⟩ := Option.bind_eq_some_iff.mp h
    have hfill := SlotPatch.fill_encodePlaces slots hmade
    have hs := (placed_encodePlaces slots).get?_eq_none placeOf?_s
    rw [TreePatch.encode, Wire.intoTree, Wire.treeFrom, hs, hheld]
    simp only [Option.bind_eq_bind, Option.bind_some, hfill]
    exact h

/-- A slot that reads the wire form of its patch comes to hold what the patch makes of it. -/
theorem SlotPatch.intoSlot_encode : ∀ (p : SlotPatch) {held : Option HeldSlot} {x : HeldSlot},
    p.apply held = some x → Wire.intoSlot p.encode held = some x
  | .text s, held, x, h => h
  | .component cid, held, x, h => by
    rw [SlotPatch.apply] at h
    rw [SlotPatch.encode, Wire.intoSlot, ← h]
    rfl
  | .tree patch, held, x, h => by
    rw [SlotPatch.apply] at h
    obtain ⟨t, ht, rfl⟩ := Option.map_eq_some_iff.mp h
    exact patch.intoSlot_of_intoTree (TreePatch.intoTree_encode patch ht)
  | .list patch, held, x, h => by
    rw [SlotPatch.apply] at h
    obtain ⟨ts, hts, rfl⟩ := Option.map_eq_some_iff.mp h
    exact ListPatch.intoSlot_encode patch hts
  | .rows patch, held, x, h => by
    rw [SlotPatch.apply] at h
    obtain ⟨⟨statics, rows⟩, hrows, rfl⟩ := Option.map_eq_some_iff.mp h
    exact RowsPatch.intoSlot_encode patch hrows

theorem ListPatch.intoSlot_encode : ∀ (p : ListPatch) {held : Option HeldSlot}
    {ts : List HeldTree}, p.apply (held.bind HeldSlot.list?) = some ts →
      Wire.intoSlot p.encode held = some (.list ts)
  | .full trees, held, ts, h => by
    rw [ListPatch.apply] at h
    have hts := TreePatch.newTreeList_encodeAll trees h
    have hd : Assoc.contains [("l", Datum.list (TreePatch.encodeAll trees))] "d" = false := rfl
    rw [ListPatch.encode, Wire.intoSlot_of_trees hd rfl, Wire.treesField_eq]
    change (Wire.newTreeList (TreePatch.encodeAll trees)).map HeldSlot.list = some (.list ts)
    rw [hts]
    rfl
  | .edit edits, held, ts, h => by
    rw [ListPatch.apply] at h
    obtain ⟨trees, hheld, h⟩ := Option.bind_eq_some_iff.mp h
    have hts := TreePatch.editTreeList_encodePlaces edits h
    match held, hheld with
    | some (.list trees'), hheld =>
      cases hheld
      rw [ListPatch.encode, Wire.intoSlot_of_edit rfl rfl rfl]
      change (Wire.treeEditsField _ trees).map HeldSlot.list = some (.list ts)
      rw [Wire.treeEditsField_eq]
      change (Wire.editTreeList (TreePatch.encodePlaces edits) trees).map HeldSlot.list = _
      rw [hts]
      rfl

theorem RowsPatch.intoSlot_encode : ∀ (p : RowsPatch) {held : Option HeldSlot}
    {statics : List String} {rows : List (List HeldSlot)},
    p.apply (held.bind HeldSlot.rows?) = some (statics, rows) →
      Wire.intoSlot p.encode held = some (.rows statics rows)
  | .full (some own) new, held, statics, rows, h => by
    rw [RowsPatch.apply] at h
    obtain ⟨made, hmade, h⟩ := Option.bind_eq_some_iff.mp h
    cases h
    have hrows := SlotPatch.newRowList_encodeRows new hmade
    have hfields : (RowsPatch.full (some own) new).encode =
        .fields [("s", .list (own.map .text)), ("d", .list (SlotPatch.encodeRows new))] := by
      rw [RowsPatch.encode]
      rfl
    have hs : Wire.texts? (.list (own.map .text)) = some own := texts?_statics own
    rw [hfields, Wire.intoSlot_of_rows rfl, Wire.rowsField_eq]
    change (Wire.newRowList (SlotPatch.encodeRows new)).bind (fun rows =>
      (Wire.texts? (.list (own.map .text))).bind fun statics => some (HeldSlot.rows statics rows)) = _
    rw [hrows, hs]
    rfl
  | .full none new, held, statics, rows, h => by
    rw [RowsPatch.apply] at h
    obtain ⟨⟨own, old⟩, hheld, h⟩ := Option.bind_eq_some_iff.mp h
    obtain ⟨made, hmade, h⟩ := Option.bind_eq_some_iff.mp h
    cases h
    have hrows := SlotPatch.newRowList_encodeRows new hmade
    have hfields : (RowsPatch.full none new).encode =
        .fields [("d", .list (SlotPatch.encodeRows new))] := by
      rw [RowsPatch.encode]
      rfl
    rw [hfields, Wire.intoSlot_of_rows rfl, Wire.rowsField_eq, hheld]
    change (Wire.newRowList (SlotPatch.encodeRows new)).bind
      (fun rows => some (HeldSlot.rows statics rows)) = _
    rw [hrows]
    rfl
  | .edit edits, held, statics, rows, h => by
    rw [RowsPatch.apply] at h
    obtain ⟨⟨own, old⟩, hheld, h⟩ := Option.bind_eq_some_iff.mp h
    obtain ⟨made, hmade, h⟩ := Option.bind_eq_some_iff.mp h
    cases h
    have hrows := SlotPatch.editRowList_encodeEdits edits hmade
    match held, hheld with
    | some (.rows _ _), hheld =>
      cases hheld
      rw [RowsPatch.encode, Wire.intoSlot_of_edit rfl rfl rfl]
      simp only [Wire.fieldOr, Wire.insertsField_eq, Wire.rowEditsField_eq]
      change (Wire.editRowList (SlotPatch.encodeEdits edits)
        (Move.applyAll (withoutPlaces [] old) [])).bind (fun rows => some (HeldSlot.rows statics rows)) = _
      rw [withoutPlaces_nil, Move.applyAll, List.foldl_nil, hrows]
      rfl
  | .keyed removes moves inserts updates, held, statics, rows, h => by
    rw [RowsPatch.apply] at h
    obtain ⟨⟨own, old⟩, hheld, h⟩ := Option.bind_eq_some_iff.mp h
    obtain ⟨filled, hfilled, h⟩ := Option.bind_eq_some_iff.mp h
    obtain ⟨made, hmade, h⟩ := Option.bind_eq_some_iff.mp h
    cases h
    have hinserts := SlotPatch.insertList_encodeInserts inserts hfilled
    have hupdates := SlotPatch.editRowList_encodeEdits updates hmade
    have hd := get?_keyedFields removes moves inserts updates "d" (by decide) (by decide) (by decide)
      (by decide)
    have hl := get?_keyedFields removes moves inserts updates "l" (by decide) (by decide) (by decide)
      (by decide)
    have hs := get?_keyedFields removes moves inserts updates "s" (by decide) (by decide) (by decide)
      (by decide)
    match held, hheld with
    | some (.rows _ _), hheld =>
      cases hheld
      rw [RowsPatch.encode_keyed, Wire.intoSlot_of_edit (contains_eq_false hd)
        (contains_eq_false hl) (contains_eq_false hs)]
      simp only [fieldOr_x, fieldOr_m, insertsField_keyed, rowEditsField_keyed,
        Option.bind_eq_bind, Option.bind_some, hinserts, hupdates]

theorem TreePatch.newTreeList_encodeAll : ∀ (trees : List TreePatch) {made : List HeldTree},
    TreePatch.make trees = some made →
      Wire.newTreeList (TreePatch.encodeAll trees) = some made
  | [], made, h => h
  | p :: rest, made, h => by
    rw [TreePatch.make] at h
    obtain ⟨tree, htree, h⟩ := Option.bind_eq_some_iff.mp h
    obtain ⟨trees, htrees, h⟩ := Option.bind_eq_some_iff.mp h
    rw [TreePatch.encodeAll, Wire.newTreeList, TreePatch.intoTree_encode p htree,
      TreePatch.newTreeList_encodeAll rest htrees]
    exact h

theorem TreePatch.editTreeList_encodePlaces : ∀ (trees : List (Nat × TreePatch))
    {held made : List HeldTree}, TreePatch.applyPlaces trees held = some made →
      Wire.editTreeList (TreePatch.encodePlaces trees) held = some made
  | [], held, made, h => h
  | (i, p) :: rest, held, made, h => by
    rw [TreePatch.applyPlaces] at h
    obtain ⟨old, hold, h⟩ := Option.bind_eq_some_iff.mp h
    obtain ⟨new, hnew, h⟩ := Option.bind_eq_some_iff.mp h
    rw [TreePatch.encodePlaces, Wire.editTreeList, placeOf?_toString]
    simp only [Option.bind_eq_bind, Option.bind_some, hold, TreePatch.intoTree_encode p hnew]
    exact TreePatch.editTreeList_encodePlaces rest h

theorem SlotPatch.newSlots_encodeAll : ∀ (slots : List SlotPatch) {made : List HeldSlot},
    SlotPatch.make slots = some made → Wire.newSlots (SlotPatch.encodeAll slots) = some made
  | [], made, h => h
  | p :: rest, made, h => by
    rw [SlotPatch.make] at h
    obtain ⟨slot, hslot, h⟩ := Option.bind_eq_some_iff.mp h
    obtain ⟨slots, hslots, h⟩ := Option.bind_eq_some_iff.mp h
    rw [SlotPatch.encodeAll, Wire.newSlots, SlotPatch.intoSlot_encode p hslot,
      SlotPatch.newSlots_encodeAll rest hslots]
    exact h

theorem SlotPatch.newRowList_encodeRows : ∀ (rows : List (List SlotPatch))
    {made : List (List HeldSlot)}, SlotPatch.makeRows rows = some made →
      Wire.newRowList (SlotPatch.encodeRows rows) = some made
  | [], made, h => h
  | row :: rest, made, h => by
    rw [SlotPatch.makeRows] at h
    obtain ⟨slots, hslots, h⟩ := Option.bind_eq_some_iff.mp h
    obtain ⟨rows, hrows, h⟩ := Option.bind_eq_some_iff.mp h
    rw [SlotPatch.encodeRows, Wire.newRowList, Wire.newRow,
      SlotPatch.newSlots_encodeAll row hslots, SlotPatch.newRowList_encodeRows rest hrows]
    exact h

theorem SlotPatch.insertList_encodeInserts : ∀ (inserts : List (Nat × List SlotPatch))
    {rows made : List (List HeldSlot)}, SlotPatch.insertRows inserts rows = some made →
      Wire.insertList (SlotPatch.encodeInserts inserts) rows = some made
  | [], rows, made, h => h
  | (i, row) :: rest, rows, made, h => by
    rw [SlotPatch.insertRows] at h
    obtain ⟨slots, hslots, h⟩ := Option.bind_eq_some_iff.mp h
    have hrow : Wire.newRow (.list (SlotPatch.encodeAll row)) = some slots :=
      SlotPatch.newSlots_encodeAll row hslots
    rw [SlotPatch.encodeInserts, Wire.insertList, hrow]
    exact SlotPatch.insertList_encodeInserts rest h

theorem SlotPatch.editRowList_encodeEdits : ∀ (edits : List (Nat × List (Nat × SlotPatch)))
    {rows made : List (List HeldSlot)}, SlotPatch.applyRows edits rows = some made →
      Wire.editRowList (SlotPatch.encodeEdits edits) rows = some made
  | [], rows, made, h => h
  | (i, row) :: rest, rows, made, h => by
    rw [SlotPatch.applyRows] at h
    obtain ⟨old, hold, h⟩ := Option.bind_eq_some_iff.mp h
    obtain ⟨new, hnew, h⟩ := Option.bind_eq_some_iff.mp h
    have hrow : Wire.editRow (.fields (SlotPatch.encodePlaces row)) old = some new :=
      SlotPatch.fill_encodePlaces row hnew
    rw [SlotPatch.encodeEdits, Wire.editRowList, placeOf?_toString]
    simp only [Option.bind_eq_bind, Option.bind_some, hold, hrow]
    exact SlotPatch.editRowList_encodeEdits rest h

theorem SlotPatch.fill_encodeFrom : ∀ (slots : List SlotPatch) {made : List HeldSlot}
    (done : List HeldSlot), SlotPatch.make slots = some made →
      Wire.fill (SlotPatch.encodeFrom done.length slots) done = some (done ++ made)
  | [], made, done, h => by
    cases h
    simp [SlotPatch.encodeFrom, Wire.fill]
  | p :: rest, made, done, h => by
    rw [SlotPatch.make] at h
    obtain ⟨slot, hslot, h⟩ := Option.bind_eq_some_iff.mp h
    obtain ⟨slots, hslots, h⟩ := Option.bind_eq_some_iff.mp h
    cases Option.some.inj h
    have hnone : done[done.length]? = none := by simp
    have hrest := SlotPatch.fill_encodeFrom rest (done ++ [slot]) hslots
    rw [SlotPatch.encodeFrom, fill_cons_place, hnone, SlotPatch.intoSlot_encode p hslot]
    simp only [Option.bind_eq_bind, Option.bind_some, putPlace_length]
    simpa using hrest

theorem SlotPatch.fill_encodePlaces : ∀ (slots : List (Nat × SlotPatch)) {held made : List HeldSlot},
    SlotPatch.applyPlaces slots held = some made →
      Wire.fill (SlotPatch.encodePlaces slots) held = some made
  | [], held, made, h => h
  | (i, p) :: rest, held, made, h => by
    rw [SlotPatch.applyPlaces] at h
    obtain ⟨old, hold, h⟩ := Option.bind_eq_some_iff.mp h
    obtain ⟨new, hnew, h⟩ := Option.bind_eq_some_iff.mp h
    rw [SlotPatch.encodePlaces, fill_cons_place, hold, SlotPatch.intoSlot_encode p hnew]
    simp only [Option.bind_eq_bind, Option.bind_some, putPlace_of_getElem? hold]
    exact SlotPatch.fill_encodePlaces rest h

end

end LiveTemplate
