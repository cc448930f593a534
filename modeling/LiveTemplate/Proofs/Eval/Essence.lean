import LiveTemplate.Proofs.Eval.Content
import LiveTemplate.Value.Bindings

/-!
What a value is apart from identities and from what the blocks in it know of changes. Renders that
track changes and renders that do not are compared by it. Records are made the same way from the
essence of what is assigned, so it passes through assignments.
-/

namespace LiveTemplate

set_option autoImplicit false

universe u v

/-! ### Fields with other values -/

section Fields
variable {α : Type u} {β : Type v} (g : α → β)

/-- The same names with other values. -/
def Record.mapValues (fields : Record α) : Record β := fields.map fun f => (f.1, g f.2)

theorem Record.mapValues_cons (f : String × α) (rest : Record α) :
    Record.mapValues g (f :: rest) = (f.1, g f.2) :: Record.mapValues g rest := rfl

theorem Record.mapValues_append (fields more : Record α) :
    Record.mapValues g (fields ++ more) = Record.mapValues g fields ++ Record.mapValues g more :=
  List.map_append

theorem Record.mapValues_filter (p : String → Bool) (fields : Record α) :
    Record.mapValues g (fields.filter fun f => p f.1) =
      (Record.mapValues g fields).filter fun f => p f.1 := by
  rw [Record.mapValues, Record.mapValues, List.filter_map]
  rfl

theorem Record.keys_mapValues (fields : Record α) :
    Assoc.keys (Record.mapValues g fields) = Assoc.keys fields := by
  rw [Assoc.keys, Assoc.keys, Record.mapValues, List.map_map]
  rfl

theorem Record.get?_mapValues (fields : Record α) (name : String) :
    Assoc.get? (Record.mapValues g fields) name = (Assoc.get? fields name).map g := by
  induction fields with
  | nil => rfl
  | cons f rest ih =>
    rw [Record.mapValues_cons, Assoc.get?, Assoc.get?, ih]
    split <;> rfl

theorem Record.contains_mapValues (fields : Record α) (name : String) :
    Assoc.contains (Record.mapValues g fields) name = Assoc.contains fields name := by
  rw [Assoc.contains, Assoc.contains, Record.get?_mapValues, Option.isSome_map]

theorem Record.set_mapValues (fields : Record α) (name : String) (v : α) :
    Assoc.set (Record.mapValues g fields) name (g v) =
      Record.mapValues g (Assoc.set fields name v) := by
  induction fields with
  | nil => rfl
  | cons f rest ih =>
    rw [Record.mapValues_cons, Assoc.set, Assoc.set, ih]
    split <;> rfl

theorem Record.place_mapValues (fields : Record α) (n : Nat) (name : String) (v : α) :
    Record.place (Record.mapValues g fields) n name (g v) =
      Record.mapValues g (Record.place fields n name v) := by
  induction fields with
  | nil => rfl
  | cons f rest ih =>
    rw [Record.mapValues_cons, Record.place, Record.place, ih]
    cases Record.index? f.1 with
    | none => rfl
    | some m =>
      dsimp only
      split <;> rfl

theorem Record.insert_mapValues (fields : Record α) (name : String) (v : α) :
    Record.insert (Record.mapValues g fields) name (g v) =
      Record.mapValues g (Record.insert fields name v) := by
  rw [Record.insert, Record.insert, Record.contains_mapValues]
  split
  · exact Record.set_mapValues g fields name v
  · cases Record.index? name with
    | none => exact (Record.mapValues_append g fields [(name, v)]).symm
    | some n => exact Record.place_mapValues g fields n name v

theorem Record.merge_mapValues (fields more : Record α) :
    Record.merge (Record.mapValues g fields) (Record.mapValues g more) =
      Record.mapValues g (Record.merge fields more) := by
  induction more generalizing fields with
  | nil => rfl
  | cons f rest ih =>
    rw [Record.mapValues_cons, Record.merge, List.foldl_cons, Record.insert_mapValues]
    exact ih (Record.insert fields f.1 f.2)

end Fields

/-! ### The essence of values -/

mutual

/-- A value in which every block counts as affected. -/
def Value.touched : Value → Value
  | .list i items => .list i (Value.allTouched items)
  | .record i parent fields => .record i (Parent.touched parent) (Value.namesTouched fields)
  | .map i entries => .map i (Value.pairsTouched entries)
  | .set i items => .set i (Value.allTouched items)
  | .block i content => .block i { content with affected := true }
  | v => v

def Parent.touched : Parent → Parent
  | .value v => .value (Value.touched v)
  | p => p

def Value.allTouched : List Value → List Value
  | [] => []
  | v :: rest => Value.touched v :: Value.allTouched rest

def Value.namesTouched : List (String × Value) → List (String × Value)
  | [] => []
  | (name, v) :: rest => (name, Value.touched v) :: Value.namesTouched rest

def Value.pairsTouched : List (Value × Value) → List (Value × Value)
  | [] => []
  | (a, b) :: rest => (Value.touched a, Value.touched b) :: Value.pairsTouched rest

end

/-- What a value is apart from its identities and from what the blocks in it know of changes. -/
def Value.essence (v : Value) : Value := v.content.touched

def Parent.essence (p : Parent) : Parent := p.content.touched

/-- Fields with the essence of their values. -/
def Record.essence (fields : Record Value) : Record Value := Record.mapValues Value.essence fields

/-- Bindings with the essence of what they hold and inherit from. -/
def Bindings.essence (b : Bindings) : Bindings := ⟨b.parent.essence, Record.essence b.fields⟩

theorem Record.essence_append (fields more : Record Value) :
    Record.essence (fields ++ more) = Record.essence fields ++ Record.essence more :=
  Record.mapValues_append Value.essence fields more

theorem Record.essence_flatten (writes : List (Record Value)) :
    Record.essence writes.flatten = (writes.map Record.essence).flatten := List.map_flatten

theorem Record.keys_essence (fields : Record Value) :
    Assoc.keys (Record.essence fields) = Assoc.keys fields :=
  Record.keys_mapValues Value.essence fields

theorem Record.essence_eq_of_forall₂ {fields more : Record Value}
    (h : List.Forall₂ (fun a b => a.1 = b.1 ∧ a.2.essence = b.2.essence) fields more) :
    Record.essence fields = Record.essence more :=
  map_eq_map_of_forall₂ h fun _ _ hab => Prod.ext hab.1 hab.2

theorem Value.essence_eq_of_content {v w : Value} (h : v.content = w.content) :
    v.essence = w.essence := congrArg Value.touched h

namespace Value

attribute [local simp] allTouched namesTouched

theorem allTouched_eq (vs : List Value) : allTouched vs = vs.map touched := by
  induction vs with
  | nil => rfl
  | cons v rest ih => simp [ih]

theorem namesTouched_eq (fs : List (String × Value)) :
    namesTouched fs = Record.mapValues touched fs := by
  induction fs with
  | nil => rfl
  | cons f rest ih => simp [ih, Record.mapValues_cons]

theorem essence_list (i : Identity) (items : List Value) :
    (list i items).essence = list 0 (items.map essence) := by
  rw [essence, content, touched, contents_eq, allTouched_eq, List.map_map]
  rfl

theorem essence_record (i : Identity) (p : Parent) (fields : Record Value) :
    (record i p fields).essence = record 0 p.essence (Record.essence fields) := by
  rw [essence, content, touched, namesContent_eq, namesTouched_eq, Record.mapValues, List.map_map]
  rfl

@[simp] theorem takesParent_essence (v : Value) : v.essence.takesParent = v.takesParent := by
  fun_induction Value.takesParent v with
  | case1 i parent fields ih =>
    have hcontains : Assoc.contains (Record.essence fields) parentName =
        Assoc.contains fields parentName := Record.contains_mapValues essence fields parentName
    rw [essence_record]
    cases parent with
    | plain => exact congrArg (fun c => !c && true) hcontains
    | nothing => exact congrArg (fun c => !c && false) hcontains
    | value v => exact congrArg₂ (fun c d => !c && d) hcontains ih
  | case2 v h => cases v <;> first | rfl | exact absurd rfl (h _ _ _)

end Value

/-! ### Assignments -/

namespace Bindings

theorem essence_takesParent (b : Bindings) :
    (b.essence.record 0).takesParent = (b.record 0).takesParent := by
  rw [← Value.takesParent_essence (b.record 0), record, record, Value.essence_record]
  rfl

/-- The essence of what is made by an assignment. -/
theorem assign_essence (b : Bindings) (name : String) (v : Value) :
    (b.assign name v).essence = b.essence.assign name v.essence := by
  unfold assign
  rw [essence_takesParent]
  split
  · cases v <;> rfl
  · exact congrArg _ (Record.insert_mapValues Value.essence b.fields name v).symm

theorem assignAll_essence (b : Bindings) (fields : List (String × Value)) :
    (b.assignAll fields).essence = b.essence.assignAll (Record.essence fields) := by
  induction fields generalizing b with
  | nil => rfl
  | cons f rest ih =>
    change ((b.assign f.1 f.2).assignAll rest).essence = _
    rw [ih, assign_essence]
    rfl

end Bindings

end LiveTemplate
