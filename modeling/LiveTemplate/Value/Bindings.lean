import LiveTemplate.Value

/-!
Records while they are being made. Fields are assigned by name, and one name stands for the parent.
-/

namespace LiveTemplate

set_option autoImplicit false

/-- What a record inherits from, and the fields it holds itself. -/
structure Bindings where
  parent : Parent := .plain
  fields : Record Value := []
deriving Inhabited

/-- Whether the parent of a record is given by name. It is as long as the record inherits what all
values have in common and nothing on the way holds a field of that name. -/
def Value.takesParent : Value → Bool
  | record _ parent fields =>
    !Assoc.contains fields parentName &&
      match parent with
      | .plain => true
      | .nothing => false
      | .value v => v.takesParent
  | _ => true

namespace Bindings

/-- The record that is made. -/
def record (b : Bindings) (id : Identity) : Value := .record id b.parent b.fields

/-- Assigns a field, or the parent. Only null and compound values can be parents. -/
def assign (b : Bindings) (name : String) (v : Value) : Bindings :=
  if name = parentName ∧ (b.record 0).takesParent then
    match v with
    | .null => { b with parent := .nothing }
    | v => if v.isCompound then { b with parent := .value v } else b
  else { b with fields := Record.insert b.fields name v }

/-- Assigns fields in turn. -/
def assignAll (b : Bindings) (fields : List (String × Value)) : Bindings :=
  fields.foldl (fun b f => b.assign f.1 f.2) b

end Bindings

end LiveTemplate
