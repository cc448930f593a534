import LiveTemplate.Component.Spec
import LiveTemplate.Eval
import LiveTemplate.Snapshot

/-!
What a component renders with: the values of its attributes, the entries of its slots, and what
its spec adds; and which of these bindings differ from those it rendered with before. A slot entry
is a record that carries the content a caller hands to a component, along with its attributes.
-/

namespace LiveTemplate

set_option autoImplicit false

/-- An entry as the component sees it; one without content cannot be rendered. -/
structure Entry where
  slot : String
  content : Option Block

namespace Value

/-- The slot entry that a value is. -/
def entry? (v : Value) : Option Entry := do
  let fields ← v.fields?
  let .text slot ← Assoc.get? fields "__slot__" | none
  match (← Assoc.get? fields innerBlock).origin with
  | .null => return ⟨slot, none⟩
  | .block _ content => return ⟨slot, some content⟩
  | _ => none

/-- The entries that a slot holds: a list of them, a single one, or none. -/
def slotEntries (v : Value) (span : Span) : Eval (List Entry) :=
  if v.isAbsent then return []
  else match v.entry? with
    | some e => return [e]
    | none =>
      let entries := match v with
        | list _ items => items.mapM entry?
        | _ => none
      match entries with
      | some es => return es
      | none => Eval.fail (.notSlot v.describe) span

/-- The attributes that a spread value holds. -/
def spreadFields (v : Value) (span : Span) : Eval (Record Value) :=
  if v.isAbsent then return []
  else match v.fields? with
    | some fields => return fields
    | none => Eval.fail (.notAttributes v.describe) span

end Value

namespace Argument

/-- Adds what an argument gives to the values before it. -/
def assign (frame : Frame) (values : Bindings) : Argument → Eval Bindings
  | named name value _ _ => do
    let v ← value.eval frame.scope
    return values.assign name v
  | spread value _ span => do
    let v ← value.eval frame.scope
    let fields ← v.spreadFields span
    return values.assignAll fields

/-- The held value of a named argument whose reads are untouched. -/
def held? (frame : Frame) (held : Option (Record Value)) : Argument → Option (String × Value)
  | named name _ reads _ => do
    let values ← held
    let v ← Assoc.get? values name
    if reads.isAffected frame.changed then none else some (name, v)
  | spread _ _ _ => none

/-- The values of arguments in turn, from held values where that is possible. -/
def assignAll (frame : Frame) (held : Option (Record Value)) :
    List Argument → Bindings → Eval Bindings
  | [], values => return values
  | arg :: rest, values => do
    match arg.held? frame held with
    | some (name, v) => assignAll frame held rest (values.assign name v)
    | none => assignAll frame held rest (← arg.assign frame values)

end Argument

/-- Whether what a slot entry reads may have changed. Without tracking everything may have. -/
def SlotPlan.isTouched (frame : Frame) (tracked : Bool) (plan : SlotPlan) : Bool :=
  !tracked || plan.reads.isAffected frame.changed

/-- The entry that a slot plan hands over. -/
def SlotPlan.entry (frame : Frame) (tracked : Bool) (plan : SlotPlan) : Eval Value := do
  let attributes ← Argument.assignAll frame none plan.attributes {}
  let content ← match plan.body with
    | none => pure .null
    | some body => do
      let id ← freshId
      let block := Block.mk plan.name plan.pattern body frame (plan.isTouched frame tracked)
      pure (.block id block)
  let marked := Record.insert attributes.fields "__slot__" (.text plan.name)
  Eval.newRecord (Record.insert marked innerBlock content)

/-- The entries of each slot, in the order of their first entries. -/
def SlotPlan.entries (frame : Frame) (tracked : Bool) :
    List SlotPlan → Assoc String (List Value) → Eval (Assoc String (List Value))
  | [], slots => return slots
  | plan :: rest, slots => do
    let e ← plan.entry frame tracked
    let held := (Assoc.get? slots plan.name).getD []
    SlotPlan.entries frame tracked rest (Assoc.set slots plan.name (held ++ [e]))

/-- The bindings a component renders with. Nothing is known about changes when it is mounted for
the first time, or when the caller knows nothing. -/
structure CalleeAssigns where
  assigns : Bindings
  changed : Option ChangedSet

namespace ComponentPlan

/-- The names of slots with an entry that is touched. -/
def touchedSlots (plan : ComponentPlan) (frame : Frame) : List String :=
  (plan.slots.filter (·.isTouched frame true)).map SlotPlan.name

/-- How one binding differs from the one held. Slots count as changed when they are touched. -/
def bindingMark (plan : ComponentPlan) (frame : Frame) (held assigns : Record Value)
    (name : String) : Option Mark :=
  match Assoc.get? held name, Assoc.get? assigns name with
  | some before, some after =>
    if plan.slots.any (·.name = name) then
      if name ∈ plan.touchedSlots frame then some .whole else none
    else Value.changeMark before after
  | _, _ => some .whole

/-- The bindings that differ from those held. A name that stands for the parent is not among them.
-/
def changes (plan : ComponentPlan) (frame : Frame) (held assigns : Record Value) : ChangedSet :=
  let names := Assoc.keys held ++ (Assoc.keys assigns).filter fun n => !Assoc.contains held n
  Record.ofPairs ((names.filter (· ≠ parentName)).filterMap fun n =>
    (plan.bindingMark frame held assigns n).map fun m => (n, m))

/-- The bindings for a call; `node` is the instance as it was before. -/
def calleeAssigns (plan : ComponentPlan) (frame : Frame) (spec : ComponentSpec)
    (node : Option Instance) : Eval CalleeAssigns := do
  let held := if frame.changed.isSome then node.map Instance.assigns else none
  let values ← Argument.assignAll frame held plan.attributes {}
  let slots ← SlotPlan.entries frame held.isSome plan.slots []
  let lists ← slots.mapM fun (name, entries) => return (name, ← Eval.newList entries)
  let assigns ← spec.apply (values.assignAll lists).fields
  return ⟨assigns, held.map fun h => plan.changes frame h assigns.fields⟩

/-- What tells an instance from others: an explicit `id` with its type, else where the call
stands. -/
def mountKey (plan : ComponentPlan) (frame : Frame) (name : String) : Eval String := do
  let placed := frame.position ++ ":" ++ name
  match plan.attributes.findSome? fun
    | .named "id" value _ _ => some value
    | _ => none with
  | none => return placed
  | some value =>
    match ← value.eval frame.scope with
    | .undefined | .null | .flag false => return placed
    | v => return name ++ "#" ++ v.typeName ++ ":" ++ (← v.toText Value.call)

end ComponentPlan

end LiveTemplate
