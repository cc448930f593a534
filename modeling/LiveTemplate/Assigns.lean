import LiveTemplate.Eval

/-!
The bindings of a view, with a record of which of them changed since the last render. A value that
equals the one it replaces changes nothing.
-/

namespace LiveTemplate

set_option autoImplicit false

structure Assigns where
  /-- The identity of the bindings as one record. -/
  id : Identity := 0
  bindings : Bindings := {}
  changes : ChangedSet := []

inductive AssignError where
  | reserved (key : String)
  | notAssigned (key : String)
  /-- The new value could not be computed. -/
  | eval (e : EvalError)
deriving DecidableEq, Repr, Inhabited

def AssignError.message : AssignError → String
  | reserved key => "\"" ++ key ++ "\" is reserved and cannot be assigned"
  | notAssigned key => "cannot update \"" ++ key ++ "\": it has not been assigned"
  | eval e => e.message

/-- The names that templates keep for themselves. -/
def reservedNames : List String := ["assigns"]

/-- Changes of bindings; the changes noted before a failure stay. -/
abbrev Assigning := ExceptT AssignError (StateT Assigns Fresh)

namespace Assigns

/-- Bindings to start with; none of them counts as changed. -/
def ofRecord (initial : Record Value) : ExceptT AssignError Fresh Assigns := do
  match (Assoc.keys initial).find? (· ∈ reservedNames) with
  | some key => throw (.reserved key)
  | none =>
    let id ← freshId
    return { id, bindings := { fields := initial } }

def values (a : Assigns) : Record Value := a.bindings.fields

/-- The bindings as a value. -/
def record (a : Assigns) : Value := a.bindings.record a.id

/-- What a name stands for, as for any record: bindings inherit what values have in common. -/
def get (a : Assigns) (key : String) : Eval Value := a.record.member key

def has (a : Assigns) (key : String) : Bool := Assoc.contains a.values key

def changed (a : Assigns) (key : String) : Bool := Assoc.contains a.changes key

/-- How a new value differs from the binding it replaces. -/
def markOf (held : Record Value) (key : String) (value : Value) : Option Mark :=
  match Assoc.get? held key with
  | some before => Value.changeMark before value
  | none => some .whole

/-- Notes what differs from the held bindings and gives the bindings as they will be. -/
def note (held : Record Value) : List (String × Value) → Bindings → Assigning Bindings
  | [], next => return next
  | (key, value) :: rest, next => do
    if key ∈ reservedNames then throw (.reserved key)
    match markOf held key value with
    | none => note held rest next
    | some mark =>
      modify fun a => { a with changes := a.changes.add key mark }
      note held rest (next.assign key value)

/-- Sets bindings in turn. -/
def assignAll (entries : List (String × Value)) : Assigning Unit := do
  let held := (← MonadState.get).values
  let next ← note held entries { fields := held }
  if entries.any fun e => (markOf held e.1 e.2).isSome then
    let id ← freshId
    modify fun a => { a with id := id, bindings := next }

def assign (key : String) (value : Value) : Assigning Unit := assignAll [(key, value)]

/-- Runs a computation of a new value. -/
def compute (x : Eval Value) : Assigning Value :=
  ExceptT.mk do
    let result ← liftM x.run
    return result.mapError .eval

/-- Sets a binding that is not there yet, to what comes out of the bindings. -/
def assignNew (key : String) (f : Value → Eval Value) : Assigning Unit := do
  let a ← MonadState.get
  if a.has key then return
  assign key (← compute (f a.record))

/-- Replaces a binding by what comes out of it and of all bindings. -/
def update (key : String) (f : Value → Value → Eval Value) : Assigning Unit := do
  let a ← MonadState.get
  if !a.has key then throw (.notAssigned key)
  assign key (← compute (do f (← a.get key) a.record))

/-- Forgets the changes. -/
def reset (a : Assigns) : Assigns := { a with changes := [] }

end Assigns

end LiveTemplate
