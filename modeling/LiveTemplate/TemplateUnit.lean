import LiveTemplate.Component.Check
import LiveTemplate.Component.Declaration
import LiveTemplate.Template

/-!
Units: named collections of components and of templates that call them. A unit can make the
components of finished units callable. Finishing a unit checks every call its templates make.
-/

namespace LiveTemplate

set_option autoImplicit false

/-- What a finished unit offers to others. -/
structure FinishedUnit where
  name : String
  components : Assoc String Definition
  /-- Warnings about declarations and calls, in the order in which they were found. -/
  diagnostics : List Diagnostic

structure TemplateUnit where
  /-- The number by which frames refer to the unit. -/
  number : Nat
  name : String
  /-- The file that diagnostics name. -/
  file : String
  trimmed : Bool := true
  helpers : Assoc String Value
  definitions : Assoc String Definition := []
  modules : Assoc String FinishedUnit := []
  imported : Assoc String Definition := []
  /-- The templates whose calls are to be checked. -/
  templates : List Template := []
  diagnostics : List Diagnostic := []
  finished : Option FinishedUnit := none

/-- Steps that a finished unit refuses. -/
inductive UnitChange where
  | definition | useOfUnit | importing
deriving DecidableEq, Repr, Inhabited

def UnitChange.text : UnitChange → String
  | definition => "define a component"
  | useOfUnit => "use another unit"
  | importing => "import components"

inductive UnitError where
  | finished (unit : String) (change : UnitChange)
  | defined (component unit : String)
  | noTemplate (component unit : String)
  | template (e : SyntaxError) (source : Source)
  /-- A declaration could not be described. -/
  | eval (e : EvalError)
deriving Repr, Inhabited

def UnitError.message : UnitError → String
  | finished unit change => unit ++ " is already finalized; cannot " ++ change.text
  | defined component unit =>
    "component \"" ++ component ++ "\" is already defined in " ++ unit
  | noTemplate component unit =>
    "component \"" ++ component ++ "\" in " ++ unit ++ " has no template"
  | template e _ => e.cause.message
  | eval e => e.message

/-- Steps of a unit; what was done before a failure stays done. -/
abbrev UnitStep := ExceptT UnitError (StateT TemplateUnit Traced)

namespace TemplateUnit

/-- The component that a tag in a template of this unit names. -/
def resolve (u : TemplateUnit) (target : Target) : Option Definition :=
  match target.unit with
  | none => (Assoc.get? u.definitions target.name).or (Assoc.get? u.imported target.name)
  | some unit =>
    if unit = u.name then Assoc.get? u.definitions target.name
    else (Assoc.get? u.modules unit).bind fun m => Assoc.get? m.components target.name

/-- What is doubtful about a call; components that declare nothing are not checked. -/
def findings (u : TemplateUnit) (t : Template) (call : ComponentCall) : List CallFinding :=
  match u.resolve call.target with
  | none => [⟨.undefinedComponent, call.span⟩]
  | some d => if d.spec.isEmpty then [] else call.check d.spec t.source

/-- The warnings about the calls of a template. -/
def warnings (u : TemplateUnit) (t : Template) : List Diagnostic :=
  t.calls.flatMap fun call => (u.findings t call).map fun f => f.warning call t.source

/-- What checking a template reports. -/
def checkEvents (u : TemplateUnit) (t : Template) : List Event :=
  (t.calls.flatMap fun call =>
    match u.resolve call.target with
    | none => []
    | some d =>
      if d.spec.isEmpty then []
      else [.call call.target.display call.file (call.check d.spec t.source).length]) ++
    (u.warnings t).map fun w => .warning w.code w.format

/-- The warnings known about a template of the unit: none before the unit is finished. -/
def knownWarnings (u : TemplateUnit) (t : Template) : List Diagnostic :=
  if u.finished.isSome then u.warnings t else []

/-- Only a unit that is not finished can be changed. -/
def requireOpen (change : UnitChange) : UnitStep Unit := do
  let u ← get
  if u.finished.isSome then throw (.finished u.name change)

def emit (events : List Event) : UnitStep Unit := liftM (Traced.emitAll events)

/-- Compiles a source and keeps the template for checking. -/
def add (source : Source) : UnitStep Template := do
  let u ← get
  let result ← liftM (Template.compile source u.helpers (some u.number) u.trimmed)
  match result with
  | .error e => throw (.template e source)
  | .ok t =>
    set { u with templates := u.templates ++ [t] }
    return t

/-- Issues with their messages. -/
def describe (issues : List Issue) : UnitStep (List (Issue × String)) :=
  let described : Eval (List (Issue × String)) := issues.mapM fun i => return (i, ← i.message)
  ExceptT.mk do
    let result ← liftM (Traced.ofFresh described.run)
    return result.mapError .eval

/-- Records the issues of a component's declarations. -/
def recordIssues (source : Source) (component : String) (issues : List (Issue × String)) :
    UnitStep Unit := do
  let found := issues.map fun (i, message) =>
    i.code.report .verify source message none (i.data component)
  modify fun u => { u with diagnostics := u.diagnostics ++ found }
  emit (found.map fun d => .warning d.code d.format)

/-- Defines a component. -/
def define (name : String) (declarations : List Declaration) : UnitStep Unit := do
  requireOpen .definition
  let u ← get
  if Assoc.contains u.definitions name then throw (.defined name u.name)
  let declared := Declared.ofList declarations
  let issues ← describe declared.issues
  match declared.source with
  | none => throw (.noTemplate name u.name)
  | some text =>
    let source : Source := ⟨text, u.file ++ "#" ++ name⟩
    recordIssues source name issues
    let t ← add source
    let definition : Definition :=
      ⟨u.name ++ "." ++ name, declared.spec name, t.fragment, t.source, t.helpers, t.unit⟩
    modify fun u => { u with definitions := Assoc.set u.definitions name definition }
    emit [.definition u.name name declared.attrs.length declared.slots.length]

/-- Makes the components of a unit callable under a module name. -/
def use (moduleName : String) (other : FinishedUnit) : UnitStep Unit := do
  requireOpen .useOfUnit
  modify fun u => { u with modules := Assoc.set u.modules moduleName other }

/-- Makes components of a unit callable as if they were of this one. -/
def importFrom (other : FinishedUnit) (names : Option (List String)) : UnitStep Unit := do
  requireOpen .importing
  let chosen := other.components.filter fun c => names.all fun ns => c.1 ∈ ns
  modify fun u => { u with imported := Assoc.setAll u.imported chosen }

/-- Compiles a template. A finished unit checks its calls at once. -/
def compile (text : String) (file : Option String) : UnitStep Template := do
  let u ← get
  let t ← add ⟨text, file.getD u.file⟩
  if u.finished.isSome then emit (u.checkEvents t)
  return t

/-- Checks all calls and closes the unit. -/
def finish : UnitStep FinishedUnit := do
  let u ← get
  match u.finished with
  | some f => return f
  | none =>
    let diagnostics := u.diagnostics ++ u.templates.flatMap u.warnings
    let f : FinishedUnit := ⟨u.name, u.definitions, diagnostics⟩
    set { u with diagnostics, finished := some f }
    emit (u.templates.flatMap u.checkEvents ++
      [.finalized u.name u.definitions.length diagnostics.length])
    return f

end TemplateUnit

/-- All units, by their numbers. -/
abbrev Library := Assoc Nat TemplateUnit

/-- Finds components through the units as they are. -/
def Library.resolver (library : Library) : Resolver := fun unit target =>
  (unit.bind (Assoc.get? library)).bind (·.resolve target)

/-- The warnings known about a template that a unit keeps. -/
def Library.warnings (library : Library) (unit : Option Nat) (t : Template) : List Diagnostic :=
  match unit.bind (Assoc.get? library) with
  | some u => u.knownWarnings t
  | none => []

end LiveTemplate
