import LiveTemplate.Eval
import LiveTemplate.Snapshot.Arena
import LiveTemplate.Trace

/-!
The setting of a render: what it may fail with and what it keeps track of. What was tracked before
a failure stays.
-/

namespace LiveTemplate

set_option autoImplicit false

inductive RenderError where
  /-- A fault of evaluation that is not placed in a template. -/
  | eval (e : EvalError)
  /-- A fault of evaluation where its expression stands. -/
  | placed (cause : EvalCause) (file : String) (position : Position)
  | tree (e : TreeError)
deriving DecidableEq, Repr, Inhabited

def RenderError.message : RenderError → String
  | eval e => e.message
  | placed cause _ _ => cause.message
  | tree e => e.message

structure RenderState where
  mounts : Mounts
  journal : Journal

abbrev Render := ExceptT RenderError (StateM RenderState)

namespace Render

def ofTraced {α : Type} (x : Traced α) : Render α :=
  ExceptT.lift fun s =>
    let (a, journal) := x.run s.journal
    (a, { s with journal := journal })

def emit (event : Event) : Render Unit := ofTraced (Traced.emit event)

def ofEval {α : Type} (x : Eval α) : Render α := do
  let result ← ofTraced (Traced.ofFresh x.run)
  ExceptT.mk (pure (result.mapError .eval))

def ofMounting {α : Type} (x : Mounting α) : Render α :=
  ExceptT.mk fun s =>
    let (result, mounts) := x.run.run s.mounts
    (result.mapError .tree, { s with mounts := mounts })

def ofTree {α : Type} (x : Except TreeError α) : Render α := ExceptT.mk (pure (x.mapError .tree))

def newId : Render Identity := ofEval freshId

def newPart : Render Identity := ofMounting Mounts.newPart

/-- A dynamic that no render has handed out before. -/
def newDynamic (content : Content) : Render Dynamic := do
  let id ← newPart
  return ⟨id, content⟩

/-- Places the faults of evaluation in a source. -/
def placing {α : Type} (source : Source) (x : Render α) : Render α :=
  tryCatch x fun
    | .eval (.failed cause span) => throw (.placed cause source.file (source.positionAt span.start))
    | e => throw e

/-- The value of an expression in a frame. -/
def value (frame : Frame) (e : Expr) : Render Value := ofEval (e.eval frame.scope)

end Render

end LiveTemplate
