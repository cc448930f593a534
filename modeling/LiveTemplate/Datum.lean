import LiveTemplate.Assoc
import LiveTemplate.Span

/-!
Plain data: the facts that diagnostics carry and the form in which patches are sent.
-/

namespace LiveTemplate

set_option autoImplicit false

inductive Datum where
  | none
  | flag (b : Bool)
  | number (n : Int)
  /-- A number that need not be an integer. -/
  | real (x : Float)
  | text (s : String)
  | span (s : Span)
  | list (items : List Datum)
  | fields (items : List (String × Datum))
deriving Inhabited

/-- Whether data is marked as a rendered tree. -/
def Datum.isTree : Datum → Bool
  | .fields items =>
    match Assoc.get? items "kind" with
    | some (.text kind) => kind == "rendered"
    | _ => false
  | _ => false

/-- Whether data tells anything. -/
def Datum.tells : Datum → Bool
  | .none => false
  | .flag b => b
  | .number n => n != 0
  | .real x => !(x == 0)
  | .text s => !s.isEmpty
  | _ => true

end LiveTemplate
