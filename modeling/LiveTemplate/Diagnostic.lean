import LiveTemplate.Datum
import LiveTemplate.Record
import LiveTemplate.Source

/-!
Diagnostics: what is wrong, how bad it is, where in which template, and in which stage it was
noticed.
-/

namespace LiveTemplate

set_option autoImplicit false

inductive Severity where
  | error | warning | info
deriving DecidableEq, Repr, Inhabited

inductive Stage where
  | lex | parse | build | verify | render
deriving DecidableEq, Repr, Inhabited

structure Diagnostic where
  code : String
  message : String
  stage : Stage
  severity : Severity
  file : String
  span : Option Span
  /-- The start of `span` in the source. -/
  position : Option Position
  /-- What is said about other places. -/
  related : Option Datum
  /-- The facts that come along. -/
  data : Option Datum
deriving Inhabited

namespace Severity

def text : Severity → String
  | error => "error"
  | warning => "warning"
  | info => "info"

def ofText? : String → Option Severity
  | "error" => some error
  | "warning" => some warning
  | "info" => some info
  | _ => none

theorem ofText?_text (s : Severity) : ofText? s.text = some s := by cases s <;> rfl

end Severity

namespace Stage

def text : Stage → String
  | lex => "lex"
  | parse => "parse"
  | build => "build"
  | verify => "verify"
  | render => "render"

def ofText? : String → Option Stage
  | "lex" => some lex
  | "parse" => some parse
  | "build" => some build
  | "verify" => some verify
  | "render" => some render
  | _ => none

theorem ofText?_text (s : Stage) : ofText? s.text = some s := by cases s <;> rfl

end Stage

namespace Diagnostic

/-- Places a finding in a source. -/
def locate (source : Source) (code message : String) (stage : Stage) (severity : Severity)
    (span : Option Span) (related data : Option Datum) : Diagnostic where
  code := code
  message := message
  stage := stage
  severity := severity
  file := source.file
  span := span
  position := span.map fun s => source.positionAt s.start
  related := related
  data := data

/-- The diagnostic as plain data. -/
def fields (d : Diagnostic) : List (String × Datum) :=
  let span : Datum := (d.span.map .span).getD .none
  let position := d.position.map fun p => Datum.list [.number p.line, .number p.column]
  [("code", .text d.code), ("message", .text d.message), ("stage", .text d.stage.text),
    ("severity", .text d.severity.text), ("file", .text d.file), ("span", span),
    ("position", position.getD .none), ("data", d.data.getD .none)] ++
    (d.related.map fun r => ("related", r)).toList

/-- The printed form: file, line and column when they are known, then the message. -/
def format (d : Diagnostic) : String :=
  match d.position with
  | some p => d.file ++ ":" ++ toString p.line ++ ":" ++ toString p.column ++ ": " ++ d.message
  | none => d.file ++ ": " ++ d.message

end Diagnostic

end LiveTemplate
