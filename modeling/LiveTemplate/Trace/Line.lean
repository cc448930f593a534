import LiveTemplate.Eval
import LiveTemplate.Text.Blank
import LiveTemplate.Text.Case
import LiveTemplate.Text.Cut
import LiveTemplate.Trace
import LiveTemplate.Value.Json

/-!
Printed events. A watch says which channels are on and how a line is written. Long texts are cut
and nested records are only hinted at, unless lines are interchange text.
-/

namespace LiveTemplate

set_option autoImplicit false

inductive LineFormat where
  /-- A label with the details after it. -/
  | pretty
  /-- One interchange text for each line. -/
  | json
deriving DecidableEq, Repr, Inhabited

def LineFormat.ofText? : String → Option LineFormat
  | "pretty" => some pretty
  | "json" => some json
  | _ => none

/-- The names of the channels that are on; a star stands for all of them. -/
structure Watch where
  format : LineFormat := .pretty
  names : List String := []
deriving DecidableEq, Repr, Inhabited

/-- A channel name as it is compared: without blanks around it, in small letters. -/
def Watch.plainName (name : String) : String :=
  String.ofList (Text.lowerCase (Text.trim name.toList))

/-- Channels named in a list. -/
def Watch.ofNames (format : LineFormat) (names : List String) : Watch :=
  ⟨format, names.map Watch.plainName⟩

/-- Channels named by a setting: nothing, all of them, or names between commas. -/
def Watch.ofSetting (format : LineFormat) (setting : String) : Watch :=
  let text := String.ofList (Text.trim setting.toList)
  if text ∈ ["", "0", "false"] then ⟨format, []⟩
  else if text ∈ ["1", "true"] then ⟨format, ["*"]⟩
  else
    let parts := (Text.splitAt ',' text.toList).map fun part => Watch.plainName (String.ofList part)
    ⟨format, parts.filter (· ≠ "")⟩

/-- Channels named in a list if there is one, and by a setting if not. -/
def Watch.create (format : LineFormat) (names : Option (List String)) (setting : String) : Watch :=
  match names with
  | some names => ofNames format names
  | none => ofSetting format setting

namespace Watch

/-- Whether any channel is on. -/
def isOn (w : Watch) : Bool := !w.names.isEmpty

def sees (w : Watch) (channel : String) : Bool := "*" ∈ w.names || channel ∈ w.names

mutual

/-- A detail as a line shows it. -/
def detail : Value → String
  | .text s => Text.quoteBrief s
  | .list _ items =>
    if items.length ≤ 4 then "[" ++ String.intercalate "," (details items) ++ "]"
    else "[" ++ toString items.length ++ " items]"
  | v => if v.isStructured then "\x7b...\x7d" else v.plainText

def details : List Value → List String
  | [] => []
  | v :: rest => detail v :: details rest

end

/-- The line of an event. -/
def line (w : Watch) (channel point : String) (data : Option (Record Value)) : Eval String :=
  match w.format with
  | .json =>
    let fields := ("channel", .text channel) :: ("point", .text point) ::
      (data.map fun fields => ("data", Value.record 0 .plain fields)).toList
    (Value.record 0 .plain fields).json Value.call
  | .pretty =>
    let label := "[" ++ channel ++ "." ++ point ++ "]"
    let fields := (data.getD []).map fun f => f.1 ++ "=" ++ detail f.2
    return String.intercalate " " (label :: fields)

/-- The line of an event whose channel is on. -/
def eventLine? (w : Watch) (event : Event) : Eval (Option String) := do
  if w.sees event.channel.text then
    return some (← w.line event.channel.text event.point (some event.fields))
  else return none

end Watch

end LiveTemplate
