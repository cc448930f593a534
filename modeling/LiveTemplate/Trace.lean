import LiveTemplate.Identity
import LiveTemplate.Value

/-!
Events: what the stages report about their work. They tell what was read, which plans a render
skipped, which components it mounted and what ended up in a patch, and change nothing.
-/

namespace LiveTemplate

set_option autoImplicit false

/-- One channel for each stage. -/
inductive Channel where
  | lex | parse | build | verify | render | diff | session
deriving DecidableEq, Repr, Inhabited

def Channel.text : Channel → String
  | lex => "lex"
  | parse => "parse"
  | build => "build"
  | verify => "verify"
  | render => "render"
  | diff => "diff"
  | session => "session"

def Channel.all : List Channel := [.lex, .parse, .build, .verify, .render, .diff, .session]

def Channel.ofText? (s : String) : Option Channel := Channel.all.find? fun c => c.text = s

/-- Names that changed; none when nothing is known about changes. -/
abbrev ChangedNames := Option (List String)

inductive Event where
  /-- A code marker stands inside a comment or raw text. -/
  | markerInRaw (state : String) (start : Nat)
  | tokens (file : String) (count : Nat)
  | fragment (file : String) (nodes : Nat) (root : Bool)
  | template (file fingerprint : String) (statics plans : Nat)
  | definition (unit name : String) (attrs slots : Nat)
  | call (target file : String) (warnings : Nat)
  | finalized (unit : String) (components warnings : Nat)
  | warning (code message : String)
  | skip (position kind : String)
  | component (cid : Nat) (key : String) (changed : ChangedNames)
  | mount (cid : Nat) (key : String) (fresh : Bool)
  | comprehension (position : String) (items : Nat) (reused : Bool)
  | keyed (removes moves inserts updates : Nat)
  | snapshot (root : Bool) (components removed : Nat)
  | rendered (label : String) (first : Bool) (changed : ChangedNames) (components : Nat)
deriving DecidableEq, Repr, Inhabited

namespace Event

def channel : Event → Channel
  | markerInRaw _ _ | tokens _ _ => .lex
  | fragment _ _ _ => .parse
  | template _ _ _ _ => .build
  | definition _ _ _ _ | call _ _ _ | finalized _ _ _ | warning _ _ => .verify
  | skip _ _ | component _ _ _ | mount _ _ _ | comprehension _ _ _ => .render
  | keyed _ _ _ _ | snapshot _ _ _ => .diff
  | rendered _ _ _ _ => .session

/-- What happened, within the channel. -/
def point : Event → String
  | markerInRaw _ _ => "marker.in-raw"
  | tokens _ _ => "tokens"
  | fragment _ _ _ => "fragment"
  | template _ _ _ _ => "template"
  | definition _ _ _ _ => "component"
  | call _ _ _ => "call"
  | finalized _ _ _ => "finalize"
  | warning _ _ => "warning"
  | skip _ _ => "plan.skip"
  | component _ _ _ => "component"
  | mount _ _ _ => "component.mount"
  | comprehension _ _ _ => "comprehension"
  | keyed _ _ _ _ => "keyed"
  | snapshot _ _ _ => "snapshot"
  | rendered _ _ _ _ => "render"

def count (n : Nat) : Value := .number (Float.ofNat n)

/-- Changed names, or a star for all. -/
def names : ChangedNames → Value
  | none => .text "*"
  | some names => .list 0 (names.map .text)

/-- The details of an event. -/
def fields : Event → Record Value
  | markerInRaw state start => [("state", .text state), ("start", count start)]
  | tokens file n => [("file", .text file), ("count", count n)]
  | fragment file nodes root =>
    [("file", .text file), ("nodes", count nodes), ("root", .flag root)]
  | template file fingerprint statics plans =>
    [("file", .text file), ("fingerprint", .text fingerprint), ("statics", count statics),
      ("plans", count plans)]
  | definition unit name attrs slots =>
    [("unit", .text unit), ("name", .text name), ("attrs", count attrs), ("slots", count slots)]
  | call target file warnings =>
    [("component", .text target), ("file", .text file), ("warnings", count warnings)]
  | finalized unit components warnings =>
    [("unit", .text unit), ("components", count components), ("warnings", count warnings)]
  | warning code message => [("code", .text code), ("message", .text message)]
  | skip position kind => [("position", .text position), ("kind", .text kind)]
  | component cid key changed =>
    [("cid", count cid), ("key", .text key), ("changed", names changed)]
  | mount cid key fresh => [("cid", count cid), ("key", .text key), ("fresh", .flag fresh)]
  | comprehension position items reused =>
    [("position", .text position), ("items", count items), ("reused", .flag reused)]
  | keyed removes moves inserts updates =>
    [("removes", count removes), ("moves", count moves), ("inserts", count inserts),
      ("updates", count updates)]
  | snapshot root components removed =>
    [("root", .flag root), ("components", count components), ("removed", count removed)]
  | rendered label first changed components =>
    [("label", .text label), ("first", .flag first), ("changed", names changed),
      ("components", count components)]

end Event

/-- What stays of work that may have failed: the identities it took and the events it reported. -/
structure Journal where
  nextId : Identity := 0
  /-- The newest event first. -/
  log : List Event := []

/-- Work that is reported in a journal. -/
abbrev Traced := StateM Journal

namespace Traced

def emit (event : Event) : Traced Unit := modify fun j => { j with log := event :: j.log }

def emitAll (events : List Event) : Traced Unit :=
  modify fun j => { j with log := events.reverse ++ j.log }

def ofFresh {α : Type} (x : Fresh α) : Traced α := fun j =>
  let (a, nextId) := x.run j.nextId
  (a, { j with nextId := nextId })

end Traced

end LiveTemplate
