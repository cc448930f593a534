import LiveTemplate.Decimal.Radix
import LiveTemplate.Text.Case
import LiveTemplate.Text.Cut
import LiveTemplate.Time
import LiveTemplate.Value.Text

/-!
What the methods of values do. A method is called on a receiver of any kind: the methods of texts
take it as a text, and those of lists take it as a row of elements.
-/

namespace LiveTemplate

set_option autoImplicit false

namespace Value

/-- An offset from either end, within a length. -/
def relativeIndex (x : Float) (length : Nat) : Nat :=
  match Number.toInt? x with
  | none => if x < 0 then 0 else length
  | some n => if n < 0 then (length + n).toNat else min n.toNat length

/-- An offset from the front, within a length. -/
def frontIndex (x : Float) (length : Nat) : Nat :=
  match Number.toInt? x with
  | none => if x < 0 then 0 else length
  | some n => min n.toNat length

/-- An argument that may be left out, as an offset. -/
def indexArg (call : Call) (index : Float → Nat → Nat) (arg : Value) (length default : Nat) :
    Eval Nat :=
  match arg with
  | undefined => return default
  | v => return index (← v.toNumber call) length

/-- The number that is the first position found, or minus one. -/
def position : Option Nat → Value
  | some n => number (Float.ofNat n)
  | none => number (-1)

/-- The longest text there can be. -/
def longestText : Nat := 536870888

/-- A text as a value. -/
def ofChars (cs : List Char) : Value := text (String.ofList cs)

end Value

namespace Conversion

/-- Calls a conversion. Most of them take values of their own kind alone. -/
def call (call : Call) (c : Conversion) (self : Value) : Eval Value :=
  let kindText : Value := .text ("[object " ++ self.kindName ++ "]")
  match c, self with
  | .kindText, _ => return kindText
  | .itself, v => if v.isAbsent then throw .badOperand else return v
  | .listText, v => do
    if v.isAbsent then throw .badOperand
    let join ← v.member "join"
    if join.isFunction then call join v [] else return kindText
  | .textItself, .text s => return .text s
  | .numberItself, .number x => return .number x
  | .flagText, .flag b => return .text (if b then "true" else "false")
  | .flagItself, .flag b => return .flag b
  | .dateText, .date _ time => return .text ((time.map Time.text).getD "Invalid Date")
  | .dateNumber, .date _ time => return .number ((time.map Float.ofInt).getD (0.0 / 0.0))
  | .dateInterchange, .date _ time =>
    return (time.map fun ms => Value.text (Time.isoText ms)).getD .null
  | .markupText, v => if v.isAbsent then throw .badOperand else v.member "html"
  | .functionText, v => if v.isFunction then return .text "function" else throw .badOperand
  | _, _ => throw .badOperand

end Conversion

namespace TextMethod

open Value (indexArg relativeIndex frontIndex position longestText ofChars)

/-- The pieces of a text that is split by a separator, as many as a limit allows. -/
def splitBy (call : Call) (cs : List Char) (separator limit : Value) : Eval Value := do
  let limit ← match limit with
    | .undefined => pure 4294967295
    | v => do
      let x ← v.toNumber call
      pure ((Number.truncate? x).getD 0 % 4294967296).toNat
  let part ← separator.toText call
  let pieces :=
    match separator with
    | .undefined => [cs]
    | _ => Text.splitOn part.toList cs
  Eval.newList ((pieces.take limit).map ofChars)

/-- A text with the first occurrence of a part replaced, by a text or by what a function of the
part, its position and the whole text gives. -/
def replacePart (call : Call) (cs : List Char) (part replacement : Value) : Eval Value := do
  let part := (← part.toText call).toList
  let template ← if replacement.isFunction then pure "" else replacement.toText call
  match Text.cut? part cs with
  | none => return ofChars cs
  | some (before, after) =>
    let middle ←
      if replacement.isFunction then do
        let place := Value.number (Float.ofNat (Text.width before))
        let v ← call replacement .undefined [ofChars part, place, ofChars cs]
        pure (← v.toText call).toList
      else pure (Text.replacement before part after template.toList)
    return ofChars (before ++ middle ++ after)

/-- A text filled up from the front. -/
def fillFront (call : Call) (cs : List Char) (length filler : Value) : Eval Value := do
  let x ← length.toNumber call
  let isLonger : Bool :=
    match Number.toInt? x with
    | some n => (Text.width cs : Int) < n
    | none => 0 < x
  if !isLonger then return ofChars cs
  let filler ← match filler with
    | .undefined => pure " "
    | v => v.toText call
  if filler.isEmpty then return ofChars cs
  match Number.toInt? x with
  | some n =>
    if n.toNat < longestText then return ofChars (Text.padFront n.toNat filler.toList cs)
    else throw .outOfRange
  | none => throw .outOfRange

/-- Calls a method of texts. -/
def call (call : Call) (m : TextMethod) (self : Value) (args : List Value) : Eval Value := do
  if self.isAbsent then throw .badOperand
  let s ← self.toText call
  let cs := s.toList
  let length := Text.length s
  let first := argument args 0
  let second := argument args 1
  match m with
  | .toUpperCase => return ofChars (Text.upperCase cs)
  | .toLowerCase => return ofChars (Text.lowerCase cs)
  | .trim => return ofChars (Text.trim cs)
  | .slice =>
    let start ← indexArg call relativeIndex first length 0
    let stop ← indexArg call relativeIndex second length length
    return ofChars (Text.slice start stop cs)
  | .includes =>
    let part ← first.toText call
    let start ← indexArg call frontIndex second length 0
    return .flag (Text.find? part.toList start cs).isSome
  | .startsWith =>
    let part ← first.toText call
    let start ← indexArg call frontIndex second length 0
    return .flag (Text.standsAt part.toList start cs)
  | .endsWith =>
    let part ← first.toText call
    let stop ← indexArg call frontIndex second length length
    return .flag (Text.endsAt part.toList stop cs)
  | .indexOf =>
    let part ← first.toText call
    let start ← indexArg call frontIndex second length 0
    return position (Text.find? part.toList start cs)
  | .split => splitBy call cs first second
  | .charAt =>
    match Number.toInt? (← first.toNumber call) with
    | some (.ofNat i) => return ofChars (Text.slice i (i + 1) cs)
    | _ => return .text ""
  | .repeat =>
    match Number.toInt? (← first.toNumber call) with
    | some (.ofNat n) =>
      if cs = [] then return .text ""
      else if n * length < longestText then return ofChars (List.replicate n cs).flatten
      else throw .outOfRange
    | _ => throw .outOfRange
  | .concat =>
    let texts ← args.mapM (Value.toText call)
    return .text (String.join (s :: texts))
  | .replace => replacePart call cs first second
  | .padStart => fillFront call cs first second

end TextMethod

namespace NumberMethod

/-- The text of a number in some base. -/
def textIn (x : Float) (base : Nat) : String :=
  if base = 10 ∨ x.isNaN ∨ x.isInf ∨ x == 0 then Number.text x
  else if x < 0 then "-" ++ Decimal.inBase base (-x)
  else Decimal.inBase base x

/-- Calls a method of numbers. -/
def call (call : Call) (m : NumberMethod) (self : Value) (args : List Value) : Eval Value := do
  let .number x := self | throw .badOperand
  match m, argument args 0 with
  | .toFixed, places =>
    match Number.toInt? (← places.toNumber call) with
    | some (.ofNat n) =>
      if n ≤ 100 then return .text (Number.fixedText x n) else throw .outOfRange
    | _ => throw .outOfRange
  | .toString, .undefined => return .text (Number.text x)
  | .toString, base =>
    match Number.toInt? (← base.toNumber call) with
    | some (.ofNat n) =>
      if 2 ≤ n ∧ n ≤ 36 then return .text (textIn x n) else throw .outOfRange
    | _ => throw .outOfRange

end NumberMethod

namespace Value

/-- Lists inside a list are opened, down to a depth. -/
def flattenItems : Nat → List Value → List Value
  | 0, items => items
  | depth + 1, items => items.flatMap fun item =>
    match item with
    | .list _ inner => flattenItems depth inner
    | v => [v]

/-- The first position, from an offset on, whose item passes a test. -/
def findFrom {α : Type} (test : α → Bool) (start : Nat) (items : List α) : Option Nat :=
  ((items.drop start).findIdx? test).map (start + ·)

/-- The longest row of elements that is walked. -/
def longestRow : Nat := 1000000

/-- The elements of a value, as many as its length tells; a value that is no list may lack some of
them. -/
def elements (call : Call) (v : Value) : Eval (List (Option Value)) := do
  match v with
  | undefined | null => throw .badOperand
  | list _ items => return items.map some
  | v =>
    let length ← (← v.member "length").toNumber call
    match Number.toInt? length with
    | some n =>
      if n.toNat ≤ longestRow then
        return (List.range n.toNat).map fun i => v.lookup? (toString i)
      else throw .outOfRange
    | none => if length < 0 then return [] else throw .outOfRange

/-- The elements that are there, with their positions. -/
def present (elements : List (Option Value)) : List (Value × Nat) :=
  elements.zipIdx.filterMap fun (e, i) => e.map fun v => (v, i)

/-- The items of a list that has an element at each place. -/
def filled (elements : List (Option Value)) : List Value := elements.map (·.getD undefined)

end Value

namespace ListMethod

open Value (indexArg relativeIndex position findFrom present filled)

/-- Whether a method calls back a function. -/
def callsBack : ListMethod → Bool
  | map | filter | find | some | every | reduce => true
  | _ => false

/-- Folds elements from the first to the last. -/
def fold (call : Call) (f self : Value) (start : Option Value) (items : List (Value × Nat)) :
    Eval Value :=
  let step (total : Value) (item : Value × Nat) : Eval Value :=
    call f .undefined [total, item.1, .number (Float.ofNat item.2), self]
  match start, items with
  | .some v, all => all.foldlM step v
  | .none, item :: rest => rest.foldlM step item.1
  | .none, [] => throw .badOperand

/-- Calls a method of lists; functions that are passed to it are called back with an element, its
position and the receiver. -/
def call (call : Call) (m : ListMethod) (self : Value) (args : List Value) : Eval Value := do
  let elements ← self.elements call
  let first := argument args 0
  let second := argument args 1
  let length := elements.length
  if m.callsBack && !first.isFunction then throw .badOperand
  let back (item : Value × Nat) : Eval Value :=
    call first second [item.1, .number (Float.ofNat item.2), self]
  let test (item : Value × Nat) : Eval Bool := Value.truthy <$> back item
  match m with
  | .map =>
    let made ← elements.zipIdx.mapM fun (e, i) =>
      match e with
      | .some v => back (v, i)
      | .none => return .undefined
    Eval.newList made
  | .filter =>
    let kept ← (present elements).filterM test
    Eval.newList (kept.map Prod.fst)
  | .find =>
    let found ← (filled elements).zipIdx.findM? test
    return (found.map Prod.fst).getD .undefined
  | .some => return .flag (← (present elements).anyM test)
  | .every => return .flag (← (present elements).allM test)
  | .reduce => fold call first self args[1]? (present elements)
  | .slice =>
    let start ← indexArg call relativeIndex first length 0
    let stop ← indexArg call relativeIndex second length length
    Eval.newList ((filled elements).drop start |>.take (stop - start))
  | .concat =>
    Eval.newList ((self :: args).flatMap fun v =>
      match v with
      | .list _ items => items
      | v => [v])
  | .indexOf =>
    if length = 0 then return position none
    let start ← indexArg call relativeIndex second length 0
    return position (findFrom (fun e => e.any (Value.strictEq first)) start elements)
  | .includes =>
    if length = 0 then return .flag false
    let start ← indexArg call relativeIndex second length 0
    return .flag (findFrom (Value.sameMember first) start (filled elements)).isSome
  | .join =>
    let separator ← match first with
      | .undefined => pure ","
      | v => v.toText call
    let texts ← Value.itemTexts call (filled elements)
    return .text (String.intercalate separator texts)
  | .flat =>
    let depth ← match first with
      | .undefined => pure 1
      | v => do
        let x ← v.toNumber call
        pure (match Number.toInt? x with
          | .some n => n.toNat
          | .none => if x < 0 then 0 else Value.longestRow)
    Eval.newList (Value.flattenItems depth ((present elements).map Prod.fst))

end ListMethod

end LiveTemplate
