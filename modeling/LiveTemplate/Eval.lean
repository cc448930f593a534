import LiveTemplate.Expr.Functions
import LiveTemplate.Value.Methods

/-!
Evaluation of expressions and binding of patterns. Evaluation follows the expression; calls of
functions go through a parameter, which is tied to a depth of calls at the end.
-/

namespace LiveTemplate

set_option autoImplicit false

/-- Field names that templates never read. -/
def blockedFields : List String := [parentName, "constructor", "prototype"]

namespace Value

/-- Reads a field for an expression. -/
def read (v : Value) (name : String) (span : Span) : Eval Value :=
  if v.isAbsent then Eval.fail (.absentRead name v.plainText) span
  else if name ∈ blockedFields then Eval.fail (.blockedRead name) span
  else v.member name

/-- The field name a key stands for. -/
def fieldName (key : Value) (span : Span) : Eval String :=
  match key with
  | text s => return s
  | number x => return Number.text x
  | v => Eval.fail (.badKey v.describe) span

/-- A pair as a new list. -/
def newPair (a b : Value) : Eval Value := Eval.newList [a, b]

/-- Whether a value can be walked: lists, maps and sets can, and records with one of them among
their parents. -/
def isWalkable (v : Value) : Bool :=
  match v.origin with
  | list _ _ | map _ _ | set _ _ => true
  | _ => false

/-- The items of a value that can be walked: those of lists and sets, the entries of maps as pairs,
and the elements of records that pass for lists. -/
def walk (call : Call) (v : Value) : Eval (List Value) := do
  match v with
  | list _ items | set _ items => return items
  | map _ entries => entries.mapM fun e => newPair e.1 e.2
  | v =>
    match v.origin with
    | list _ _ => return filled (← v.elements call)
    | _ => throw .badOperand

/-- The items a loop walks over. Absent values have none, and plain records give their fields. -/
def items (call : Call) (v : Value) (span : Span) : Eval (List Value) :=
  if v.isAbsent then return []
  else if v.isWalkable then v.walk call
  else match v.fields? with
    | some fields => fields.mapM fun f => newPair (text f.1) f.2
    | none => Eval.fail (.notIterable v.describe) span

/-- The markup that a value holds, if it is markup. -/
def markup? (v : Value) : Option String :=
  match v.origin with
  | html _ _ => (v.lookup? "html").map plainText
  | _ => none

/-- Marks a text as markup. -/
def raw (call : Call) (v : Value) : Eval Value := do
  if v.markup?.isSome then return v
  let s ← if v.isAbsent then pure "" else v.toText call
  let id ← freshId
  return html id s

end Value

/-- What a component or slot entry carries beside its attributes. -/
def slotKeys : List String := ["__slot__", innerBlock]

/-- The attributes among the assigns of a component or slot entry, less those that a test excludes.
-/
def attributesOf (excluded : String → Eval Bool) (assigns : Record Value) : Eval Bindings := do
  let kept ← assigns.filterM fun e => do
    if e.1 ∈ slotKeys then return false else return !(← excluded e.1)
  return ({} : Bindings).assignAll kept

/-- Whether a list, or whatever else can tell what it includes, includes a name. -/
def Value.tells (call : Call) (v : Value) (name : String) : Eval Bool := do
  if v.isAbsent then throw .badOperand
  let f ← v.member "includes"
  if f.isFunction then return (← call f v [.text name]).truthy else throw .badOperand

/-- The helper that picks the attributes of its argument, less those it is told to leave out. -/
def assignsToAttributes (call : Call) (args : List Value) : Eval Value := do
  let assigns := argument args 0
  if assigns.isAbsent then throw .badOperand
  let excluded (name : String) : Eval Bool :=
    match argument args 1 with
    | .undefined => return false
    | names => names.tells call name
  let made ← attributesOf excluded assigns.entries
  return made.record (← freshId)

/-- Binding of names. The names bound so far outlive a failure. -/
abbrev Bind := ExceptT EvalError (StateT Layer Fresh)

/-- Runs an evaluation while names are being bound. -/
def Bind.ofEval {α : Type} (x : Eval α) : Bind α := ExceptT.mk (liftM x.run)

/-- Binds a name. -/
def Bind.set (name : String) (v : Value) : Bind Unit :=
  modify fun layer => { layer with names := Assoc.set layer.names name v }

/-- The value of a link that may have met an absent value in an optional chain. -/
def settle (x : Eval (Option Value)) : Eval Value := (·.getD .undefined) <$> x

/-- How messages name what is called. -/
def Expr.calleeName : Expr → String
  | .name n _ => n
  | .member target n _ _ => calleeName target ++ "." ++ n
  | _ => "expression"

/-- Whether a value is to be called: an optional call of an absent one is not, and what is no
function cannot be. -/
def callable (f : Value) (optional : Bool) (callee : Expr) (span : Span) : Eval Bool :=
  if optional && f.isAbsent then return false
  else match f with
    | .helper .renderSlot => Eval.fail .misplacedRenderSlot span
    | f =>
      if f.isFunction then return true else Eval.fail (.notCallable callee.calleeName) span

/-- The operators in front of one value. -/
def UnaryOp.apply (call : Call) (op : UnaryOp) (v : Value) : Eval Value :=
  match op with
  | not => return .flag !v.truthy
  | negate => return .number (-(← v.toNumber call))
  | plus => return .number (← v.toNumber call)
  | typeof => return .text v.typeName

/-- An operator on the numbers of two values. -/
def arithmetic (call : Call) (f : Float → Float → Float) (a b : Value) : Eval Value := do
  let x ← a.toNumber call
  let y ← b.toNumber call
  return .number (f x y)

/-- A test of the difference of two values. -/
def comparison (call : Call) (f : Float → Bool) (a b : Value) : Eval Value := do
  return .flag (f (← Value.difference call a b))

/-- Sums numbers, and joins texts when either value is one. -/
def addition (call : Call) (a b : Value) : Eval Value := do
  match a, b with
  | .text s, b => return .text (s ++ (← b.toText call))
  | a, .text t => return .text ((← a.toText call) ++ t)
  | a, b => arithmetic call (· + ·) a b

/-- The operators that evaluate both sides. -/
def BinaryOp.apply (call : Call) (op : BinaryOp) (a b : Value) : Eval Value :=
  match op with
  | strictEq => return .flag (Value.strictEq a b)
  | strictNe => return .flag !(Value.strictEq a b)
  | looseEq => return .flag (← Value.looseEq call a b)
  | looseNe => return .flag !(← Value.looseEq call a b)
  | less => comparison call (· < 0) a b
  | lessEq => comparison call (· ≤ 0) a b
  | greater => comparison call (0 < ·) a b
  | greaterEq => comparison call (0 ≤ ·) a b
  | add => addition call a b
  | sub => arithmetic call (· - ·) a b
  | mul => arithmetic call (· * ·) a b
  | div => arithmetic call (· / ·) a b
  | rem => arithmetic call Number.rem a b
  | coalesce => return if a.isAbsent then b else a
  | or => return if a.truthy then a else b
  | and => return if a.truthy then b else a

/-- Whether the left side alone decides the result. -/
def BinaryOp.decided (op : BinaryOp) (a : Value) : Bool :=
  match op with
  | coalesce => !a.isAbsent
  | or => a.truthy
  | and => !a.truthy
  | _ => false

mutual

/-- Evaluates an expression as a link of a chain; none when an optional link was absent, which
ends the chain. -/
def Expr.link (call : Call) (scope : Scope) : Expr → Eval (Option Value)
  | .literal v _ => return some (.ofLiteral v)
  | .template head parts _ => do
    let texts ← Expr.partTexts call scope parts
    return some (.text (String.join (head :: texts)))
  | .name n span =>
    match scope.lookup n with
    | some v => return some v
    | none => Eval.fail (.undefinedName n) span
  | .member target n optional span => do
    match ← Expr.link call scope target with
    | none => return none
    | some v =>
      if optional && v.isAbsent then return none
      else some <$> v.read n span
  | .keyed target key optional span => do
    match ← Expr.link call scope target with
    | none => return none
    | some v =>
      if optional && v.isAbsent then return none
      else
        let k ← settle (Expr.link call scope key)
        let n ← k.fieldName key.span
        some <$> v.read n span
  | .call (.member target n chained place) args optional span => do
    match ← Expr.link call scope target with
    | none => return none
    | some v =>
      if chained && v.isAbsent then return none
      else
        let f ← v.read n place
        if ← callable f optional (.member target n chained place) span then
          let values ← Expr.values call scope args
          some <$> call f v values
        else return none
  | .call (.keyed target key chained place) args optional span => do
    match ← Expr.link call scope target with
    | none => return none
    | some v =>
      if chained && v.isAbsent then return none
      else
        let k ← settle (Expr.link call scope key)
        let n ← k.fieldName key.span
        let f ← v.read n place
        if ← callable f optional (.keyed target key chained place) span then
          let values ← Expr.values call scope args
          some <$> call f v values
        else return none
  | .call callee args optional span => do
    match ← Expr.link call scope callee with
    | none => return none
    | some f =>
      if ← callable f optional callee span then
        let values ← Expr.values call scope args
        some <$> call f .undefined values
      else return none
  | .unary op e _ => do
    let v ← settle (Expr.link call scope e)
    some <$> op.apply call v
  | .binary op l r _ => do
    let a ← settle (Expr.link call scope l)
    if op.decided a then return some a
    else
      let b ← settle (Expr.link call scope r)
      some <$> op.apply call a b
  | .conditional c y n _ => do
    let v ← settle (Expr.link call scope c)
    if v.truthy then some <$> settle (Expr.link call scope y)
    else some <$> settle (Expr.link call scope n)
  | .array es _ => do
    let items ← Expr.values call scope es
    some <$> Eval.newList items
  | .object fields _ => do
    let fields ← Expr.fieldValues call scope fields
    let made := ({} : Bindings).assignAll fields
    return some (made.record (← freshId))
  | .arrow params body _ => do
    let id ← freshId
    return some (.closure id params body scope)

/-- The values of a list of expressions. -/
def Expr.values (call : Call) (scope : Scope) : List Expr → Eval (List Value)
  | [] => return []
  | e :: rest => do
    let v ← settle (Expr.link call scope e)
    let vs ← Expr.values call scope rest
    return v :: vs

/-- The texts of the expressions in a template text, each with the piece after it. -/
def Expr.partTexts (call : Call) (scope : Scope) : List (Expr × String) → Eval (List String)
  | [] => return []
  | (e, piece) :: rest => do
    let v ← settle (Expr.link call scope e)
    let text ← v.toText call
    let texts ← Expr.partTexts call scope rest
    return text :: piece :: texts

/-- The values of the fields of an object. -/
def Expr.fieldValues (call : Call) (scope : Scope) :
    List (String × Expr) → Eval (List (String × Value))
  | [] => return []
  | (name, e) :: rest => do
    let v ← settle (Expr.link call scope e)
    let fields ← Expr.fieldValues call scope rest
    return (name, v) :: fields

/-- Binds the names of a pattern to the parts of a value. Defaults see the names bound before. -/
def Pattern.bind (call : Call) (scope : Scope) : Pattern → Value → Bind Unit
  | .name n _, v => Bind.set n v
  | .fallback target default _, v => do
    match v with
    | .undefined =>
      let inner := scope.extend (← get)
      let v ← Bind.ofEval (settle (Expr.link call inner default))
      Pattern.bind call scope target v
    | v => Pattern.bind call scope target v
  | .array elements span, v =>
    if v.isWalkable then do
      Pattern.bindItems call scope elements (← Bind.ofEval (v.walk call))
    else throw (.failed (.notListPattern v.describe) span)
  | .object properties span, v =>
    if v.isStructured then Pattern.bindFields call scope properties v
    else throw (.failed (.notRecordPattern v.describe) span)

def Pattern.bindItems (call : Call) (scope : Scope) : List (Option Pattern) → List Value → Bind Unit
  | [], _ => return
  | none :: rest, items => Pattern.bindItems call scope rest items.tail
  | some p :: rest, items => do
    Pattern.bind call scope p (items.headD .undefined)
    Pattern.bindItems call scope rest items.tail

def Pattern.bindFields (call : Call) (scope : Scope) : List (String × Pattern) → Value → Bind Unit
  | [], _ => return
  | (name, p) :: rest, v => do
    Pattern.bind call scope p (← Bind.ofEval (v.member name))
    Pattern.bindFields call scope rest v

end

/-- Binds parameters to arguments; those not given are undefined. -/
def Pattern.bindAll (call : Call) (scope : Scope) : List Pattern → List Value → Bind Unit
  | [], _ => return
  | p :: rest, args => do
    Pattern.bind call scope p (args.headD .undefined)
    Pattern.bindAll call scope rest args.tail

/-- The layer that names are bound in. It needs an identity only where defaults make functions. -/
def Layer.over (names : Assoc String Value) (isCaptured : Bool) : Fresh Layer := do
  if isCaptured then return ⟨some (← freshId), names⟩ else return ⟨none, names⟩

/-- Runs a binding over names that are bound already. -/
def Bind.names (x : Bind Unit) (isCaptured : Bool) (names : Assoc String Value) :
    Eval (Assoc String Value) :=
  ExceptT.mk do
    let layer ← Layer.over names isCaptured
    let (result, layer) ← StateT.run x.run layer
    return result.map fun _ => layer.finished

namespace Value

/-- Calls a function whose own calls go through a parameter. -/
def callWith (call : Call) : Call
  | closure _ params body scope, _, args => do
    let isCaptured := params.any Pattern.makesFunction
    let names ← (Pattern.bindAll call scope params args).names isCaptured []
    settle (body.link call (Scope.extend scope ⟨none, names⟩))
  | helper .raw, _, args => (argument args 0).raw call
  | helper .assignsToAttributes, _, args => assignsToAttributes call args
  | helper .renderSlot, _, _ => throw (.unplaced .misplacedRenderSlot)
  | method (.text m), self, args => m.call call self args
  | method (.number m), self, args => m.call call self args
  | method (.list m), self, args => m.call call self args
  | method (.conversion c), self, _ => c.call call self
  | method .mapGet, map _ entries, args =>
    return ((entries.find? fun e => sameMember e.1 (argument args 0)).map Prod.snd).getD undefined
  | method .mapHas, map _ entries, args =>
    return flag (entries.any fun e => sameMember e.1 (argument args 0))
  | method .setHas, set _ items, args =>
    return flag (items.any fun v => sameMember v (argument args 0))
  | method .holds, self, args => do
    let name ← (argument args 0).toText call
    if self.isAbsent then throw .badOperand else return flag (self.own? name).isSome
  | _, _, _ => throw .badOperand

/-- Calls a function, with so many calls inside each other at most. -/
def callWithin : Nat → Call
  | 0 => fun _ _ _ => throw .outOfRange
  | depth + 1 => callWith (callWithin depth)

/-- How deep calls may nest. -/
def callDepth : Nat := 2000

/-- Calls a function. -/
def call : Call := callWithin callDepth

end Value

/-- The value of an expression. -/
def Expr.eval (e : Expr) (scope : Scope) : Eval Value := settle (e.link Value.call scope)

/-- Binds a pattern over names that are bound already. -/
def Pattern.bindOver (p : Pattern) (v : Value) (scope : Scope) (names : Assoc String Value) :
    Eval (Assoc String Value) :=
  (p.bind Value.call scope v).names p.makesFunction names

/-- The helpers that every template has. -/
def standardHelpers : Assoc String Value :=
  [("raw", .helper .raw), ("assignsToAttributes", .helper .assignsToAttributes)]

/-- The standard helpers with more of them. Only `renderSlot` cannot be replaced. -/
def helpersWith (extra : Record Value) : Assoc String Value :=
  Assoc.set (Assoc.setAll standardHelpers extra) renderSlotName (.helper .renderSlot)

end LiveTemplate
