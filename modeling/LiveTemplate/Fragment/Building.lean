import LiveTemplate.Fingerprint
import LiveTemplate.Fragment
import LiveTemplate.Html.Escape
import LiveTemplate.Source

/-!
Building fragments from a parse tree. Each node gives pieces of static text and holes in the order
of the page; a fragment joins the texts between two holes into one static.
-/

namespace LiveTemplate

set_option autoImplicit false

/-- A piece of a fragment. -/
inductive Piece where
  | text (content : String)
  | hole (plan : Plan)

namespace Piece

/-- The static texts around the holes. -/
def statics : List Piece → List String
  | [] => [""]
  | text content :: rest =>
    match statics rest with
    | [] => [content]
    | next :: more => (content ++ next) :: more
  | hole _ :: rest => "" :: statics rest

def plan? : Piece → Option Plan
  | text _ => none
  | hole plan => some plan

def plans (pieces : List Piece) : List Plan := pieces.filterMap plan?

/-- There is one static more than there are holes. -/
theorem length_statics (pieces : List Piece) :
    (statics pieces).length = (plans pieces).length + 1 := by
  induction pieces with
  | nil => rfl
  | cons p rest ih =>
    cases p with
    | text content =>
      have h : plans (text content :: rest) = plans rest := rfl
      rw [h, statics]
      split
      · next he => rw [he] at ih; simp at ih
      · next he => rw [he] at ih; simpa using ih
    | hole plan =>
      have h : plans (hole plan :: rest) = plan :: plans rest := rfl
      simp [statics, h, ih]

end Piece

/-- Drops blanks from the end of the last text. -/
def trimLast : List String → List String
  | [] => []
  | [last] => [String.ofList (Text.trimBack last.toList)]
  | s :: rest => s :: trimLast rest

/-- Drops blanks from both ends of a list of texts. -/
def trimEnds : List String → List String
  | [] => []
  | first :: rest => trimLast (String.ofList (Text.trimFront first.toList) :: rest)

namespace Fragment

/-- What a fragment is built from: the text of its template and the names of helpers. -/
structure Context where
  source : Source
  helpers : List String

def Context.scope (ctx : Context) (locals : List String) : NameScope := ⟨locals, ctx.helpers⟩

def ofPieces (source : Source) (pieces : List Piece) (root trimmed : Bool) : Fragment :=
  let texts := Piece.statics pieces
  let statics := if trimmed then trimEnds texts else texts
  let plans := Piece.plans pieces
  { statics := statics
    plans := plans
    fingerprint := Fingerprint.of statics (plans.map fun p => (p.shape, source.slice p.span))
    root := root
    reads := Reads.mergeAll (plans.map Plan.reads) }

/-- The slot and argument of a `renderSlot` that makes up a whole expression. -/
def slotCall? (locals : List String) : Expr → Option (Expr × Option Expr)
  | .call (.name name _) (slot :: args) _ _ =>
    if name = renderSlotName ∧ renderSlotName ∉ locals then some (slot, args.head?) else none
  | _ => none

def codePlan (ctx : Context) (locals : List String) (value : Expr) (span : Span) : Plan :=
  let scope := ctx.scope locals
  match slotCall? locals value with
  | some (slot, argument) =>
    .slot slot argument (Expr.listReads scope (slot :: argument.toList)) span
  | none => .body value (value.reads scope) span

/-- The value of an attribute that is written as a text with expressions in it: the literal parts
stay static. -/
def templatePieces (ctx : Context) (locals : List String) (name : String) :
    List (Expr × String) → List Piece
  | [] => []
  | (value, text) :: rest =>
    .hole (.attribute name .value value (value.reads (ctx.scope locals)) value.span) ::
      .text (Html.escape text) :: templatePieces ctx locals name rest

def quotedText (name : String) (pieces : List Piece) : List Piece :=
  .text (" " ++ name ++ "=\"") :: pieces ++ [.text "\""]

def attributePieces (ctx : Context) (locals : List String) : ElementAttribute → List Piece
  | .literal name value none _ => [.text (" " ++ name ++ "=" ++ value)]
  | .literal name value (some q) _ =>
    [.text (" " ++ name ++ "=" ++ q.toString ++ value ++ q.toString)]
  | .flag name _ => [.text (" " ++ name)]
  | .spread value span => [.hole (.spread value (value.reads (ctx.scope locals)) span)]
  | .code name (.template head parts _) _ =>
    quotedText name (.text (Html.escape head) :: templatePieces ctx locals name parts)
  | .code name value span =>
    let plan (form : AttributeForm) : Piece :=
      .hole (.attribute name form value (value.reads (ctx.scope locals)) span)
    if name = "class" then quotedText name [plan .classes]
    else if name = "style" then quotedText name [plan .styles]
    else [plan .whole]

def argument (ctx : Context) (locals : List String) : ComponentAttribute → Argument
  | .named name value _ _ span => .named name value (value.reads (ctx.scope locals)) span
  | .spread value span => .spread value (value.reads (ctx.scope locals)) span

/-- The reads of a slot plan: its attributes, its body without what the pattern binds, and the
pattern's defaults. -/
def slotReads (scope : NameScope) (pattern : Option Pattern) (attributes : List Argument)
    (body : Option Fragment) : Reads :=
  let names := (pattern.map Pattern.boundNames).getD []
  Reads.mergeAll (attributes.map Argument.reads ++
    (body.map fun b => b.reads.without names).toList ++
    (pattern.map fun p => p.reads scope).toList)

mutual

/-- The pieces of a node where some names are local. -/
def pieces (ctx : Context) (locals : List String) : Node → List Piece
  | .text content _ => [.text content]
  | .code value span => [.hole (codePlan ctx locals value span)]
  | .element name void attributes children _ =>
    .text ("<" ++ name) :: attributes.flatMap (attributePieces ctx locals) ++
      .text ">" ::
        if void then [] else allPieces ctx locals children ++ [.text ("</" ++ name ++ ">")]
  | .loop header body span =>
    let names := header.pattern.boundNames
    let fragment :=
      ofPieces ctx.source (allPieces ctx (locals ++ names) body) (Node.isRoot body) false
    let scope := ctx.scope locals
    let reads := Reads.mergeAll [header.items.reads scope, header.pattern.reads scope,
      fragment.reads.without names]
    [.hole (.comprehension header fragment reads span)]
  | .conditional branches span =>
    let plans := branchPlans ctx locals branches
    let conditions := Expr.listReads (ctx.scope locals) (plans.filterMap BranchPlan.condition)
    let reads := Reads.mergeAll (conditions :: plans.map fun b => b.body.reads)
    [.hole (.conditional plans reads span)]
  | .component call => [.hole (.component (componentPlan ctx locals call))]

def allPieces (ctx : Context) (locals : List String) : List Node → List Piece
  | [] => []
  | node :: rest => pieces ctx locals node ++ allPieces ctx locals rest

def branchPlans (ctx : Context) (locals : List String) : List Branch → List BranchPlan
  | [] => []
  | ⟨condition, body, _⟩ :: rest =>
    ⟨condition, ofPieces ctx.source (allPieces ctx locals body) (Node.isRoot body) false⟩ ::
      branchPlans ctx locals rest

def componentPlan (ctx : Context) (locals : List String) : ComponentNode → ComponentPlan
  | ⟨tag, target, pattern, attributes, slots, body, call, span⟩ =>
    let arguments := attributes.map (argument ctx locals)
    let names := (pattern.map Pattern.boundNames).getD []
    let inner :=
      match body with
      | none => []
      | some nodes =>
        if nodes.all Node.isBlank then []
        else
          let fragment :=
            ofPieces ctx.source (allPieces ctx (locals ++ names) nodes) (Node.isRoot nodes) false
          let reads := slotReads (ctx.scope locals) pattern [] (some fragment)
          [⟨innerBlock, pattern, [], some fragment, reads, span⟩]
    let slots := inner ++ slotPlans ctx locals slots
    let reads := Reads.mergeAll (arguments.map Argument.reads ++ slots.map SlotPlan.reads)
    ⟨tag, target, arguments, slots, call, reads, span⟩

def slotPlans (ctx : Context) (locals : List String) : List SlotEntry → List SlotPlan
  | [] => []
  | ⟨name, pattern, attributes, body, span⟩ :: rest =>
    let arguments := attributes.map (argument ctx locals)
    let names := (pattern.map Pattern.boundNames).getD []
    let fragment :=
      match body with
      | none => none
      | some nodes => some
        (ofPieces ctx.source (allPieces ctx (locals ++ names) nodes) (Node.isRoot nodes) false)
    ⟨name, pattern, arguments, fragment,
      slotReads (ctx.scope locals) pattern arguments fragment, span⟩ :: slotPlans ctx locals rest

end

/-- The fragment of a whole template. -/
def ofTree (tree : NodeTree) (source : Source) (helpers : List String) (trimmed : Bool) :
    Fragment :=
  ofPieces source (allPieces ⟨source, helpers⟩ [] tree.children) tree.root trimmed

end Fragment

end LiveTemplate
