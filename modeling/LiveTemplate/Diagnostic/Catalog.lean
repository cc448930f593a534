import LiveTemplate.Diagnostic

/-!
The catalog of diagnostic codes: for each its category, weight and the stages that raise it. It is
the one place that says how severe a finding is.
-/

namespace LiveTemplate

set_option autoImplicit false

/-- The axis by which findings are grouped. -/
inductive Category where
  | templateSyntax | expression | componentDefinition | componentCall | runtime
deriving DecidableEq, Repr, Inhabited

/-- What happens when a finding is ignored: nothing can go on, the output is likely wrong, or
nothing. -/
inductive Impact where
  | blocking | degraded | informational
deriving DecidableEq, Repr, Inhabited

/-- Whether a code may still be raised. -/
inductive Status where
  | canonical | proposed | deprecated
  /-- A status that the catalog has no rule for. -/
  | other (text : String)
deriving DecidableEq, Repr, Inhabited

/-- What the catalog holds about a code. -/
structure CatalogEntry where
  category : Category
  status : Status
  defaultSeverity : Severity
  impact : Impact
  stages : List Stage
  description : String
  /-- Names of the facts that always come along, when any are listed. -/
  required : Option (List String)
  /-- Names of the facts that may come along, when any are listed. -/
  optional : Option (List String)
deriving Inhabited

/-- The codes of this library. -/
inductive Code where
  | unterminatedTag
  | unterminatedComment
  | unterminatedExpression
  | unterminatedMarker
  | invalidCharacterInName
  | mismatchedClosingTag
  | unexpectedClosingTag
  | unclosedTag
  | unclosedBlock
  | unexpectedBlock
  | invalidTag
  | slotOutsideComponent
  | reservedSlotName
  | invalidLet
  | duplicateLet
  | letWithoutContent
  | unsupportedAttribute
  | invalidFor
  | duplicateFor
  | unsupportedMarker
  | invalidExpression
  | duplicateAttrDefinition
  | duplicateSlotDefinition
  | invalidAttrDefinition
  | invalidSlotDefinition
  | missingRequiredAttr
  | undefinedAttr
  | globalAttrProvided
  | attrTypeMismatch
  | missingRequiredSlot
  | missingRequiredSlotAttr
  | undefinedSlotAttr
  | undefinedSlot
  | undefinedComponent
  | evaluationFailed
  | unknownComponent
  | slotWithoutContent
  | misplacedRenderSlot
  | patternMismatch
  | notIterable
  | invalidAttributes
deriving DecidableEq, Repr, Inhabited

namespace Category

def text : Category → String
  | templateSyntax => "template-syntax"
  | expression => "expression"
  | componentDefinition => "component-definition"
  | componentCall => "component-call"
  | runtime => "runtime"

end Category

namespace Impact

def text : Impact → String
  | blocking => "blocking"
  | degraded => "degraded"
  | informational => "informational"

end Impact

namespace Status

def text : Status → String
  | canonical => "canonical"
  | proposed => "proposed"
  | deprecated => "deprecated"
  | other text => text

def ofText : String → Status
  | "canonical" => canonical
  | "proposed" => proposed
  | "deprecated" => deprecated
  | text => other text

theorem text_ofText (s : String) : (ofText s).text = s := by
  unfold ofText
  split <;> rfl

/-- Only canonical and proposed codes are raised. -/
def allowed : Status → Bool
  | canonical | proposed => true
  | _ => false

end Status

namespace CatalogEntry

/-- The entry as plain data. -/
def fields (e : CatalogEntry) : List (String × Datum) :=
  let words (ws : List String) : Datum := .list (ws.map .text)
  let data := (e.required.map fun ws => ("required", words ws)).toList ++
    (e.optional.map fun ws => ("optional", words ws)).toList
  [("category", .text e.category.text), ("status", .text e.status.text),
    ("defaultSeverity", .text e.defaultSeverity.text), ("impact", .text e.impact.text),
    ("stages", words (e.stages.map Stage.text)), ("description", .text e.description)] ++
    if data.isEmpty then [] else [("data", .fields data)]

/-- An entry for a syntax error. -/
def syntactic (stages : List Stage) (description : String)
    (required : Option (List String)) : CatalogEntry :=
  ⟨.templateSyntax, .canonical, .error, .blocking, stages, description, required, none⟩

/-- An entry for a doubtful declaration. -/
def declared (description : String) (required : List String) : CatalogEntry :=
  ⟨.componentDefinition, .canonical, .warning, .degraded, [.verify], description,
    some required, none⟩

/-- An entry for a doubtful call. -/
def called (description : String) (required : List String) : CatalogEntry :=
  ⟨.componentCall, .canonical, .warning, .degraded, [.verify], description, some required, none⟩

/-- An entry for a failure while rendering. -/
def rendering (description : String) : CatalogEntry :=
  ⟨.runtime, .canonical, .error, .blocking, [.render], description, none, none⟩

end CatalogEntry

namespace Code

def text : Code → String
  | unterminatedTag => "tessera/unterminated-tag"
  | unterminatedComment => "tessera/unterminated-comment"
  | unterminatedExpression => "tessera/unterminated-expression"
  | unterminatedMarker => "tessera/unterminated-marker"
  | invalidCharacterInName => "tessera/invalid-character-in-name"
  | mismatchedClosingTag => "tessera/mismatched-closing-tag"
  | unexpectedClosingTag => "tessera/unexpected-closing-tag"
  | unclosedTag => "tessera/unclosed-tag"
  | unclosedBlock => "tessera/unclosed-block"
  | unexpectedBlock => "tessera/unexpected-block"
  | invalidTag => "tessera/invalid-tag"
  | slotOutsideComponent => "tessera/slot-outside-component"
  | reservedSlotName => "tessera/reserved-slot-name"
  | invalidLet => "tessera/invalid-let"
  | duplicateLet => "tessera/duplicate-let"
  | letWithoutContent => "tessera/let-without-content"
  | unsupportedAttribute => "tessera/unsupported-attribute"
  | invalidFor => "tessera/invalid-for"
  | duplicateFor => "tessera/duplicate-for"
  | unsupportedMarker => "tessera/unsupported-marker"
  | invalidExpression => "tessera/invalid-expression"
  | duplicateAttrDefinition => "tessera/duplicate-attr-definition"
  | duplicateSlotDefinition => "tessera/duplicate-slot-definition"
  | invalidAttrDefinition => "tessera/invalid-attr-definition"
  | invalidSlotDefinition => "tessera/invalid-slot-definition"
  | missingRequiredAttr => "tessera/missing-required-attr"
  | undefinedAttr => "tessera/undefined-attr"
  | globalAttrProvided => "tessera/global-attr-provided"
  | attrTypeMismatch => "tessera/attr-type-mismatch"
  | missingRequiredSlot => "tessera/missing-required-slot"
  | missingRequiredSlotAttr => "tessera/missing-required-slot-attr"
  | undefinedSlotAttr => "tessera/undefined-slot-attr"
  | undefinedSlot => "tessera/undefined-slot"
  | undefinedComponent => "tessera/undefined-component"
  | evaluationFailed => "tessera/evaluation-failed"
  | unknownComponent => "tessera/unknown-component"
  | slotWithoutContent => "tessera/slot-without-content"
  | misplacedRenderSlot => "tessera/misplaced-render-slot"
  | patternMismatch => "tessera/pattern-mismatch"
  | notIterable => "tessera/not-iterable"
  | invalidAttributes => "tessera/invalid-attributes"

/-- Every code, in the order of the catalog. -/
def all : List Code :=
  [.unterminatedTag, .unterminatedComment, .unterminatedExpression, .unterminatedMarker,
   .invalidCharacterInName, .mismatchedClosingTag, .unexpectedClosingTag, .unclosedTag,
   .unclosedBlock, .unexpectedBlock, .invalidTag, .slotOutsideComponent, .reservedSlotName,
   .invalidLet, .duplicateLet, .letWithoutContent, .unsupportedAttribute, .invalidFor,
   .duplicateFor, .unsupportedMarker, .invalidExpression, .duplicateAttrDefinition,
   .duplicateSlotDefinition, .invalidAttrDefinition, .invalidSlotDefinition,
   .missingRequiredAttr, .undefinedAttr, .globalAttrProvided, .attrTypeMismatch,
   .missingRequiredSlot, .missingRequiredSlotAttr, .undefinedSlotAttr, .undefinedSlot,
   .undefinedComponent, .evaluationFailed, .unknownComponent, .slotWithoutContent,
   .misplacedRenderSlot, .patternMismatch, .notIterable, .invalidAttributes]

theorem mem_all (c : Code) : c ∈ all := by cases c <;> decide

/-- What the catalog says about a code. -/
def entry : Code → CatalogEntry
  | unterminatedTag => .syntactic [.lex]
      "Tag, attribute value or closing tag is not closed before the end of the input."
      none
  | unterminatedComment => .syntactic [.lex]
      "HTML comment is still open at the end of the template."
      none
  | unterminatedExpression => .syntactic [.lex]
      "Curly-brace expression is not closed."
      none
  | unterminatedMarker => .syntactic [.lex]
      "Embedded code marker is missing its closing delimiter."
      none
  | invalidCharacterInName => .syntactic [.lex]
      "Tag or attribute name contains a character names cannot hold."
      none
  | mismatchedClosingTag => ⟨.templateSyntax, .canonical, .error, .blocking, [.parse],
      "Closing tag does not match the innermost open tag.",
      some ["expected", "found"], some ["openSpan"]⟩
  | unexpectedClosingTag => .syntactic [.parse]
      "Closing tag with no corresponding open tag."
      (some ["found"])
  | unclosedTag => .syntactic [.parse]
      "Tag is still open at the end of the template or of a block."
      (some ["tag"])
  | unclosedBlock => .syntactic [.parse]
      "Block is still open at the end of the template."
      (some ["block"])
  | unexpectedBlock => .syntactic [.parse]
      "else or end marker without an enclosing block."
      (some ["marker"])
  | invalidTag => .syntactic [.lex, .parse]
      "Tag name is not a valid element, component or slot name."
      none
  | slotOutsideComponent => .syntactic [.parse]
      "Slot entry is not a direct child of a component."
      (some ["slot"])
  | reservedSlotName => .syntactic [.parse]
      "Slot entry uses the reserved inner_block name."
      none
  | invalidLet => .syntactic [.parse]
      ":let is not a binding pattern between braces."
      none
  | duplicateLet => .syntactic [.parse]
      "More than one :let on the same tag."
      none
  | letWithoutContent => .syntactic [.parse]
      ":let on a self-closing component or slot."
      none
  | unsupportedAttribute => .syntactic [.parse]
      "Colon-prefixed attribute the tag does not support."
      (some ["attribute"])
  | invalidFor => .syntactic [.parse]
      ":for is not a generator expression between braces."
      none
  | duplicateFor => .syntactic [.parse]
      "More than one :for on the same tag."
      none
  | unsupportedMarker => .syntactic [.parse]
      "Embedded code other than a block header, else or end."
      none
  | invalidExpression => ⟨.expression, .canonical, .error, .blocking, [.parse],
      "Expression does not parse.",
      none, some ["code"]⟩
  | duplicateAttrDefinition => .declared
      "Attribute declared twice on the same component or slot."
      ["attribute"]
  | duplicateSlotDefinition => .declared
      "Slot declared twice on the same component."
      ["slot"]
  | invalidAttrDefinition => .declared
      ("Attribute declaration is not valid: reserved name, conflicting options, or a default of " ++
        "the wrong type.")
      ["attribute"]
  | invalidSlotDefinition => .declared
      "Slot declaration is not valid, such as attributes on inner_block."
      ["slot"]
  | missingRequiredAttr => .called
      "A required attribute is not passed to the component."
      ["attribute", "component"]
  | undefinedAttr => .called
      "An attribute is passed that the component does not declare."
      ["attribute", "component"]
  | globalAttrProvided => .called
      "The component's global attribute is passed directly."
      ["attribute", "component"]
  | attrTypeMismatch => .called
      "A literal attribute value does not match the declared type."
      ["attribute", "component", "type"]
  | missingRequiredSlot => .called
      "A required slot has no entries in the call."
      ["slot", "component"]
  | missingRequiredSlotAttr => .called
      "A slot entry lacks a required slot attribute."
      ["slot", "attribute", "component"]
  | undefinedSlotAttr => .called
      "A slot entry passes an attribute the slot does not declare."
      ["slot", "attribute", "component"]
  | undefinedSlot => .called
      "A slot entry names a slot the component does not declare."
      ["slot", "component"]
  | undefinedComponent => .called
      "A call names a component the unit cannot resolve."
      ["component"]
  | evaluationFailed => .rendering
      "An expression could not be evaluated against the current bindings."
  | unknownComponent => .rendering
      "A component call names a component that is not defined."
  | slotWithoutContent => .rendering
      "renderSlot was asked to render a slot entry that has no inner content."
  | misplacedRenderSlot => .rendering
      "renderSlot was called somewhere other than the top of an output expression."
  | patternMismatch => .rendering
      "A value does not fit the :let or loop binding pattern."
  | notIterable => .rendering
      "A loop source is not iterable."
  | invalidAttributes => .rendering
      "An attribute spread did not evaluate to a record."

/-- The code spelled by a text. -/
def ofText? (s : String) : Option Code := all.find? fun c => c.text == s

end Code

/-- What an entry must tell before its code can be raised. -/
structure CatalogRule where
  status : Status
  defaultSeverity : Severity
deriving DecidableEq, Repr, Inhabited

/-- Rules by code text. -/
abbrev Catalog := List (String × CatalogRule)

/-- The catalog of this library. -/
def Catalog.standard : Catalog :=
  Code.all.map fun c => (c.text, ⟨c.entry.status, c.entry.defaultSeverity⟩)

/-- Why a diagnostic cannot be raised. -/
inductive EmitError where
  | unknownCode (code : String)
  | retiredCode (code : String) (status : Status)
deriving DecidableEq, Repr, Inhabited

def EmitError.message : EmitError → String
  | unknownCode code => "Diagnostic code '" ++ code ++ "' is not in the catalog."
  | retiredCode code status =>
    "Diagnostic code '" ++ code ++ "' is " ++ status.text ++ " and cannot be emitted."

/-- What the caller tells about a finding. -/
structure Finding where
  message : String
  span : Option Span
  severity : Option Severity
  related : Option Datum
  data : Option Datum
deriving Inhabited

/-- Raises a diagnostic by the rules of a catalog. Names that every table answers to have no status
there. What tells nothing is left out. -/
def Catalog.emit (catalog : Catalog) (stage : Stage) (source : Source) (code : String)
    (finding : Finding) : Except EmitError Diagnostic :=
  match catalog.lookup code with
  | none =>
    if code ∈ sharedNames then .error (.retiredCode code (.other "undefined"))
    else .error (.unknownCode code)
  | some rule =>
    if rule.status.allowed then
      .ok (.locate source code finding.message stage
        (finding.severity.getD rule.defaultSeverity) finding.span
        (finding.related.filter Datum.tells) (finding.data.filter Datum.tells))
    else .error (.retiredCode code rule.status)

/-- Raises one of this library's codes with its default severity. -/
def Code.report (code : Code) (stage : Stage) (source : Source) (message : String)
    (span : Option Span) (data : List (String × Datum)) : Diagnostic :=
  .locate source code.text message stage code.entry.defaultSeverity span none
    (some (.fields data))

end LiveTemplate
