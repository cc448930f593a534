import LiveTemplate.Diagnostic.Catalog
import LiveTemplate.Expr.Fault
import LiveTemplate.Text.Quoted

/-!
Errors that keep a template from being compiled. Each has a cause and a span; its code, text and
facts follow from the cause.
-/

namespace LiveTemplate

set_option autoImplicit false

/-- The name or value in which a character has no place. -/
inductive NamePlace where
  | tagName | attributeName | attributeValue
deriving DecidableEq, Repr, Inhabited

/-- What a tag is still open at the end of. -/
inductive OpenContext where
  | template | block
deriving DecidableEq, Repr, Inhabited

inductive BlockKind where
  | conditional | loop
deriving DecidableEq, Repr, Inhabited

/-- The markers that go on or end a block. -/
inductive BlockMark where
  | otherwise | stop
deriving DecidableEq, Repr, Inhabited

/-- The tags that treat attributes with a colon each in their own way. -/
inductive TagPlace where
  | element | component | slot
deriving DecidableEq, Repr, Inhabited

/-- Where an expression, header or pattern stands. -/
inductive CodePlace where
  | expression | forAttribute | letAttribute
deriving DecidableEq, Repr, Inhabited

inductive SyntaxCause where
  | openMarker
  | openComment
  | openDeclaration
  | openCloseTag (name : String)
  | openTag (name : String)
  | openAttribute (tag : String)
  | openValue (quote : Char) (name : String)
  | openExpression
  | strayCharacter (place : NamePlace) (quoted : String)
  | badTagName (name : String)
  | unclosedTag (name : String) (context : OpenContext) (openSpan : Span)
  | unclosedBlock (kind : BlockKind)
  | badMarker (code : String)
  | elseInLoop
  | elseAfterElse
  | noBlock (mark : BlockMark)
  | reservedSlot
  | slotPlace (name : String)
  | strayCloseTag (name : String)
  | wrongCloseTag (expected found : String) (openLine : Nat) (openSpan closeSpan : Span)
  | secondFor (line : Nat)
  | forWithoutCode
  | badAttribute (name : String) (place : TagPlace)
  | secondLet (line : Nat)
  | letWithoutCode
  | letWithoutContent (place : TagPlace)
  | badCode (place : CodePlace) (fault : ExprFault)
deriving DecidableEq, Repr, Inhabited

structure SyntaxError where
  cause : SyntaxCause
  span : Span
deriving DecidableEq, Repr, Inhabited

def NamePlace.text : NamePlace → String
  | tagName => "tag name"
  | attributeName => "attribute name"
  | attributeValue => "attribute value"

def OpenContext.text : OpenContext → String
  | template => "template"
  | block => "block"

def BlockKind.text : BlockKind → String
  | conditional => "if"
  | loop => "for"

def BlockMark.text : BlockMark → String
  | otherwise => "else"
  | stop => "end"

def TagPlace.text : TagPlace → String
  | element => "tags"
  | component => "component"
  | slot => "slot"

namespace SyntaxCause

def code : SyntaxCause → Code
  | openMarker => .unterminatedMarker
  | openComment => .unterminatedComment
  | openDeclaration | openCloseTag _ | openTag _ | openAttribute _ | openValue _ _ =>
    .unterminatedTag
  | openExpression => .unterminatedExpression
  | strayCharacter _ _ => .invalidCharacterInName
  | badTagName _ => .invalidTag
  | unclosedTag _ _ _ => .unclosedTag
  | unclosedBlock _ => .unclosedBlock
  | badMarker _ => .unsupportedMarker
  | elseInLoop | elseAfterElse | noBlock _ => .unexpectedBlock
  | reservedSlot => .reservedSlotName
  | slotPlace _ => .slotOutsideComponent
  | strayCloseTag _ => .unexpectedClosingTag
  | wrongCloseTag _ _ _ _ _ => .mismatchedClosingTag
  | secondFor _ => .duplicateFor
  | forWithoutCode => .invalidFor
  | badAttribute _ _ => .unsupportedAttribute
  | secondLet _ => .duplicateLet
  | letWithoutCode => .invalidLet
  | letWithoutContent _ => .letWithoutContent
  | badCode .expression _ => .invalidExpression
  | badCode .forAttribute _ => .invalidFor
  | badCode .letAttribute _ => .invalidLet

def message : SyntaxCause → String
  | openMarker => "missing %> for embedded code starting here"
  | openComment => "unexpected end of template inside an HTML comment"
  | openDeclaration => "unterminated <! declaration: expected >"
  | openCloseTag name => "expected closing > for </" ++ name
  | openTag name => "end of template reached inside <" ++ name ++ ": expected > or />"
  | openAttribute tag =>
    "end of template reached inside <" ++ tag ++ ": expected an attribute value"
  | openValue quote name =>
    "missing closing " ++ quote.toString ++ " for the value of attribute \"" ++ name ++ "\""
  | openExpression => "missing closing \x7d for expression"
  | strayCharacter place quoted => "invalid character in " ++ place.text ++ ": " ++ quoted
  | badTagName name => "invalid tag <" ++ name ++ ">"
  | unclosedTag name context _ =>
    "end of " ++ context.text ++ " reached without closing tag for <" ++ name ++ ">"
  | unclosedBlock kind => "end of template reached without <% end %> for " ++ kind.text ++ " block"
  | badMarker code =>
    "unsupported code in <% %>: " ++ Text.quote code ++
      ". Use <%= if %>, <%= for %>, <% else %> or <% end %>"
  | elseInLoop => "<% else %> is only allowed inside an if block"
  | elseAfterElse => "<% else %> after the final else branch"
  | noBlock mark => "unexpected <% " ++ mark.text ++ " %> without an open block"
  | reservedSlot => "the slot name :inner_block is reserved"
  | slotPlace name =>
    "invalid slot entry <" ++ name ++ ">. A slot entry must be a direct child of a component"
  | strayCloseTag name => "missing opening tag for </" ++ name ++ ">"
  | wrongCloseTag expected found line _ _ =>
    "unmatched closing tag. Expected </" ++ expected ++ "> for <" ++ expected ++ "> at line " ++
      toString line ++ ", got: </" ++ found ++ ">"
  | secondFor line =>
    "cannot define multiple \":for\" attributes. Another \":for\" has already been defined at line "
      ++ toString line
  | forWithoutCode => ":for must be a generator expression between \x7b...\x7d"
  | badAttribute name place => "unsupported attribute \"" ++ name ++ "\" in " ++ place.text
  | secondLet line =>
    "cannot define multiple :let attributes. Another :let has already been defined at line " ++
      toString line
  | letWithoutCode => ":let must be a pattern between \x7b...\x7d"
  | letWithoutContent place =>
    "cannot use :let on a " ++ place.text ++ " without inner content"
  | badCode .expression fault => "invalid expression: " ++ fault.message
  | badCode .forAttribute fault =>
    ":for must be a generator expression between \x7b...\x7d: " ++ fault.message
  | badCode .letAttribute fault =>
    ":let must be a pattern between \x7b...\x7d: " ++ fault.message

/-- The facts that come along with a cause. -/
def data : SyntaxCause → Option (List (String × Datum))
  | unclosedTag name _ openSpan => some [("name", .text name), ("openSpan", .span openSpan)]
  | strayCloseTag name => some [("found", .text name)]
  | wrongCloseTag expected found _ openSpan closeSpan =>
    some [("expected", .text expected), ("found", .text found), ("openSpan", .span openSpan),
      ("closeSpan", .span closeSpan)]
  | _ => none

end SyntaxCause

namespace SyntaxError

/-- A syntax error belongs to the lexer when its code may arise there. -/
def stage (e : SyntaxError) : Stage :=
  if e.cause.code.entry.stages.contains .lex then .lex else .parse

/-- The diagnostic of a syntax error in a source. -/
def diagnostic (e : SyntaxError) (source : Source) : Diagnostic :=
  .locate source e.cause.code.text e.cause.message e.stage e.cause.code.entry.defaultSeverity
    (some e.span) none (e.cause.data.map .fields)

def shift (e : SyntaxError) (delta : Int) : SyntaxError := ⟨e.cause, e.span.shift delta⟩

end SyntaxError

end LiveTemplate
