import LiveTemplate.Span
import LiveTemplate.Text.Cut

/-!
Tokens of templates: text, tags with their attributes, and embedded code.
-/

namespace LiveTemplate

set_option autoImplicit false

/-- How a tag name is understood. -/
inductive TagKind where
  | element | void | localComponent | remoteComponent | slot
deriving DecidableEq, Repr, Inhabited

/-- Code as written, with its place in the template. -/
structure CodeSlice where
  text : String
  span : Span
deriving DecidableEq, Repr, Inhabited

inductive AttributeValue where
  /-- A value as written, with its quote character when it has one. -/
  | literal (value : String) (quote : Option Char)
  | code (slice : CodeSlice)
  | none
deriving DecidableEq, Repr, Inhabited

inductive TagAttribute where
  | named (name : String) (value : AttributeValue) (span : Span)
  | spread (slice : CodeSlice) (span : Span)
deriving DecidableEq, Repr, Inhabited

/-- Where code is embedded: between braces, in an output marker or in a control marker. -/
inductive CodeMark where
  | body | output | control
deriving DecidableEq, Repr, Inhabited

def CodeMark.text : CodeMark → String
  | body => "body"
  | output => "output"
  | control => "control"

structure OpenTag where
  name : String
  kind : TagKind
  attributes : List TagAttribute
  selfClosing : Bool
  span : Span
deriving DecidableEq, Repr, Inhabited

inductive Token where
  | text (content : String) (span : Span)
  | openTag (tag : OpenTag)
  | closeTag (name : String) (kind : TagKind) (span : Span)
  | code (mark : CodeMark) (slice : CodeSlice) (span : Span)
deriving DecidableEq, Repr, Inhabited

def Token.span : Token → Span
  | text _ s => s
  | openTag t => t.span
  | closeTag _ _ s => s
  | code _ _ s => s

namespace TagKind

def text : TagKind → String
  | element => "element"
  | void => "void"
  | localComponent => "local-component"
  | remoteComponent => "remote-component"
  | slot => "slot"

def ofText? : String → Option TagKind
  | "element" => some element
  | "void" => some void
  | "local-component" => some localComponent
  | "remote-component" => some remoteComponent
  | "slot" => some slot
  | _ => none

theorem ofText?_text (k : TagKind) : ofText? k.text = some k := by cases k <;> rfl

/-- Whether tags of this kind call a component. -/
def isComponent : TagKind → Bool
  | localComponent | remoteComponent => true
  | _ => false

/-- Elements without content. -/
def voidElements : List String :=
  ["area", "base", "br", "col", "command", "embed", "hr", "img", "input", "keygen", "link", "meta",
    "param", "source", "track", "wbr"]

/-- The lower-case form of a letter that may stand in the name of an element; the Kelvin sign is a
capital K as well. -/
def lower (c : Char) : Char := if c.toNat = 0x212A then 'k' else c.toLower

/-- The kind of a tag name: a point calls a local component, a colon names a slot entry, a capital
calls a component of another unit. -/
def ofName (name : String) : TagKind :=
  match name.toList with
  | '.' :: _ => localComponent
  | ':' :: _ => slot
  | c :: _ =>
    if c.isUpper then remoteComponent
    else if voidElements.contains (String.ofList (name.toList.map lower)) then void else element
  | [] => element

def isWordChar (c : Char) : Bool := c.isAlphanum || c = '_'

/-- A word that begins with a lower-case letter or an underscore. -/
def isLowerWord : List Char → Bool
  | c :: cs => (c.isLower || c = '_') && cs.all isWordChar
  | [] => false

/-- A word that begins with a capital. -/
def isUpperWord : List Char → Bool
  | c :: cs => c.isUpper && cs.all isWordChar
  | [] => false

/-- Capitalised words, then a word in lower case, joined by points. -/
def isRemoteName (cs : List Char) : Bool :=
  match (Text.splitAt '.' cs).reverse with
  | last :: first :: more => isLowerWord last && (first :: more).all isUpperWord
  | _ => false

/-- Whether a name is well formed for its kind. -/
def admits (kind : TagKind) (cs : List Char) : Bool :=
  match kind, cs with
  | remoteComponent, cs => isRemoteName cs
  | localComponent, _ :: word => isLowerWord word
  | slot, _ :: word => isLowerWord word
  | _, c :: more =>
    c.isAlpha && more.all fun d => d.isAlphanum || d = '_' || d = '.' || d = ':' || d = '-'
  | _, [] => false

end TagKind

/-- Elements whose content is raw text up to their closing tag. -/
def rawTextElements : List String := ["script", "style"]

end LiveTemplate
