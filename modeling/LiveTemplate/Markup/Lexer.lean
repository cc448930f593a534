import LiveTemplate.Markup.Segment
import LiveTemplate.Markup.Token
import LiveTemplate.Text.Blank
import LiveTemplate.Text.Braces

/-!
The lexer of templates. A chunk of text is read from a state and leaves a state: in running text,
inside a comment, or inside the raw text of an element. Reading a template reads the text between
its code markers chunk by chunk.

Readers of parts answer how many characters they take, so that what is read and what is left
always make up the text.
-/

namespace LiveTemplate

set_option autoImplicit false

/-- Where a chunk left off. -/
inductive LexState where
  | text
  | comment (start : Nat)
  | rawText (tag : String)
deriving DecidableEq, Repr, Inhabited

def LexState.name : LexState → String
  | text => "text"
  | comment _ => "comment"
  | rawText _ => "raw-text"

namespace Lexer

/-- Blanks between the parts of a tag. -/
def isTagBlank (c : Char) : Bool :=
  c = ' ' || c = '\n' || c = '\t' || c = '\x0d' || c = '\x0c'

def isTagNameChar (c : Char) : Bool := c.isAlphanum || c = '-' || c = '_' || c = '.' || c = ':'

/-- Characters that no attribute name holds, besides blanks. -/
def nameBreakers : List Char := ['\x22', '\x27', '<', '>', '/', '=', '{', '}']

/-- Characters that no unquoted value holds, besides blanks. -/
def valueBreakers : List Char := ['\x22', '\x27', '<', '>', '=', '\x60']

def isAttributeNameChar (c : Char) : Bool := !isTagBlank c && !nameBreakers.contains c

def isUnquotedChar (c : Char) : Bool := !isTagBlank c && !valueBreakers.contains c

/-- The count of characters of a class at the front. -/
def count (p : Char → Bool) (cs : List Char) : Nat := (cs.takeWhile p).length

/-- The offset after `n` characters of a text that stands at `offset`. -/
def after (offset : Nat) (cs : List Char) (n : Nat) : Nat := offset + Text.width (cs.take n)

/-- Refuses the character at the head of a text. -/
def stray {α : Type} (place : NamePlace) (cs : List Char) (offset : Nat) : Except SyntaxError α :=
  .error ⟨.strayCharacter place (Text.quoteHead cs), ⟨offset, offset + 1⟩⟩

/-- The kind of a tag that begins at `start`, if its name is well formed. -/
def kindOf (name : List Char) (start : Nat) : Except SyntaxError TagKind :=
  let kind := TagKind.ofName (String.ofList name)
  if kind.admits name then .ok kind
  else .error ⟨.badTagName (String.ofList name), ⟨start, start + name.length + 1⟩⟩

/-- Code after an opening brace at `open_`, and the characters it takes with the closing brace. -/
def codeAt (rest : List Char) (open_ stop : Nat) : Except SyntaxError (CodeSlice × Nat) :=
  match Text.closeLength 0 rest with
  | none => .error ⟨.openExpression, ⟨open_, stop⟩⟩
  | some n =>
    let code := rest.take (n - 1)
    .ok (⟨String.ofList code, ⟨open_ + 1, open_ + 1 + Text.width code⟩⟩, n)

/-- What surrounds an attribute: its tag's name and start, and the end of the chunk. -/
structure TagContext where
  tag : String
  start : Nat
  stop : Nat

/-- The value of an attribute after the equals sign and blanks, and the characters it takes. -/
def valueAt (ctx : TagContext) (name : String) (cs : List Char) (offset : Nat) :
    Except SyntaxError (AttributeValue × Nat) :=
  match cs with
  | [] => .error ⟨.openAttribute ctx.tag, ⟨ctx.start, ctx.stop⟩⟩
  | '{' :: rest => do
    let (slice, n) ← codeAt rest offset ctx.stop
    .ok (.code slice, n + 1)
  | c :: rest =>
    if c = '\x22' ∨ c = '\x27' then
      match Text.cut? [c] rest with
      | some (value, _) => .ok (.literal (String.ofList value) (some c), value.length + 2)
      | none => .error ⟨.openValue c name, ⟨offset, ctx.stop⟩⟩
    else
      let n := count isUnquotedChar cs
      if n = 0 then stray .attributeValue cs offset
      else .ok (.literal (String.ofList (cs.take n)) none, n)

/-- Whether an attribute name may be followed by this text. -/
def endsName : List Char → Bool
  | [] => true
  | '/' :: rest => rest.head? = some '>'
  | c :: _ => isTagBlank c || c = '=' || c = '>'

/-- A named attribute that begins with `c`, and the characters it takes after `c`. -/
def attributeAt (ctx : TagContext) (c : Char) (rest : List Char) (offset : Nat) :
    Except SyntaxError (TagAttribute × Nat) :=
  let cs := c :: rest
  let n := count isAttributeNameChar cs
  let name := String.ofList (cs.take n)
  if n = 0 then stray .attributeName cs offset
  else if !endsName (cs.drop n) then stray .attributeName (cs.drop n) (after offset cs n)
  else
    let k := n + count isTagBlank (cs.drop n)
    match cs.drop k with
    | '=' :: _ => do
      let v := k + 1 + count isTagBlank (cs.drop (k + 1))
      let (value, m) ← valueAt ctx name (cs.drop v) (after offset cs v)
      .ok (.named name value ⟨offset, after offset cs (v + m)⟩, v + m - 1)
    | _ => .ok (.named name .none ⟨offset, after offset cs n⟩, n - 1)

/-- The attributes of a tag up to its end: whether it closes itself, and the characters taken. -/
def attributesAt (ctx : TagContext) (cs : List Char) (offset : Nat) :
    Except SyntaxError (List TagAttribute × Bool × Nat) :=
  let b := count isTagBlank cs
  let here := after offset cs b
  match h : cs.drop b with
  | [] => .error ⟨.openTag ctx.tag, ⟨ctx.start, ctx.stop⟩⟩
  | '>' :: _ => .ok ([], false, b + 1)
  | '/' :: '>' :: _ => .ok ([], true, b + 2)
  | '{' :: rest => do
    let (slice, n) ← codeAt rest here ctx.stop
    let next := after (here + 1) rest n
    let (more, selfClosing, m) ← attributesAt ctx (rest.drop n) next
    .ok (.spread slice ⟨here, next⟩ :: more, selfClosing, b + 1 + n + m)
  | c :: rest => do
    let (attr, n) ← attributeAt ctx c rest here
    let (more, selfClosing, m) ← attributesAt ctx (rest.drop n) (after here (c :: rest) (n + 1))
    .ok (attr :: more, selfClosing, b + 1 + n + m)
termination_by cs.length
decreasing_by
  all_goals
    have := congrArg List.length h
    simp only [List.length_drop, List.length_cons] at this ⊢
    omega

/-- An opening tag after its `<`, and the characters it takes. -/
def openTagAt (rest : List Char) (start stop : Nat) : Except SyntaxError (OpenTag × Nat) := do
  let n := count isTagNameChar rest
  let name := rest.take n
  let kind ← kindOf name start
  let here := after (start + 1) rest n
  let endsTagName : Bool := match rest.drop n with
    | [] => true
    | c :: _ => isTagBlank c || c = '>' || c = '/'
  if endsTagName then
    let (attributes, selfClosing, m) ←
      attributesAt ⟨String.ofList name, start, stop⟩ (rest.drop n) here
    let span : Span := ⟨start, after (start + 1) rest (n + m)⟩
    .ok (⟨String.ofList name, kind, attributes, selfClosing, span⟩, n + m)
  else stray .tagName (rest.drop n) here

/-- A closing tag after its `</`, and the characters it takes. -/
def closeTagAt (rest : List Char) (start stop : Nat) : Except SyntaxError (Token × Nat) :=
  let n := count isTagNameChar rest
  let name := rest.take n
  let k := n + count isTagBlank (rest.drop n)
  if n = 0 then stray .tagName rest (start + 2)
  else
    match rest.drop k with
    | [] => .error ⟨.openCloseTag (String.ofList name), ⟨start, stop⟩⟩
    | '>' :: _ => do
      let kind ← kindOf name start
      .ok (.closeTag (String.ofList name) kind ⟨start, after (start + 2) rest (k + 1)⟩, k + 1)
    | other => stray .tagName other (after (start + 2) rest k)

/-- A text token, unless it is empty. `pending` holds its characters in reverse. -/
def flush (pending : List Char) (start stop : Nat) : List Token :=
  if pending = [] then [] else [.text (String.ofList pending.reverse) ⟨start, stop⟩]

/-- Whether a text begins with the closing tag of a raw-text element, in any case and followed by
a blank or the end of the tag. -/
def closesRaw (tag : String) (cs : List Char) : Bool :=
  let mark := '<' :: '/' :: tag.toList
  (cs.take mark.length).map Char.toLower == mark.map Char.toLower &&
    match cs.drop mark.length with
    | c :: _ => c = '>' || Text.isBlank c
    | [] => false

/-- The count of characters before the closing tag of a raw-text element. -/
def rawLength (tag : String) : List Char → Option Nat
  | [] => none
  | c :: cs => if closesRaw tag (c :: cs) then some 0 else (rawLength tag cs).map (· + 1)

/-- Raw text at an offset: its text token, the closing tag, and the characters taken by both; none
when the chunk ends first. -/
def rawTextAt (tag : String) (cs : List Char) (offset stop : Nat) :
    Except SyntaxError (Option (List Token × Nat)) :=
  match rawLength tag cs with
  | none => .ok none
  | some n => do
    let start := after offset cs n
    let (close, m) ← closeTagAt (cs.drop (n + 2)) start stop
    .ok (some (flush (cs.take n).reverse offset start ++ [close], n + 2 + m))

/-- Whether an opening tag is followed by raw text, and under which name. -/
def rawTextOf (tag : OpenTag) : Option String :=
  let name := tag.name.toLower
  if tag.kind = .element ∧ !tag.selfClosing ∧ rawTextElements.contains name then some name
  else none

/-- Whether a text begins with a tag name. -/
def startsName : List Char → Bool
  | c :: _ => c.isAlpha || c = '.' || c = ':'
  | [] => false

/-- Running text that stands at `offset` and ends at `stop`; the text since `start` is pending. -/
def text (stop : Nat) (cs : List Char) (offset : Nat) (pending : List Char) (start : Nat) :
    Except SyntaxError (List Token × LexState) :=
  match cs with
  | [] => .ok (flush pending start offset, .text)
  | '<' :: '!' :: '-' :: '-' :: rest =>
    match _h : Text.cut? ['-', '-', '>'] rest with
    | none => .ok (flush pending start offset ++ flush cs.reverse offset stop, .comment offset)
    | some (inside, tail) => do
      let next := offset + 4 + Text.width inside + 3
      let comment := ['<', '!', '-', '-'] ++ inside ++ ['-', '-', '>']
      let (more, state) ← text stop tail next [] next
      .ok (flush pending start offset ++ flush comment.reverse offset next ++ more, state)
  | '<' :: '!' :: rest =>
    match _h : Text.cut? ['>'] rest with
    | none => .error ⟨.openDeclaration, ⟨offset, stop⟩⟩
    | some (inside, tail) =>
      text stop tail (offset + 2 + Text.width inside + 1)
        ('>' :: inside.reverse ++ '!' :: '<' :: pending) start
  | '<' :: '/' :: rest => do
    let (close, n) ← closeTagAt rest offset stop
    let next := after (offset + 2) rest n
    let (more, state) ← text stop (rest.drop n) next [] next
    .ok (flush pending start offset ++ close :: more, state)
  | '<' :: rest =>
    if startsName rest then do
      let (tag, n) ← openTagAt rest offset stop
      let next := after (offset + 1) rest n
      let tail := rest.drop n
      let before := flush pending start offset ++ [.openTag tag]
      match rawTextOf tag with
      | none => do
        let (more, state) ← text stop tail next [] next
        .ok (before ++ more, state)
      | some name =>
        match ← rawTextAt name tail next stop with
        | none => .ok (before ++ flush tail.reverse next stop, .rawText name)
        | some (tokens, m) => do
          let resume := after next tail m
          let (more, state) ← text stop (tail.drop m) resume [] resume
          .ok (before ++ tokens ++ more, state)
    else text stop rest (offset + 1) ('<' :: pending) start
  | '{' :: rest => do
    let (slice, n) ← codeAt rest offset stop
    let next := after (offset + 1) rest n
    let (more, state) ← text stop (rest.drop n) next [] next
    .ok (flush pending start offset ++ .code .body slice ⟨offset, next⟩ :: more, state)
  | c :: rest => text stop rest (offset + Text.units c) (c :: pending) start
termination_by cs.length
decreasing_by
  · have := Text.length_of_cut? _h; simp only [List.length_cons]; omega
  · have := Text.length_of_cut? _h; simp only [List.length_cons]; omega
  all_goals simp only [List.length_cons, List.length_drop]; omega

end Lexer

/-- Reads a chunk that stands at an offset of its template, from the state the chunk before it
left. -/
def Lexer.chunk (cs : List Char) (state : LexState) (offset : Nat) :
    Except SyntaxError (List Token × LexState) :=
  let stop := offset + Text.width cs
  match state with
  | .text => text stop cs offset [] offset
  | .comment start =>
    match Text.cut? ['-', '-', '>'] cs with
    | none => .ok (flush cs.reverse offset stop, .comment start)
    | some (inside, tail) => do
      let next := offset + Text.width inside + 3
      let (more, state) ← text stop tail next [] next
      .ok (flush (inside ++ ['-', '-', '>']).reverse offset next ++ more, state)
  | .rawText tag => do
    match ← rawTextAt tag cs offset stop with
    | none => .ok (flush cs.reverse offset stop, .rawText tag)
    | some (tokens, n) => do
      let next := after offset cs n
      let (more, state) ← text stop (cs.drop n) next [] next
      .ok (tokens ++ more, state)

/-- A template must not end inside a comment. -/
def Lexer.finish (state : LexState) (source : Source) : Except SyntaxError Unit :=
  match state with
  | .comment start => .error ⟨.openComment, ⟨start, source.width⟩⟩
  | _ => .ok ()

/-- The token of a code marker. -/
def Token.ofMarker (kind : MarkerKind) (code : List Char) (codeStart start stop : Nat) : Token :=
  let mark := match kind with
    | .output => CodeMark.output
    | .control => CodeMark.control
  .code mark ⟨String.ofList code, ⟨codeStart, codeStart + Text.width code⟩⟩ ⟨start, stop⟩

/-- Reads segments in turn. Code markers are honoured wherever they stand. -/
def Lexer.segments : List Segment → LexState → Except SyntaxError (List Token × LexState)
  | [], state => .ok ([], state)
  | .text content start :: rest, state => do
    let (tokens, state) ← chunk content state start
    let (more, state) ← segments rest state
    .ok (tokens ++ more, state)
  | .marker kind code codeStart start stop :: rest, state => do
    let (more, state) ← segments rest state
    .ok (.ofMarker kind code codeStart start stop :: more, state)

/-- The tokens of a template. -/
def Token.ofSource (source : Source) : Except SyntaxError (List Token) := do
  let segments ← Segment.ofSource source
  let (tokens, state) ← Lexer.segments segments .text
  Lexer.finish state source
  .ok tokens

end LiveTemplate
