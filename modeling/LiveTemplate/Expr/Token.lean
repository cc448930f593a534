import LiveTemplate.Expr.Fault
import LiveTemplate.Decimal.Reading
import LiveTemplate.Text.Braces
import LiveTemplate.Text.Quoted

/-!
Tokens of expressions. A text is read into a stream that ends either with the end of the text or
with the first fault, so that a fault shows only when a reader comes to it.
-/

namespace LiveTemplate

set_option autoImplicit false

inductive Keyword where
  | true | false | null | undefined | typeof
deriving DecidableEq, Repr, Inhabited

/-- Marks of one to three characters. -/
inductive Punct where
  | openParen | closeParen | openBracket | closeBracket | openBrace | closeBrace
  | dot | questionDot | comma | colon | question | equals | arrow
  | plus | minus | asterisk | slash | percent | exclamation
  | less | lessEq | greater | greaterEq
  | equalsEquals | equalsEqualsEquals | exclamationEquals | exclamationEqualsEquals
  | ampersands | bars | questions
deriving DecidableEq, Repr, Inhabited

inductive Lexeme where
  | ident (name : String)
  | keyword (k : Keyword)
  /-- A string with its escapes read. -/
  | text (value : String)
  | number (value : Float)
  /-- The raw text between two back quotes. -/
  | template (raw : List Char)
  | punct (p : Punct)
deriving Inhabited

structure ExprToken where
  lexeme : Lexeme
  span : Span
deriving Inhabited

namespace Keyword

def text : Keyword → String
  | true => "true"
  | false => "false"
  | null => "null"
  | undefined => "undefined"
  | typeof => "typeof"

def ofText? : String → Option Keyword
  | "true" => some true
  | "false" => some false
  | "null" => some null
  | "undefined" => some undefined
  | "typeof" => some typeof
  | _ => none

end Keyword

namespace Punct

def text : Punct → String
  | openParen => "("
  | closeParen => ")"
  | openBracket => "["
  | closeBracket => "]"
  | openBrace => "\x7b"
  | closeBrace => "\x7d"
  | dot => "."
  | questionDot => "?."
  | comma => ","
  | colon => ":"
  | question => "?"
  | equals => "="
  | arrow => "=>"
  | plus => "+"
  | minus => "-"
  | asterisk => "*"
  | slash => "/"
  | percent => "%"
  | exclamation => "!"
  | less => "<"
  | lessEq => "<="
  | greater => ">"
  | greaterEq => ">="
  | equalsEquals => "=="
  | equalsEqualsEquals => "==="
  | exclamationEquals => "!="
  | exclamationEqualsEquals => "!=="
  | ampersands => "&&"
  | bars => "||"
  | questions => "??"

/-- The longest mark at the front of a text, with the count of characters after its first. A
question mark before a point and a digit stands alone. -/
def read? : List Char → Option (Punct × Nat)
  | '=' :: '=' :: '=' :: _ => some (equalsEqualsEquals, 2)
  | '!' :: '=' :: '=' :: _ => some (exclamationEqualsEquals, 2)
  | '=' :: '=' :: _ => some (equalsEquals, 1)
  | '!' :: '=' :: _ => some (exclamationEquals, 1)
  | '<' :: '=' :: _ => some (lessEq, 1)
  | '>' :: '=' :: _ => some (greaterEq, 1)
  | '&' :: '&' :: _ => some (ampersands, 1)
  | '|' :: '|' :: _ => some (bars, 1)
  | '?' :: '?' :: _ => some (questions, 1)
  | '=' :: '>' :: _ => some (arrow, 1)
  | '?' :: '.' :: c :: _ => if c.isDigit then some (question, 0) else some (questionDot, 1)
  | ['?', '.'] => some (questionDot, 1)
  | '(' :: _ => some (openParen, 0)
  | ')' :: _ => some (closeParen, 0)
  | '[' :: _ => some (openBracket, 0)
  | ']' :: _ => some (closeBracket, 0)
  | '{' :: _ => some (openBrace, 0)
  | '}' :: _ => some (closeBrace, 0)
  | '.' :: _ => some (dot, 0)
  | ',' :: _ => some (comma, 0)
  | ':' :: _ => some (colon, 0)
  | '?' :: _ => some (question, 0)
  | '=' :: _ => some (equals, 0)
  | '+' :: _ => some (plus, 0)
  | '-' :: _ => some (minus, 0)
  | '*' :: _ => some (asterisk, 0)
  | '/' :: _ => some (slash, 0)
  | '%' :: _ => some (percent, 0)
  | '!' :: _ => some (exclamation, 0)
  | '<' :: _ => some (less, 0)
  | '>' :: _ => some (greater, 0)
  | _ => none

end Punct

namespace Lexeme

def isIdentStart (c : Char) : Bool := c.isAlpha || c = '_' || c = '$'

def isIdentPart (c : Char) : Bool := isIdentStart c || c.isDigit

/-- What a backslash makes of the character after it. -/
def unescape : Char → Char
  | 'n' => '\n'
  | 't' => '\t'
  | 'r' => '\x0d'
  | '0' => '\x00'
  | c => c

/-- The rest of a string after its opening quote: its value and how many characters it takes with
the closing quote; none when it stays open. -/
def textBody (quote : Char) : List Char → Option (List Char × Nat)
  | [] => none
  | ['\\'] => none
  | '\\' :: c :: cs => (textBody quote cs).map fun (value, n) => (unescape c :: value, n + 2)
  | c :: cs =>
    if c = quote then some ([], 1)
    else (textBody quote cs).map fun (value, n) => (c :: value, n + 1)

/-- How a template text can fail to end. -/
inductive OpenTemplate where
  /-- No closing back quote. -/
  | text
  /-- A substitution stays open; its brace stands after so many characters. -/
  | substitution (before : Nat)
deriving DecidableEq, Repr

/-- How many characters a template text takes after its opening back quote, with the closing one.
Substitutions are skipped as wholes. -/
def templateLength : List Char → Except OpenTemplate Nat
  | [] => .error .text
  | ['\\'] => .error .text
  | '\\' :: _ :: cs => later 2 (templateLength cs)
  | '$' :: '{' :: cs =>
    match Text.closeLength 0 cs with
    | none => .error (.substitution 1)
    | some n => later (2 + n) (templateLength (cs.drop n))
  | c :: cs => if c = '\x60' then .ok 1 else later 1 (templateLength cs)
termination_by cs => cs.length
where
  later (n : Nat) : Except OpenTemplate Nat → Except OpenTemplate Nat
    | .ok m => .ok (n + m)
    | .error .text => .error .text
    | .error (.substitution m) => .error (.substitution (n + m))

/-- The length of the digits at the front. -/
def digitsLength (cs : List Char) : Nat := (cs.takeWhile Char.isDigit).length

/-- The length of an exponent at the front: a mark, a sign and at least one digit, or nothing. -/
def exponentLength : List Char → Nat
  | e :: cs =>
    if e = 'e' ∨ e = 'E' then
      let signLength := match cs with
        | '+' :: _ | '-' :: _ => 1
        | _ => 0
      let n := digitsLength (cs.drop signLength)
      if n = 0 then 0 else 1 + signLength + n
    else 0
  | [] => 0

/-- The length of a numeric literal at the front. -/
def numberLength (cs : List Char) : Nat :=
  let whole := digitsLength cs
  let fraction := match cs.drop whole with
    | '.' :: rest => 1 + digitsLength rest
    | _ => 0
  whole + fraction + exponentLength (cs.drop (whole + fraction))

/-- A fault found in a text, with its ends in units from the start of the token. -/
structure Fault where
  fault : ExprFault
  start : Nat
  stop : Nat

/-- Reads the token that begins with a nonblank character: the lexeme and how many further
characters it takes. -/
def read (c : Char) (rest : List Char) : Except Fault (Lexeme × Nat) :=
  let toEnd := Text.width (c :: rest)
  if isIdentStart c then
    let tail := rest.takeWhile isIdentPart
    let name := String.ofList (c :: tail)
    match Keyword.ofText? name with
    | some k => .ok (.keyword k, tail.length)
    | none => .ok (.ident name, tail.length)
  else if c.isDigit || (c = '.' && (rest.head?.map Char.isDigit).getD false) then
    let n := numberLength (c :: rest)
    match ((c :: rest).drop n).head?.map isIdentStart with
    | some true => .error ⟨.badNumber, 0, n + 1⟩
    | _ => .ok (.number (Decimal.numberOf (String.ofList ((c :: rest).take n))), n - 1)
  else if c = '\x22' ∨ c = '\x27' then
    match textBody c rest with
    | some (value, n) => .ok (.text (String.ofList value), n)
    | none => .error ⟨.openString, 0, toEnd⟩
  else if c = '\x60' then
    match templateLength rest with
    | .ok n => .ok (.template (rest.take (n - 1)), n)
    | .error .text => .error ⟨.openTemplate, 0, toEnd⟩
    | .error (.substitution m) =>
      .error ⟨.openSubstitution, Text.width (c :: rest.take m), toEnd⟩
  else
    match Punct.read? (c :: rest) with
    | some (p, n) => .ok (.punct p, n)
    | none => .error ⟨.strayCharacter (Text.quoteHead [c]), 0, 1⟩

end Lexeme

/-- The tokens of a text. -/
inductive Stream where
  | done (offset : Int)
  | bad (e : ExprError)
  | next (t : ExprToken) (rest : Stream)
deriving Inhabited

namespace Stream

/-- The number of tokens. -/
def size : Stream → Nat
  | done _ => 0
  | bad _ => 0
  | next _ rest => rest.size + 1

/-- Where the next token, the end or the fault stands. -/
def headSpan : Stream → Span
  | done p => ⟨p, p⟩
  | bad e => e.span
  | next t _ => t.span

/-- The end of the last token, or `p` when there is none. -/
def lastStop (p : Int) : Stream → Int
  | done _ => p
  | bad _ => p
  | next t rest => lastStop t.span.stop rest

/-- Reads the tokens of a text that begins at an offset. -/
def ofText (cs : List Char) (base : Int) : Stream :=
  match cs with
  | [] => .done base
  | c :: rest =>
    if Text.isBlank c then ofText rest (base + Text.units c)
    else match Lexeme.read c rest with
      | .error f => .bad ⟨f.fault, ⟨base + f.start, base + f.stop⟩⟩
      | .ok (lexeme, n) =>
        let stop := base + Text.width (c :: rest.take n)
        .next ⟨lexeme, ⟨base, stop⟩⟩ (ofText (rest.drop n) stop)
termination_by cs.length

end Stream

end LiveTemplate
