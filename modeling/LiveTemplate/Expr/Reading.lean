import LiveTemplate.Expr
import LiveTemplate.Expr.Token
import LiveTemplate.Number

/-!
Reading expressions, binding patterns and loop headers from text.

Each grammar rule reads the front of a token stream and hands back the rest. The two rules that a
bracket leads back to, whole expressions and whole patterns, are passed to the others as `Rules`;
`Rules.upTo` ties them together up to a depth of nesting that no text can exceed.
-/

namespace LiveTemplate

set_option autoImplicit false

/-- What a rule reads, and the tokens left. -/
abbrev WithRest (α : Type) := α × Stream

/-- The rules that nested brackets lead back to. -/
structure Rules where
  expr : Stream → Except ExprError (WithRest Expr)
  pattern : Stream → Except ExprError (WithRest Pattern)

namespace Grammar

/-- Refuses the stream at its head; a fault already in the stream comes first. -/
def reject {α : Type} (fault : ExprFault) : Stream → Except ExprError α
  | .bad e => .error e
  | s => .error ⟨fault, s.headSpan⟩

/-- Hands back what was read, unless the look at the next token finds a fault. -/
def settle {α : Type} (x : α) : Stream → Except ExprError (WithRest α)
  | .bad e => .error e
  | s => .ok (x, s)

/-- The operator a mark stands for between two operands. -/
def binaryOp? : Punct → Option BinaryOp
  | .questions => some .coalesce
  | .bars => some .or
  | .ampersands => some .and
  | .equalsEquals => some .looseEq
  | .equalsEqualsEquals => some .strictEq
  | .exclamationEquals => some .looseNe
  | .exclamationEqualsEquals => some .strictNe
  | .less => some .less
  | .lessEq => some .lessEq
  | .greater => some .greater
  | .greaterEq => some .greaterEq
  | .plus => some .add
  | .minus => some .sub
  | .asterisk => some .mul
  | .slash => some .div
  | .percent => some .rem
  | _ => none

/-- The operator a token stands for in front of an operand. -/
def unaryOp? : Lexeme → Option UnaryOp
  | .punct .exclamation => some .not
  | .punct .minus => some .negate
  | .punct .plus => some .plus
  | .keyword .typeof => some .typeof
  | _ => none

/-- The field name a token spells. -/
def fieldName? : Lexeme → Option String
  | .ident name => some name
  | .keyword k => some k.text
  | .text value => some value
  | .number x => some (Number.text x)
  | _ => none

/-- The text by which a message names an unexpected token. -/
def quotedLexeme : Lexeme → String
  | .ident name => Text.quote name
  | .keyword k => Text.quote k.text
  | .text value => Text.quote value
  | .number x => if x.isNaN || x.isInf then "null" else Number.text x
  | .template raw => Text.quote (String.ofList raw)
  | .punct p => Text.quote p.text

/-- A name after a point. -/
def propertyName (operator : String) : Stream → Except ExprError (WithRest (String × Span))
  | .next ⟨.ident name, span⟩ rest => .ok ((name, span), rest)
  | .next ⟨.keyword k, span⟩ rest => .ok ((k.text, span), rest)
  | s => reject (.missingName operator) s

/-- A key and its closing bracket, after an opening one. -/
def keyTail (r : Rules) (s : Stream) : Except ExprError (WithRest (Expr × Span)) := do
  let (key, s) ← r.expr s
  match s with
  | .next ⟨.punct .closeBracket, span⟩ rest => .ok ((key, span), rest)
  | s => reject .missingKeyEnd s

/-- At least one more argument and the closing parenthesis. -/
def moreArguments (r : Rules) : Nat → Stream → Except ExprError (WithRest (List Expr × Span))
  | 0, s => reject .tooDeep s
  | n + 1, s => do
    let (arg, s) ← r.expr s
    match s with
    | .next ⟨.punct .closeParen, span⟩ rest => .ok (([arg], span), rest)
    | .next ⟨.punct .comma, _⟩ rest => do
      let ((args, span), s) ← moreArguments r n rest
      .ok ((arg :: args, span), s)
    | s => reject .missingArgumentEnd s

/-- Arguments and the closing parenthesis, after the opening one. -/
def arguments (r : Rules) : Stream → Except ExprError (WithRest (List Expr × Span))
  | .next ⟨.punct .closeParen, span⟩ rest => .ok (([], span), rest)
  | s => moreArguments r (s.size + 1) s

/-- Reads at most `n` member accesses, keys and calls after an expression. -/
def suffixes (r : Rules) : Nat → Expr → Stream → Except ExprError (WithRest Expr)
  | 0, e, s => settle e s
  | n + 1, e, s =>
    match s with
    | .next ⟨.punct .dot, _⟩ rest => do
      let ((name, span), s) ← propertyName "." rest
      suffixes r n (.member e name false (e.span.join span)) s
    | .next ⟨.punct .questionDot, _⟩ (.next ⟨.punct .openParen, _⟩ rest) => do
      let ((args, span), s) ← arguments r rest
      suffixes r n (.call e args true (e.span.join span)) s
    | .next ⟨.punct .questionDot, _⟩ (.next ⟨.punct .openBracket, _⟩ rest) => do
      let ((key, span), s) ← keyTail r rest
      suffixes r n (.keyed e key true (e.span.join span)) s
    | .next ⟨.punct .questionDot, _⟩ rest => do
      let ((name, span), s) ← propertyName "?." rest
      suffixes r n (.member e name true (e.span.join span)) s
    | .next ⟨.punct .openBracket, _⟩ rest => do
      let ((key, span), s) ← keyTail r rest
      suffixes r n (.keyed e key false (e.span.join span)) s
    | .next ⟨.punct .openParen, _⟩ rest => do
      let ((args, span), s) ← arguments r rest
      suffixes r n (.call e args false (e.span.join span)) s
    | s => settle e s

/-- Elements of an array and the closing bracket. -/
def elements (r : Rules) : Nat → Stream → Except ExprError (WithRest (List Expr × Span))
  | 0, s => reject .tooDeep s
  | n + 1, s =>
    match s with
    | .next ⟨.punct .closeBracket, span⟩ rest => .ok (([], span), rest)
    | s => do
      let (e, s) ← r.expr s
      match s with
      | .next ⟨.punct .comma, _⟩ rest => do
        let ((es, span), s) ← elements r n rest
        .ok ((e :: es, span), s)
      | .next ⟨.punct .closeBracket, span⟩ rest => .ok (([e], span), rest)
      | s => reject .missingElementEnd s

/-- The value of a field: after a colon, or the binding of the field's own name. -/
def fieldValue (r : Rules) (key : ExprToken) (name : String) :
    Stream → Except ExprError (WithRest Expr)
  | .next ⟨.punct .colon, _⟩ rest => r.expr rest
  | s =>
    let short : Bool := match key.lexeme, s with
      | .ident _, .next ⟨.punct .comma, _⟩ _ => true
      | .ident _, .next ⟨.punct .closeBrace, _⟩ _ => true
      | _, _ => false
    if short then .ok (.name name key.span, s) else reject .missingFieldColon s

/-- Fields of an object and the closing brace. -/
def fields (r : Rules) : Nat → Stream → Except ExprError (WithRest (List (String × Expr) × Span))
  | 0, s => reject .tooDeep s
  | n + 1, s =>
    match s with
    | .next ⟨.punct .closeBrace, span⟩ rest => .ok (([], span), rest)
    | .next key rest =>
      match fieldName? key.lexeme with
      | none => reject .missingFieldName s
      | some name => do
        let (value, s) ← fieldValue r key name rest
        match s with
        | .next ⟨.punct .comma, _⟩ rest => do
          let ((more, span), s) ← fields r n rest
          .ok (((name, value) :: more, span), s)
        | .next ⟨.punct .closeBrace, span⟩ rest => .ok (([(name, value)], span), rest)
        | s => reject .missingFieldEnd s
    | s => reject .missingFieldName s

/-- A whole text as one expression. -/
def wholeExpr (r : Rules) (s : Stream) : Except ExprError Expr :=
  match s with
  | .next _ _ => do
    let (e, rest) ← r.expr s
    match rest with
    | .done _ => .ok e
    | rest => reject .afterExpression rest
  | s => reject .emptyExpression s

/-- The pieces and substitutions of a template text, from its raw characters. -/
def templateParts (r : Rules) (raw : List Char) (base : Int) :
    Except ExprError (List Char × List (Expr × String)) :=
  match raw with
  | [] => .ok ([], [])
  | ['\\'] => .ok ([], [])
  | '\\' :: c :: cs => do
    let (head, parts) ← templateParts r cs (base + Text.width ['\\', c])
    .ok (Lexeme.unescape c :: head, parts)
  | '$' :: '{' :: cs =>
    match Text.closeLength 0 cs with
    | none => .error ⟨.openSubstitution, ⟨base + 1, base + Text.width raw⟩⟩
    | some n => do
      let e ← wholeExpr r (Stream.ofText (cs.take (n - 1)) (base + 2))
      let (head, parts) ← templateParts r (cs.drop n) (base + 2 + Text.width (cs.take n))
      .ok ([], (e, String.ofList head) :: parts)
  | c :: cs => do
    let (head, parts) ← templateParts r cs (base + Text.units c)
    .ok (c :: head, parts)
termination_by raw.length

/-- Whether the token after a name makes it the parameter of an arrow function. -/
def arrowFollows : Stream → Except ExprError Bool
  | .bad e => .error e
  | .next ⟨.punct .arrow, _⟩ _ => .ok true
  | _ => .ok false

/-- Whether an arrow stands behind the parenthesis that closes `depth + 1` open ones. -/
def arrowAfterParen : Nat → Stream → Bool
  | depth, .next ⟨.punct .openParen, _⟩ rest => arrowAfterParen (depth + 1) rest
  | 0, .next ⟨.punct .closeParen, _⟩ rest =>
    match rest with
    | .next ⟨.punct .arrow, _⟩ _ => true
    | _ => false
  | depth + 1, .next ⟨.punct .closeParen, _⟩ rest => arrowAfterParen depth rest
  | depth, .next _ rest => arrowAfterParen depth rest
  | _, _ => false

/-- Parameters and the closing parenthesis, after the opening one. -/
def parameters (r : Rules) : Nat → Stream → Except ExprError (WithRest (List Pattern))
  | 0, s => reject .tooDeep s
  | n + 1, s =>
    match s with
    | .next ⟨.punct .closeParen, _⟩ rest => .ok ([], rest)
    | s => do
      let (p, s) ← r.pattern s
      match s with
      | .next ⟨.punct .comma, _⟩ rest => do
        let (ps, s) ← parameters r n rest
        .ok (p :: ps, s)
      | .next ⟨.punct .closeParen, _⟩ rest => .ok ([p], rest)
      | s => reject .missingParameterEnd s

/-- The arrow and the body of a function whose text begins at `start`. -/
def arrowTail (r : Rules) (start : Int) (params : List Pattern) :
    Stream → Except ExprError (WithRest Expr)
  | .next ⟨.punct .arrow, _⟩ rest => do
    let (body, s) ← r.expr rest
    .ok (.arrow params body ⟨start, body.span.stop⟩, s)
  | s => reject .missingArrow s

/-- A parenthesised expression, after its opening parenthesis. -/
def parenTail (r : Rules) (s : Stream) : Except ExprError (WithRest Expr) := do
  let (e, s) ← r.expr s
  match s with
  | .next ⟨.punct .closeParen, _⟩ rest => .ok (e, rest)
  | s => reject .missingParenEnd s

/-- Names, constants, bracketed forms and functions. -/
def primary (r : Rules) (s : Stream) : Except ExprError (WithRest Expr) :=
  match s with
  | .next ⟨lexeme, span⟩ rest =>
    match lexeme with
    | .ident name => do
      if ← arrowFollows rest then arrowTail r span.start [.name name span] rest
      else .ok (.name name span, rest)
    | .text value => .ok (.literal (.text value) span, rest)
    | .number x => .ok (.literal (.number x) span, rest)
    | .keyword .true => .ok (.literal (.flag true) span, rest)
    | .keyword .false => .ok (.literal (.flag false) span, rest)
    | .keyword .null => .ok (.literal .null span, rest)
    | .keyword .undefined => .ok (.literal .undefined span, rest)
    | .template raw => do
      let (head, parts) ← templateParts r raw (span.start + 1)
      .ok (.template (String.ofList head) parts span, rest)
    | .punct .openBracket => do
      let ((es, stop), s) ← elements r (rest.size + 1) rest
      .ok (.array es (span.join stop), s)
    | .punct .openBrace => do
      let ((fs, stop), s) ← fields r (rest.size + 1) rest
      .ok (.object fs (span.join stop), s)
    | .punct .openParen =>
      if arrowAfterParen 0 rest then do
        let (params, s) ← parameters r (rest.size + 1) rest
        arrowTail r span.start params s
      else parenTail r rest
    | other => reject (.unexpectedToken (quotedLexeme other)) s
  | s => reject .unexpectedEnd s

/-- A primary expression with its accesses and calls. -/
def postfixed (r : Rules) (s : Stream) : Except ExprError (WithRest Expr) := do
  let (e, s) ← primary r s
  suffixes r (s.size + 1) e s

/-- Operators in front of an operand. -/
def unary (r : Rules) : Stream → Except ExprError (WithRest Expr)
  | .next t rest =>
    match unaryOp? t.lexeme with
    | some op => do
      let (e, s) ← unary r rest
      .ok (.unary op e (t.span.join e.span), s)
    | none => postfixed r (.next t rest)
  | s => postfixed r s

/-- The operator of a level at the head of a stream. -/
def operatorAt (level : Nat) : Stream → Option (BinaryOp × Stream)
  | .next ⟨.punct p, _⟩ rest =>
    match binaryOp? p with
    | some op => if op.level = level then some (op, rest) else none
    | none => none
  | _ => none

/-- Reads at most `n` operators of a level, each with its right operand; they group to the left. -/
def chain (operand : Stream → Except ExprError (WithRest Expr)) (level : Nat) :
    Nat → Expr → Stream → Except ExprError (WithRest Expr)
  | 0, left, s => settle left s
  | n + 1, left, s =>
    match operatorAt level s with
    | some (op, rest) => do
      let (right, s) ← operand rest
      chain operand level n (.binary op left right (left.span.join right.span)) s
    | none => settle left s

/-- Operands joined by operators of the `k` tightest levels. -/
def binary (r : Rules) : Nat → Stream → Except ExprError (WithRest Expr)
  | 0, s => unary r s
  | k + 1, s => do
    let (left, s) ← binary r k s
    chain (binary r k) (7 - k) s.size left s

/-- A whole expression: a binary one, or a choice between two by a condition. -/
def conditional (r : Rules) (s : Stream) : Except ExprError (WithRest Expr) := do
  let (condition, s) ← binary r 7 s
  match s with
  | .next ⟨.punct .question, _⟩ rest => do
    let (yes, s) ← r.expr rest
    match s with
    | .next ⟨.punct .colon, _⟩ rest => do
      let (no, s) ← r.expr rest
      .ok (.conditional condition yes no (condition.span.join no.span), s)
    | s => reject .missingColon s
  | s => .ok (condition, s)

/-- Elements of an array pattern and the closing bracket. -/
def patternElements (r : Rules) :
    Nat → Stream → Except ExprError (WithRest (List (Option Pattern) × Span))
  | 0, s => reject .tooDeep s
  | n + 1, s =>
    match s with
    | .next ⟨.punct .closeBracket, span⟩ rest => .ok (([], span), rest)
    | .next ⟨.punct .comma, _⟩ rest => do
      let ((ps, span), s) ← patternElements r n rest
      .ok ((none :: ps, span), s)
    | s => do
      let (p, s) ← r.pattern s
      match s with
      | .next ⟨.punct .comma, _⟩ rest => do
        let ((ps, span), s) ← patternElements r n rest
        .ok ((some p :: ps, span), s)
      | .next ⟨.punct .closeBracket, span⟩ rest => .ok (([some p], span), rest)
      | s => reject .missingPatternElementEnd s

/-- The pattern of a property that begins at a key: after a colon, or the key itself. -/
def propertyValue (r : Rules) (key : ExprToken) (rest : Stream) :
    Except ExprError (WithRest Pattern) :=
  match rest with
  | .bad e => .error e
  | .next ⟨.punct .colon, _⟩ more => r.pattern more
  | rest =>
    match key.lexeme with
    | .ident _ => r.pattern (.next key rest)
    | _ => .error ⟨.shorthandName, key.span⟩

/-- Properties of an object pattern and the closing brace. -/
def properties (r : Rules) :
    Nat → Stream → Except ExprError (WithRest (List (String × Pattern) × Span))
  | 0, s => reject .tooDeep s
  | n + 1, s =>
    match s with
    | .next ⟨.punct .closeBrace, span⟩ rest => .ok (([], span), rest)
    | .next key rest =>
      match fieldName? key.lexeme with
      | none => reject .missingPropertyName s
      | some name => do
        let (p, s) ← propertyValue r key rest
        match s with
        | .next ⟨.punct .comma, _⟩ rest => do
          let ((more, span), s) ← properties r n rest
          .ok (((name, p) :: more, span), s)
        | .next ⟨.punct .closeBrace, span⟩ rest => .ok (([(name, p)], span), rest)
        | s => reject .missingPropertyEnd s
    | s => reject .missingPropertyName s

/-- A pattern without a fallback value. -/
def plainPattern (r : Rules) (s : Stream) : Except ExprError (WithRest Pattern) :=
  match s with
  | .next ⟨.ident name, span⟩ rest => .ok (.name name span, rest)
  | .next ⟨.punct .openBracket, span⟩ rest => do
    let ((ps, stop), s) ← patternElements r (rest.size + 1) rest
    .ok (.array ps (span.join stop), s)
  | .next ⟨.punct .openBrace, span⟩ rest => do
    let ((ps, stop), s) ← properties r (rest.size + 1) rest
    .ok (.object ps (span.join stop), s)
  | s => reject .missingPattern s

/-- A whole pattern: a plain one, with a fallback value after an equals sign. -/
def pattern (r : Rules) (s : Stream) : Except ExprError (WithRest Pattern) := do
  let (target, s) ← plainPattern r s
  match s with
  | .next ⟨.punct .equals, _⟩ rest => do
    let (value, s) ← r.expr rest
    .ok (.fallback target value (target.span.join value.span), s)
  | s => settle target s

end Grammar

/-- The rules for up to so many levels of brackets. -/
def Rules.upTo : Nat → Rules
  | 0 => ⟨Grammar.reject .tooDeep, Grammar.reject .tooDeep⟩
  | n + 1 => ⟨Grammar.conditional (upTo n), Grammar.pattern (upTo n)⟩

/-- Rules deep enough for a text: every level of nesting takes a character. -/
def Rules.enough (cs : List Char) : Rules := .upTo (cs.length + 1)

/-- Reads a whole text as an expression; `base` is where the text stands in its template. -/
def Expr.ofChars (cs : List Char) (base : Int) : Except ExprError Expr :=
  Grammar.wholeExpr (.enough cs) (.ofText cs base)

def Expr.ofText (text : String) (base : Int) : Except ExprError Expr :=
  Expr.ofChars text.toList base

/-- Reads a whole text as a binding pattern. -/
def Pattern.ofChars (cs : List Char) (base : Int) : Except ExprError Pattern :=
  let s := Stream.ofText cs base
  match s with
  | .next _ _ => do
    let (p, rest) ← (Rules.enough cs).pattern s
    match rest with
    | .done _ => .ok p
    | rest => Grammar.reject .afterPattern rest
  | s => Grammar.reject .emptyPattern s

def Pattern.ofText (text : String) (base : Int) : Except ExprError Pattern :=
  Pattern.ofChars text.toList base

/-- Reads a whole text as a loop header: a plain pattern, the word `of`, and the items. -/
def ForHeader.ofChars (cs : List Char) (base : Int) : Except ExprError ForHeader :=
  let r := Rules.enough cs
  let s := Stream.ofText cs base
  match s with
  | .next first _ => do
    let (p, rest) ← Grammar.plainPattern r s
    match rest with
    | .next ⟨.ident "of", _⟩ rest => do
      let (items, rest) ← r.expr rest
      match rest with
      | .done _ => .ok ⟨p, items, ⟨first.span.start, s.lastStop base⟩⟩
      | rest => Grammar.reject .afterHeader rest
    | rest => Grammar.reject .missingOf rest
  | s => Grammar.reject .emptyHeader s

def ForHeader.ofText (text : String) (base : Int) : Except ExprError ForHeader :=
  ForHeader.ofChars text.toList base

end LiveTemplate
