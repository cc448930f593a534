import LiveTemplate.Span

/-!
What can be wrong with the text of an expression, a binding pattern or a loop header.
-/

namespace LiveTemplate

set_option autoImplicit false

inductive ExprFault where
  /-- A character that begins no token, as quoted in the message. -/
  | strayCharacter (quoted : String)
  | badNumber
  | openString
  | openTemplate
  | openSubstitution
  | emptyExpression
  | emptyPattern
  | emptyHeader
  | afterExpression
  | afterPattern
  | afterHeader
  | missingOf
  | missingColon
  | missingName (operator : String)
  | missingKeyEnd
  | missingArgumentEnd
  | missingParenEnd
  | unexpectedEnd
  /-- A token that begins no expression, as quoted in the message. -/
  | unexpectedToken (quoted : String)
  | missingElementEnd
  | missingFieldName
  | missingFieldColon
  | missingFieldEnd
  | missingParameterEnd
  | missingArrow
  | missingPattern
  | missingPatternElementEnd
  | missingPropertyName
  | shorthandName
  | missingPropertyEnd
  | tooDeep
deriving DecidableEq, Repr, Inhabited

def ExprFault.message : ExprFault → String
  | strayCharacter quoted => "unexpected character " ++ quoted
  | badNumber => "invalid numeric literal"
  | openString => "unterminated string literal"
  | openTemplate => "unterminated template literal"
  | openSubstitution => "unterminated template substitution"
  | emptyExpression => "empty expression"
  | emptyPattern => "empty binding pattern"
  | emptyHeader => "empty iterator header"
  | afterExpression => "unexpected token after end of expression"
  | afterPattern => "unexpected token after binding pattern"
  | afterHeader => "unexpected token after iterator header"
  | missingOf => "expected 'of' in iterator header"
  | missingColon => "expected ':' in conditional expression"
  | missingName operator => "expected identifier after '" ++ operator ++ "'"
  | missingKeyEnd => "expected ']' in indexed access"
  | missingArgumentEnd => "expected ',' or ')' in argument list"
  | missingParenEnd => "expected ')' to close parenthesized expression"
  | unexpectedEnd => "unexpected end of expression"
  | unexpectedToken quoted => "unexpected token " ++ quoted
  | missingElementEnd => "expected ',' or ']' in array literal"
  | missingFieldName => "expected property name in object literal"
  | missingFieldColon => "expected ':' after object literal key"
  | missingFieldEnd => "expected ',' or '\x7d' in object literal"
  | missingParameterEnd => "expected ',' or ')' in arrow parameters"
  | missingArrow => "expected '=>'"
  | missingPattern => "expected identifier or destructuring pattern"
  | missingPatternElementEnd => "expected ',' or ']' in array binding pattern"
  | missingPropertyName => "expected property name in object binding pattern"
  | shorthandName => "object binding pattern shorthand requires an identifier key"
  | missingPropertyEnd => "expected ',' or '\x7d' in object binding pattern"
  | tooDeep => "expression is nested too deeply"

/-- A fault with the place it was noticed at. -/
structure ExprError where
  fault : ExprFault
  span : Span
deriving DecidableEq, Repr, Inhabited

def ExprError.message (e : ExprError) : String := e.fault.message

def ExprError.shift (e : ExprError) (delta : Int) : ExprError := ⟨e.fault, e.span.shift delta⟩

end LiveTemplate
