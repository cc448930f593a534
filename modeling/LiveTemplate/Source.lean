import LiveTemplate.Span
import LiveTemplate.Text.Units

/-!
Template sources: the text with its name, and positions in it. A line ends with a line feed, a
carriage return, or both in that order.
-/

namespace LiveTemplate

set_option autoImplicit false

/-- Line and column, both from one. -/
structure Position where
  line : Nat
  column : Nat
deriving DecidableEq, Repr, Inhabited

/-- Walks `offset` units into a text, counting lines and columns. A carriage return before a line
feed ends no line by itself. -/
def Position.advance : List Char → Nat → Position → Position
  | [], _, p => p
  | _, 0, p => p
  | '\x0d' :: '\n' :: rest, n + 2, p => advance rest n ⟨p.line + 1, 1⟩
  | '\x0d' :: '\n' :: _, 1, p => ⟨p.line, p.column + 1⟩
  | c :: rest, n + 1, p =>
    if c = '\n' ∨ c = '\x0d' then advance rest n ⟨p.line + 1, 1⟩
    else if Text.units c ≤ n + 1 then
      advance rest (n + 1 - Text.units c) ⟨p.line, p.column + Text.units c⟩
    else ⟨p.line, p.column + (n + 1)⟩

/-- A template text with the name that messages give it. -/
structure Source where
  text : String
  file : String := "nofile"
deriving DecidableEq, Repr, Inhabited

namespace Source

def chars (s : Source) : List Char := s.text.toList

/-- The length in 16-bit units. -/
def width (s : Source) : Nat := Text.width s.chars

/-- The position of an offset; offsets outside the text stand for its nearest end. -/
def positionAt (s : Source) (offset : Int) : Position :=
  Position.advance s.chars (min offset.toNat s.width) ⟨1, 1⟩

/-- An offset counted from the end when it is negative, within the text. -/
def resolveOffset (s : Source) (offset : Int) : Nat :=
  if offset < 0 then (offset + s.width).toNat else min offset.toNat s.width

/-- The text of a span; a negative end counts from the end of the text. -/
def slice (s : Source) (span : Span) : String :=
  String.ofList (Text.slice (s.resolveOffset span.start) (s.resolveOffset span.stop) s.chars)

end Source

end LiveTemplate
