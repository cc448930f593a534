/-!
Escaped text: the five characters that mean something in a page are written as entities.
-/

namespace LiveTemplate.Html

set_option autoImplicit false

/-- The written form of one character. -/
def entity (c : Char) : List Char :=
  if c = '&' then ['&', 'a', 'm', 'p', ';']
  else if c = '<' then ['&', 'l', 't', ';']
  else if c = '>' then ['&', 'g', 't', ';']
  else if c = '\x22' then ['&', 'q', 'u', 'o', 't', ';']
  else if c = '\x27' then ['&', '#', '3', '9', ';']
  else [c]

def escapeChars (cs : List Char) : List Char := cs.flatMap entity

def escape (s : String) : String := String.ofList (escapeChars s.toList)

end LiveTemplate.Html
