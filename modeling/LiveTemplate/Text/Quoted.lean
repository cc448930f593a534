import LiveTemplate.Text.Units

/-!
Quoted text: a string between double quotes, with quotes, backslashes and control characters
escaped. Messages quote names this way and the text behind a fingerprint is built from it.
-/

namespace LiveTemplate.Text.Quoted

set_option autoImplicit false

/-- A hexadecimal digit, in lower case. -/
def hexDigit (n : Nat) : Char :=
  if n < 10 then Char.ofNat ('0'.toNat + n) else Char.ofNat ('a'.toNat + (n - 10))

/-- Four hexadecimal digits. -/
def hex4 (n : Nat) : List Char :=
  [hexDigit (n / 4096 % 16), hexDigit (n / 256 % 16), hexDigit (n / 16 % 16), hexDigit (n % 16)]

/-- The written form of one character. -/
def escape (c : Char) : List Char :=
  if c = '\x22' then ['\\', '\x22']
  else if c = '\\' then ['\\', '\\']
  else if c = '\x08' then ['\\', 'b']
  else if c = '\t' then ['\\', 't']
  else if c = '\n' then ['\\', 'n']
  else if c = '\x0c' then ['\\', 'f']
  else if c = '\x0d' then ['\\', 'r']
  else if c.toNat < 0x20 then '\\' :: 'u' :: hex4 c.toNat
  else [c]

/-- The body of a quoted text. -/
def encode (cs : List Char) : List Char := cs.flatMap escape

/-- The first unit of a character that takes two, by its code. -/
def half (c : Char) : List Char := '\\' :: 'u' :: hex4 (0xD800 + (c.toNat - 0x10000) / 0x400)

/-- The body of the quoted first units of a text. Half of a pair has no character of its own and is
written by its code. -/
def encodeTake : Nat → List Char → List Char
  | 0, _ | _, [] => []
  | n + 1, c :: cs =>
    if units c ≤ n + 1 then escape c ++ encodeTake (n + 1 - units c) cs else half c
termination_by _ cs => cs.length

end Quoted

/-- A string in double quotes. -/
def quote (s : String) : String :=
  String.ofList ('\x22' :: Quoted.encode s.toList ++ ['\x22'])

/-- The first unit of a text in double quotes; of an empty text, the quotes alone. -/
def quoteHead (cs : List Char) : String :=
  String.ofList ('\x22' :: Quoted.encodeTake 1 cs ++ ['\x22'])

/-- A text in double quotes that is cut, with three dots, when it is longer than 60 units. -/
def quoteBrief (s : String) : String :=
  if length s ≤ 60 then quote s
  else String.ofList ('\x22' :: Quoted.encodeTake 57 s.toList ++ ['.', '.', '.', '\x22'])

end LiveTemplate.Text
