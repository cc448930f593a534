import LiveTemplate.Text.Blank

/-!
Reading numbers: decimal literals, and the numeric value of arbitrary text.
-/

namespace LiveTemplate.Decimal

set_option autoImplicit false

/-- A decimal read from text: `mantissa × 10^exponent`. -/
structure Scientific where
  mantissa : Nat
  exponent : Int
deriving DecidableEq, Repr, Inhabited

/-- The number spelled by decimal digits. -/
def ofDigits (cs : List Char) : Nat := cs.foldl (fun n c => n * 10 + (c.toNat - '0'.toNat)) 0

/-- The nearest floating-point number. Magnitudes far out of range are settled without computing
their power of ten. -/
def Scientific.toFloat (s : Scientific) : Float :=
  let size := (Nat.toDigits 10 s.mantissa).length + s.exponent
  if s.mantissa = 0 then 0
  else if 400 < size then 1.0 / 0.0
  else if size < -400 then 0
  else if s.exponent < 0 then Float.ofScientific s.mantissa true (-s.exponent).toNat
  else Float.ofScientific s.mantissa false s.exponent.toNat

/-- Reads an exponent part up to the end of the text; an empty text means none. -/
def readExponent : List Char → Option Int
  | [] => some 0
  | e :: rest =>
    if e = 'e' ∨ e = 'E' then
      let (negative, digits) := match rest with
        | '-' :: ds => (true, ds)
        | '+' :: ds => (false, ds)
        | ds => (false, ds)
      if digits ≠ [] ∧ digits.all Char.isDigit then
        some (if negative then -(ofDigits digits : Int) else ofDigits digits)
      else none
    else none

/-- Reads an unsigned decimal: digits, a point among or around them, an exponent. -/
def readDecimal (cs : List Char) : Option Scientific :=
  let whole := cs.takeWhile Char.isDigit
  let rest := cs.dropWhile Char.isDigit
  let (fraction, rest) := match rest with
    | '.' :: more => (more.takeWhile Char.isDigit, more.dropWhile Char.isDigit)
    | other => ([], other)
  if whole = [] ∧ fraction = [] then none
  else (readExponent rest).map fun e => ⟨ofDigits (whole ++ fraction), e - fraction.length⟩

/-- The value of a digit in a base up to 36. -/
def digitValue? (base : Nat) (c : Char) : Option Nat :=
  let n :=
    if c.isDigit then c.toNat - '0'.toNat
    else if c.isLower then c.toNat - 'a'.toNat + 10
    else if c.isUpper then c.toNat - 'A'.toNat + 10
    else base
  if n < base then some n else none

/-- Reads a nonempty run of digits in a base. -/
def readBase (base : Nat) (cs : List Char) : Option Nat :=
  if cs = [] then none
  else cs.foldlM (fun n c => (digitValue? base c).map (n * base + ·)) 0

/-- The number a text stands for: blanks around it do not count, an empty text is zero, and a
text that spells no number is not a number. -/
def numberOf (s : String) : Float :=
  let nan : Float := 0.0 / 0.0
  let decimal (cs : List Char) : Float :=
    if cs = "Infinity".toList then 1.0 / 0.0
    else match readDecimal cs with
      | some d => d.toFloat
      | none => nan
  let based (base : Nat) (cs : List Char) : Float :=
    match readBase base cs with
    | some n => Float.ofNat n
    | none => nan
  match Text.trim s.toList with
  | [] => 0
  | '0' :: 'x' :: cs => based 16 cs
  | '0' :: 'X' :: cs => based 16 cs
  | '0' :: 'o' :: cs => based 8 cs
  | '0' :: 'O' :: cs => based 8 cs
  | '0' :: 'b' :: cs => based 2 cs
  | '0' :: 'B' :: cs => based 2 cs
  | '-' :: cs => -decimal cs
  | '+' :: cs => decimal cs
  | cs => decimal cs

end LiveTemplate.Decimal
