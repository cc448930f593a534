/-!
Floating-point numbers as exact binary fractions, the interval of reals that round to one, and how
they are written in decimals.
-/

namespace LiveTemplate.Decimal

set_option autoImplicit false

/-- A nonnegative number, mantissa times a power of two. -/
structure Binary where
  mantissa : Nat
  exponent : Int
  /-- The next number below is only half as far away as the next one above. -/
  narrowBelow : Bool
deriving DecidableEq, Repr, Inhabited

/-- The magnitude of a finite number, from its bits. -/
def Binary.ofBits (bits : Nat) : Binary :=
  let biased : Nat := bits / Nat.pow 2 52 % Nat.pow 2 11
  let fraction : Nat := bits % Nat.pow 2 52
  if biased = 0 then ⟨fraction, -1074, false⟩
  else ⟨fraction + Nat.pow 2 52, (biased : Int) - 1075, fraction = 0 && 1 < biased⟩

/-- The magnitude of a finite number. -/
def Binary.ofFloat (x : Float) : Binary := .ofBits x.toBits.toNat

/-- A power with the exponent's positive part. -/
def powPos (base : Nat) (e : Int) : Nat := Nat.pow base e.toNat

/-- The reals that round to a number, in quarters of its last place; the ends belong to it when
the mantissa is even. -/
structure Interval where
  low : Nat
  value : Nat
  high : Nat
  /-- The power of two that one quarter stands for. -/
  exponent : Int
  closed : Bool
deriving DecidableEq, Repr, Inhabited

def Binary.interval (b : Binary) : Interval where
  low := 4 * b.mantissa - if b.narrowBelow then 1 else 2
  value := 4 * b.mantissa
  high := 4 * b.mantissa + 2
  exponent := b.exponent - 2
  closed := b.mantissa % 2 = 0

/-! ### The shortest decimal that reads back as a number

Grids of one, two, … seventeen digits are tried in turn; on each, only the two grid points next to
the number can round to it. -/

/-- A positive decimal `0.d₁d₂…dₖ × 10^point`, without trailing zeros. -/
structure Digits where
  digits : List Char
  point : Int
deriving DecidableEq, Repr, Inhabited

/-- How many decimal digits a number has. -/
def digitCount (n : Nat) : Nat := (Nat.toDigits 10 n).length

/-- The least power of ten above a positive fraction, by its exponent. -/
def pointOf (num den : Nat) : Int :=
  if den ≤ num then digitCount (num / den) else 1 - (digitCount ((den - 1) / num) : Int)

/-- The grid point of `count` digits that reads back as the number, when there is one: of two such
neighbours the nearer, and on a tie the even one. -/
def onGrid (i : Interval) (point : Int) (count : Nat) : Option Nat :=
  let step := point - count
  let unit := powPos 10 step * powPos 2 (-i.exponent)
  let scale := powPos 2 i.exponent * powPos 10 (-step)
  let value := i.value * scale
  let below := value / unit
  let inside (c : Nat) : Bool :=
    if i.closed then i.low * scale ≤ c * unit && c * unit ≤ i.high * scale
    else i.low * scale < c * unit && c * unit < i.high * scale
  let down := value - below * unit
  let up := (below + 1) * unit - value
  match inside below, inside (below + 1) with
  | true, true =>
    if down < up then some below
    else if up < down then some (below + 1)
    else if below % 2 = 0 then some below else some (below + 1)
  | true, false => some below
  | false, true => some (below + 1)
  | false, false => none

/-- Drops the zeros at the end. -/
def stripZeros (cs : List Char) : List Char := (cs.reverse.dropWhile (· = '0')).reverse

/-- The shortest digits of a positive finite number. -/
def shortest (b : Binary) : Digits :=
  let i := b.interval
  let point := pointOf (i.value * powPos 2 i.exponent) (powPos 2 (-i.exponent))
  let found := (List.range 17).findSome? fun k => (onGrid i point (k + 1)).map fun c => (k + 1, c)
  match found with
  | some (count, c) =>
    let cs := Nat.toDigits 10 c
    ⟨stripZeros cs, if count < cs.length then point + 1 else point⟩
  | none => ⟨['0'], 1⟩

/-! ### A fixed count of decimals, rounded to nearest with halves going up -/

/-- The quotient rounded to nearest, halves up. -/
def roundHalfUp (num den : Nat) : Nat := (2 * num + den) / (2 * den)

/-- Zeros in front, up to a length. -/
def padZeros (n : Nat) (cs : List Char) : List Char := List.replicate (n - cs.length) '0' ++ cs

/-- The text of a magnitude with exactly `places` decimals. -/
def fixed (b : Binary) (places : Nat) : String :=
  let scaled := b.mantissa * powPos 2 b.exponent * Nat.pow 10 places
  let n := roundHalfUp scaled (powPos 2 (-b.exponent))
  let cs := padZeros (places + 1) (Nat.toDigits 10 n)
  let whole := cs.take (cs.length - places)
  if places = 0 then String.ofList whole
  else String.ofList (whole ++ '.' :: cs.drop (cs.length - places))

end LiveTemplate.Decimal
