import LiveTemplate.Number

/-!
Numbers written in another base: the whole part digit by digit, then as many digits of the
fraction as tell the number from its neighbours.
-/

namespace LiveTemplate.Decimal

set_option autoImplicit false

/-- A digit of a base up to 36. -/
def digit (n : Nat) : Char :=
  if n < 10 then Char.ofNat ('0'.toNat + n) else Char.ofNat ('a'.toNat + (n - 10))

/-- Adds one in the last place of digits that are held last first; tells whether one is carried
out of the first. -/
def carryUp (base : Nat) : List Nat → List Nat × Bool
  | [] => ([], true)
  | d :: ds => if d + 1 < base then ((d + 1) :: ds, false) else carryUp base ds

/-- The digits of a fraction, last first, until what is left lies within the margin, with the
carry into the whole part. -/
def fractionDigits (base : Nat) : Nat → Float → Float → List Nat → List Nat × Bool
  | 0, _, _, done => (done, false)
  | fuel + 1, fraction, margin, done =>
    let scaled := fraction * Float.ofNat base
    let margin := margin * Float.ofNat base
    let d := scaled.floor.toUInt64.toNat
    let rest := scaled - scaled.floor
    if (0.5 < rest || (rest == 0.5 && d % 2 == 1)) && 1 < rest + margin then
      carryUp base (d :: done)
    else if margin ≤ rest then fractionDigits base fuel rest margin (d :: done)
    else (d :: done, false)

/-- Divides a whole part down until a mantissa holds all but its last digit; each division is worth
a zero. -/
def scaleWhole (base : Nat) : Nat → Float → List Char → Float × List Char
  | 0, whole, zeros => (whole, zeros)
  | fuel + 1, whole, zeros =>
    if Float.ofNat base * 9007199254740992 ≤ whole then
      scaleWhole base fuel (whole / Float.ofNat base) ('0' :: zeros)
    else (whole, zeros)

/-- The digits of a whole part, in front of what is written already. -/
def wholeDigits (base : Nat) : Nat → Float → List Char → List Char
  | 0, _, done => done
  | fuel + 1, whole, done =>
    let remainder := Number.rem whole (Float.ofNat base)
    let done := digit remainder.toUInt64.toNat :: done
    let next := (whole - remainder) / Float.ofNat base
    if 0 < next then wholeDigits base fuel next done else done

/-- The text of a finite magnitude in a base from 2 to 36. -/
def inBase (base : Nat) (x : Float) : String :=
  let whole := x.floor
  let fraction := x - whole
  let least := Float.ofBits 1
  let gap := 0.5 * (Float.ofBits (x.toBits + 1) - x)
  let margin := if gap < least then least else gap
  let (digits, carried) :=
    if margin ≤ fraction then fractionDigits base 1100 fraction margin [] else ([], false)
  let (scaled, zeros) := scaleWhole base 1100 (if carried then whole + 1 else whole) []
  let front := wholeDigits base 1100 scaled zeros
  let back := digits.reverse.map digit
  String.ofList (if back = [] then front else front ++ '.' :: back)

end LiveTemplate.Decimal
