import LiveTemplate.Decimal.Reading
import LiveTemplate.Decimal.Writing

/-!
Numbers of templates: their text, their remainder, and the sameness that change tracking uses.
-/

namespace LiveTemplate.Number

set_option autoImplicit false

/-- How the digits of a number are laid out. -/
structure Layout where
  /-- The most digits before the point without an exponent. -/
  whole : Int
  /-- The most zeros after the point before the first digit, plus one. -/
  small : Int

/-- Positional from a millionth up to 21 digits, with an exponent beyond. -/
def layout : Layout := ⟨21, 6⟩

/-- Lays out the digits of a positive number. -/
def Layout.write (l : Layout) (d : Decimal.Digits) : List Char :=
  let count : Int := d.digits.length
  if count ≤ d.point ∧ d.point ≤ l.whole then
    d.digits ++ List.replicate (d.point - count).toNat '0'
  else if 0 < d.point ∧ d.point ≤ l.whole then
    d.digits.take d.point.toNat ++ '.' :: d.digits.drop d.point.toNat
  else if -l.small < d.point ∧ d.point ≤ 0 then
    ['0', '.'] ++ List.replicate (-d.point).toNat '0' ++ d.digits
  else
    let e := d.point - 1
    let tail := 'e' :: (if e < 0 then '-' else '+') :: Nat.toDigits 10 e.natAbs
    match d.digits with
    | [c] => c :: tail
    | c :: cs => c :: '.' :: cs ++ tail
    | [] => tail

/-- The text of a number: the fewest digits that read back. Both zeros are written alike. -/
def text (x : Float) : String :=
  if x.isNaN then "NaN"
  else if x.isInf then (if x < 0 then "-Infinity" else "Infinity")
  else if x == 0 then "0"
  else
    let digits := layout.write (Decimal.shortest (.ofFloat x))
    String.ofList (if x < 0 then '-' :: digits else digits)

/-- The text with a fixed count of decimals. -/
def fixedText (x : Float) (places : Nat) : String :=
  if x.isNaN || x.isInf || 1e21 ≤ x.abs then text x
  else if x < 0 then "-" ++ Decimal.fixed (.ofFloat x) places
  else Decimal.fixed (.ofFloat x) places

/-- Whether a number is a whole one. -/
def isInteger (x : Float) : Bool := !x.isNaN && !x.isInf && x.floor == x

/-- Whether the sign bit is set. -/
def isNegative (x : Float) : Bool := Nat.pow 2 63 ≤ x.toBits.toNat

/-- The whole number next to `x` toward zero; none for what is not finite. -/
def truncate? (x : Float) : Option Int :=
  if x.isNaN || x.isInf then none
  else
    let b := Decimal.Binary.ofFloat x
    let n := b.mantissa * Decimal.powPos 2 b.exponent / Decimal.powPos 2 (-b.exponent)
    some (if isNegative x then -(n : Int) else n)

/-- The whole number next to `x` toward zero, with zero for what is not a number. Infinities have
none. -/
def toInt? (x : Float) : Option Int := if x.isNaN then some 0 else truncate? x

/-- The remainder of a division toward zero; it takes the sign of the dividend. -/
def rem (x y : Float) : Float :=
  if x.isNaN || y.isNaN || x.isInf || y == 0 then 0.0 / 0.0
  else if y.isInf || x == 0 then x
  else
    let a := Decimal.Binary.ofFloat x
    let b := Decimal.Binary.ofFloat y
    let e := min a.exponent b.exponent
    let scaled (n : Decimal.Binary) : Nat := n.mantissa * Decimal.powPos 2 (n.exponent - e)
    let r := scaled a % scaled b
    let magnitude := (Float.ofNat r).scaleB e
    if isNegative x then -magnitude else magnitude

/-- Sameness by bits: a not-a-number is the same as itself and the two zeros differ. -/
def same (x y : Float) : Bool := x.toBits == y.toBits

theorem same_refl (x : Float) : same x x = true := by simp [same]

theorem same_symm {x y : Float} (h : same x y = true) : same y x = true := by
  simp only [same, beq_iff_eq] at *; exact h.symm

theorem same_trans {x y z : Float} (h : same x y = true) (k : same y z = true) :
    same x z = true := by
  simp only [same, beq_iff_eq] at *; exact h.trans k

/-- Whether a number keeps its exact value as an integer literal: whole, below 2^53, and not a
negative zero. -/
def plainInteger? (x : Float) : Option Int :=
  if isInteger x && x.abs < 9007199254740992 && !(x == 0 && isNegative x) then truncate? x
  else none

end LiveTemplate.Number
