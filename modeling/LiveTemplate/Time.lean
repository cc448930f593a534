/-!
Points in time, in milliseconds since the beginning of 1970, and their texts in universal time.
-/

namespace LiveTemplate.Time

set_option autoImplicit false

/-- A day of the calendar. -/
structure Day where
  year : Int
  month : Nat
  day : Nat
deriving DecidableEq, Repr, Inhabited

def msPerDay : Int := 86400000

/-- The calendar day that lies a number of days after the first of January 1970. Years are counted
from the first of March, so that leap days come last. -/
def dayOf (days : Int) : Day :=
  let z := days + 719468
  let era := z.fdiv 146097
  let doe := (z - era * 146097).toNat
  let yoe := (doe - doe / 1460 + doe / 36524 - doe / 146096) / 365
  let doy := doe - (365 * yoe + yoe / 4 - yoe / 100)
  let mp := (5 * doy + 2) / 153
  let month := if mp < 10 then mp + 3 else mp - 9
  let year := (yoe : Int) + era * 400 + if month ≤ 2 then 1 else 0
  ⟨year, month, doy - (153 * mp + 2) / 5 + 1⟩

def padded (width n : Nat) : String :=
  let digits := Nat.toDigits 10 n
  String.ofList (List.replicate (width - digits.length) '0' ++ digits)

def monthNames : List String :=
  ["Jan", "Feb", "Mar", "Apr", "May", "Jun", "Jul", "Aug", "Sep", "Oct", "Nov", "Dec"]

def dayNames : List String := ["Thu", "Fri", "Sat", "Sun", "Mon", "Tue", "Wed"]

def signed (year : Int) (width : Nat) : String :=
  (if year < 0 then "-" else "") ++ padded width year.natAbs

/-- The time of day, to the second. -/
def clock (ms : Nat) : String :=
  padded 2 (ms / 3600000) ++ ":" ++ padded 2 (ms / 60000 % 60) ++ ":" ++ padded 2 (ms / 1000 % 60)

/-- The long text of a point in time. -/
def text (ms : Int) : String :=
  let days := ms.fdiv msPerDay
  let d := dayOf days
  dayNames.getD (days.fmod 7).toNat "" ++ " " ++ monthNames.getD (d.month - 1) "" ++ " " ++
    padded 2 d.day ++ " " ++ signed d.year 4 ++ " " ++ clock (ms.fmod msPerDay).toNat ++
    " GMT+0000 (Coordinated Universal Time)"

/-- The interchange text of a point in time. -/
def isoText (ms : Int) : String :=
  let d := dayOf (ms.fdiv msPerDay)
  let rest := (ms.fmod msPerDay).toNat
  let year :=
    if 0 ≤ d.year ∧ d.year ≤ 9999 then padded 4 d.year.natAbs
    else (if d.year < 0 then "-" else "+") ++ padded 6 d.year.natAbs
  year ++ "-" ++ padded 2 d.month ++ "-" ++ padded 2 d.day ++ "T" ++ clock rest ++ "." ++
    padded 3 (rest % 1000) ++ "Z"

end LiveTemplate.Time
