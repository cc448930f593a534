import LiveTemplate.Value.Sameness

/-!
Maps, sets and times, made from what they are given. No two keys of a map and no two items of a set
are the same; a time is a whole number of milliseconds within a fixed range.
-/

namespace LiveTemplate.Value

set_option autoImplicit false

/-- A key as a collection keeps it: there is one zero. -/
def asMember : Value → Value
  | number x => number (if x == 0 then 0 else x)
  | v => v

/-- Sets the value of a key; a new key comes last. -/
def setEntry (key value : Value) : List (Value × Value) → List (Value × Value)
  | [] => [(key.asMember, value)]
  | (k, v) :: rest =>
    if sameMember k key then (k, value) :: rest else (k, v) :: setEntry key value rest

/-- The map that setting entries in turn makes. -/
def mapOf (id : Identity) (entries : List (Value × Value)) : Value :=
  map id (entries.foldl (fun held e => setEntry e.1 e.2 held) [])

/-- Adds an item, unless it is there already. -/
def addItem (held : List Value) (v : Value) : List Value :=
  if held.any (sameMember v) then held else held ++ [v.asMember]

/-- The set that adding items in turn makes. -/
def setOf (id : Identity) (items : List Value) : Value := set id (items.foldl addItem [])

/-- The milliseconds that a time can lie from the start of 1970, either way. -/
def furthestTime : Float := 8640000000000000

/-- The time that a number of milliseconds tells; an invalid one out of range. -/
def dateOf (id : Identity) (ms : Float) : Value :=
  date id (if -furthestTime ≤ ms && ms ≤ furthestTime then Number.truncate? ms else none)

end LiveTemplate.Value
