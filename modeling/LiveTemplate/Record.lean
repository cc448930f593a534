import LiveTemplate.Assoc

/-!
Records: named fields with one rule of order. Names that read as a list index come first, by
number; the others follow in the order of their first assignment.
-/

namespace LiveTemplate

set_option autoImplicit false

universe u

/-- Reads decimal digits onto a running number. -/
def Record.readDigits : List Char → Nat → Option Nat
  | [], n => some n
  | c :: cs, n => if c.isDigit then readDigits cs (n * 10 + (c.toNat - '0'.toNat)) else none

/-- The list index a field name spells: canonical decimal digits below 2^32 - 1. -/
def Record.index? (name : String) : Option Nat :=
  match name.toList with
  | [] => none
  | ['0'] => some 0
  | '0' :: _ => none
  | digits =>
    match readDigits digits 0 with
    | some n => if n < 4294967295 then some n else none
    | none => none

/-- The name under which a record is given a parent. It is no field of its own. -/
def parentName : String := "__proto__"

/-- The names that every record answers to although it does not hold them. -/
def sharedNames : List String :=
  ["toString", "valueOf", "hasOwnProperty", "constructor", "isPrototypeOf", "propertyIsEnumerable",
    "toLocaleString", "__defineGetter__", "__defineSetter__", "__lookupGetter__",
    "__lookupSetter__", parentName]

/-- Fields of a record, in the order in which they are listed. -/
abbrev Record (α : Type u) := Assoc String α

namespace Record

variable {α : Type u}

/-- Places a new index field before the first field that does not precede it. -/
def place (fields : Record α) (n : Nat) (name : String) (value : α) : Record α :=
  match fields with
  | [] => [(name, value)]
  | (k, v) :: rest =>
    match index? k with
    | some m => if m < n then (k, v) :: place rest n name value else (name, value) :: (k, v) :: rest
    | none => (name, value) :: (k, v) :: rest

/-- Assigns a field. -/
def insert (fields : Record α) (name : String) (value : α) : Record α :=
  if Assoc.contains fields name then Assoc.set fields name value
  else match index? name with
    | some n => place fields n name value
    | none => fields ++ [(name, value)]

/-- The record that assigning the pairs in turn builds. -/
def ofPairs (pairs : List (String × α)) : Record α :=
  pairs.foldl (fun acc e => insert acc e.1 e.2) []

/-- Assigns every field of a second record, in its order. -/
def merge (fields more : Record α) : Record α :=
  more.foldl (fun acc e => insert acc e.1 e.2) fields

theorem get?_place (fields : Record α) (n : Nat) (name other : String) (value : α)
    (h : Assoc.get? fields name = none) :
    Assoc.get? (place fields n name value) other =
      if name = other then some value else Assoc.get? fields other := by
  induction fields with
  | nil => simp [place, Assoc.get?]
  | cons e rest ih =>
    have hne : ¬ e.1 = name := by
      intro he
      simp [Assoc.get?, he] at h
    have hr : Assoc.get? rest name = none := by simpa [Assoc.get?, hne] using h
    unfold place
    split
    · split
      · by_cases ho : e.1 = other
        · have : ¬ name = other := fun hn => hne (ho.trans hn.symm)
          simp [Assoc.get?, ho, this]
        · simp [Assoc.get?, ho, ih hr]
      · simp [Assoc.get?]
    · simp [Assoc.get?]

theorem get?_append_new (fields : Record α) (name other : String) (value : α)
    (h : Assoc.get? fields name = none) :
    Assoc.get? (fields ++ [(name, value)]) other =
      if name = other then some value else Assoc.get? fields other := by
  induction fields with
  | nil => simp [Assoc.get?]
  | cons e rest ih =>
    have hne : ¬ e.1 = name := by
      intro he
      simp [Assoc.get?, he] at h
    have hr : Assoc.get? rest name = none := by simpa [Assoc.get?, hne] using h
    by_cases ho : e.1 = other
    · have : ¬ name = other := fun hn => hne (ho.trans hn.symm)
      simp [Assoc.get?, ho, this]
    · simp [Assoc.get?, ho, ih hr]

/-- Reading after an assignment: the new value under its name, the old ones elsewhere. -/
theorem get?_insert (fields : Record α) (name other : String) (value : α) :
    Assoc.get? (insert fields name value) other =
      if name = other then some value else Assoc.get? fields other := by
  unfold insert
  split
  · by_cases h : name = other
    · subst h; simp [Assoc.get?_set_self]
    · simp [Assoc.get?_set_of_ne _ _ h, h]
  · rename_i hc
    have hn : Assoc.get? fields name = none := by simpa [Assoc.contains] using hc
    split
    · exact get?_place _ _ _ _ _ hn
    · exact get?_append_new _ _ _ _ hn

end Record

end LiveTemplate
