/-!
Offsets into text count 16-bit units: a character of the basic plane takes one, any other takes
two. Text itself stays a list of characters; this module measures, cuts and orders it by units.
-/

namespace LiveTemplate.Text

set_option autoImplicit false

/-- The 16-bit units a character takes. -/
def units (c : Char) : Nat := if c.toNat < 0x10000 then 1 else 2

/-- The length of a text in units. -/
def width : List Char → Nat
  | [] => 0
  | c :: cs => units c + width cs

/-- The length of a string in units. -/
def length (s : String) : Nat := width s.toList

theorem units_pos (c : Char) : 0 < units c := by unfold units; split <;> decide

@[simp] theorem width_nil : width [] = 0 := rfl

@[simp] theorem width_cons (c : Char) (cs : List Char) : width (c :: cs) = units c + width cs := rfl

@[simp] theorem width_append (xs ys : List Char) : width (xs ++ ys) = width xs + width ys := by
  induction xs with
  | nil => simp
  | cons c cs ih => simp [ih, Nat.add_assoc]

theorem length_le_width (cs : List Char) : cs.length ≤ width cs := by
  induction cs with
  | nil => simp
  | cons c cs ih => have := units_pos c; simp; omega

/-- What is left after the first `n` units. -/
def drop : Nat → List Char → List Char
  | 0, cs => cs
  | _, [] => []
  | n + 1, c :: cs => drop (n + 1 - units c) cs
termination_by _ cs => cs.length

/-- The characters that lie wholly within the first `n` units. -/
def take (n : Nat) : List Char → List Char
  | [] => []
  | c :: cs => if units c ≤ n then c :: take (n - units c) cs else []

/-- The text between two offsets; empty when the end comes first. -/
def slice (start stop : Nat) (cs : List Char) : List Char := take (stop - start) (drop start cs)

@[simp] theorem drop_zero (cs : List Char) : drop 0 cs = cs := by unfold drop; rfl

@[simp] theorem drop_nil (n : Nat) : drop n [] = [] := by cases n <;> simp [drop]

theorem drop_width (xs ys : List Char) : drop (width xs) (xs ++ ys) = ys := by
  induction xs with
  | nil => simp
  | cons c cs ih =>
    have h := units_pos c
    obtain ⟨n, hn⟩ : ∃ n, units c + width cs = n + 1 := ⟨units c + width cs - 1, by omega⟩
    simp only [width_cons, List.cons_append, hn]
    unfold drop
    have : n + 1 - units c = width cs := by omega
    simpa [this] using ih

theorem take_width (xs ys : List Char) : take (width xs) (xs ++ ys) = xs := by
  induction xs with
  | nil =>
    cases ys with
    | nil => rfl
    | cons c cs => have := units_pos c; simp [take]; omega
  | cons c cs ih => simp [take, ih]

/-- A slice cut at the ends of a middle part is that part. -/
theorem slice_middle (xs ys zs : List Char) :
    slice (width xs) (width xs + width ys) (xs ++ (ys ++ zs)) = ys := by
  simp [slice, drop_width, take_width]

/-- The codes of a character's units. -/
def codes (c : Char) : List Nat :=
  if c.toNat < 0x10000 then [c.toNat]
  else [0xD800 + (c.toNat - 0x10000) / 0x400, 0xDC00 + (c.toNat - 0x10000) % 0x400]

/-- The codes of a text's units. -/
def allCodes (cs : List Char) : List Nat := cs.flatMap codes

/-- The dictionary order of two lists of codes. -/
def compareCodes : List Nat → List Nat → Ordering
  | [], [] => .eq
  | [], _ :: _ => .lt
  | _ :: _, [] => .gt
  | x :: xs, y :: ys => if x < y then .lt else if y < x then .gt else compareCodes xs ys

/-- The order of strings: unit by unit. -/
def compare (s t : String) : Ordering := compareCodes (allCodes s.toList) (allCodes t.toList)

end LiveTemplate.Text
