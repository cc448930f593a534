/-!
Blank characters: the space separators of the character database, the line ends, the tab marks
and the byte order mark. Templates are trimmed and expressions are spaced by them.
-/

namespace LiveTemplate.Text

set_option autoImplicit false

/-- Whether a character counts as blank. The next-line mark U+0085 does not. -/
def isBlank (c : Char) : Bool :=
  let n := c.toNat
  (9 ≤ n && n ≤ 13) || n == 0x20 || n == 0xA0 || n == 0x1680 || (0x2000 ≤ n && n ≤ 0x200A) ||
    n == 0x2028 || n == 0x2029 || n == 0x202F || n == 0x205F || n == 0x3000 || n == 0xFEFF

theorem isBlank_of_isWhitespace {c : Char} (h : c.isWhitespace = true) : isBlank c = true := by
  simp only [Char.isWhitespace, Bool.or_eq_true, decide_eq_true_eq] at h
  rcases h with ((h | h) | h) | h <;> subst h <;> decide

/-- Drops blanks from the front. -/
def trimFront (cs : List Char) : List Char := cs.dropWhile isBlank

/-- Drops blanks from the back. -/
def trimBack : List Char → List Char
  | [] => []
  | c :: cs =>
    match trimBack cs with
    | [] => if isBlank c then [] else [c]
    | d :: ds => c :: d :: ds

/-- Drops blanks from both ends. -/
def trim (cs : List Char) : List Char := trimBack (trimFront cs)

/-- Whether a text holds blanks only. -/
def allBlank (cs : List Char) : Bool := cs.all isBlank

end LiveTemplate.Text
