import LiveTemplate.Text.Case.Runs

/-!
Texts in small and in capital letters. Most letters have one counterpart; a few capitals are
written with several letters, and a sigma at the end of a word has a small form of its own.
-/

namespace LiveTemplate.Text

set_option autoImplicit false

/-- The small form of a character that does not stand at the end of a word. -/
def lowerChar (c : Char) : List Char :=
  if c.toNat < 0x80 then [c.toLower]
  else if c.toNat = 0x130 then ['i', Char.ofNat 0x307]
  else [CaseRun.counterpart lowerRuns c]

/-- The capital form of a character. -/
def upperChar (c : Char) : List Char :=
  if c.toNat < 0x80 then [c.toUpper]
  else match upperExpansions.lookup c.toNat with
    | some letters => letters.map Char.ofNat
    | none => [CaseRun.counterpart upperRuns c]

/-- Whether a character is a letter of some case. -/
def isCased (c : Char) : Bool := lowerChar c != [c] || upperChar c != [c]

/-- Signs within a word that are passed over when its end is looked for: apostrophes, points,
modifiers, combining marks and marks without a width. -/
def isPassedOver (c : Char) : Bool :=
  let n := c.toNat
  n ∈ [0x27, 0x2E, 0x3A, 0x5E, 0x60, 0xA8, 0xAD, 0xAF, 0xB4, 0xB7, 0xB8, 0x37A, 0x384, 0x385, 0x387,
      0x2018, 0x2019, 0x2024, 0x2027, 0xFEFF] ||
    (0x2B0 ≤ n && n ≤ 0x36F) || (0x483 ≤ n && n ≤ 0x489) || (0x1AB0 ≤ n && n ≤ 0x1AFF) ||
    (0x1DC0 ≤ n && n ≤ 0x1DFF) || (0x200B ≤ n && n ≤ 0x200F) || (0x20D0 ≤ n && n ≤ 0x20F0) ||
    (0xFE00 ≤ n && n ≤ 0xFE0F) || (0xFE20 ≤ n && n ≤ 0xFE2F)

/-- Whether the next character that is not passed over is a letter with a case. -/
def meetsCased (cs : List Char) : Bool := ((cs.dropWhile isPassedOver).take 1).any isCased

/-- A text in small letters, after the characters before it, the nearest first. -/
def lowerAfter : List Char → List Char → List Char
  | _, [] => []
  | before, c :: rest =>
    let small :=
      if c = 'Σ' ∧ meetsCased before ∧ ¬ meetsCased rest then ['ς'] else lowerChar c
    small ++ lowerAfter (c :: before) rest

/-- A text in small letters. -/
def lowerCase (cs : List Char) : List Char := lowerAfter [] cs

/-- A text in capital letters. -/
def upperCase (cs : List Char) : List Char := cs.flatMap upperChar

end LiveTemplate.Text
