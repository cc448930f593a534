import LiveTemplate.Text.Units

/-!
Cutting a text at the first occurrence of a mark, and searching it.
-/

namespace LiveTemplate.Text

set_option autoImplicit false

/-- The text before and after the first occurrence of a mark. -/
def cut? (mark : List Char) : List Char → Option (List Char × List Char)
  | [] => if mark = [] then some ([], []) else none
  | c :: cs =>
    if mark.isPrefixOf (c :: cs) then some ([], (c :: cs).drop mark.length)
    else (cut? mark cs).map fun (before, after) => (c :: before, after)

/-- A cut loses nothing but the mark. -/
theorem eq_of_cut? {mark cs before after : List Char} (h : cut? mark cs = some (before, after)) :
    cs = before ++ (mark ++ after) := by
  induction cs generalizing before after with
  | nil =>
    simp only [cut?] at h
    split at h
    · rename_i hm
      simp only [Option.some.injEq, Prod.mk.injEq] at h
      simp [← h.1, ← h.2, hm]
    · simp at h
  | cons c cs ih =>
    simp only [cut?] at h
    split at h
    · rename_i hp
      simp only [Option.some.injEq, Prod.mk.injEq] at h
      obtain ⟨rest, hr⟩ := List.isPrefixOf_iff_prefix.1 hp
      rw [← h.1, ← h.2, ← hr]
      simp
    · obtain ⟨⟨b, a⟩, hb, he⟩ := Option.map_eq_some_iff.1 h
      simp only [Prod.mk.injEq] at he
      rw [← he.1, ← he.2, ih hb]
      rfl

theorem length_of_cut? {mark cs before after : List Char}
    (h : cut? mark cs = some (before, after)) :
    before.length + mark.length + after.length = cs.length := by
  rw [eq_of_cut? h]
  simp
  omega

/-- The pieces of a text between the occurrences of a character. -/
def splitAt (mark : Char) : List Char → List (List Char)
  | [] => [[]]
  | c :: cs =>
    if c = mark then [] :: splitAt mark cs
    else match splitAt mark cs with
      | piece :: pieces => (c :: piece) :: pieces
      | [] => [[c]]

/-! ### Searching and cutting by 16-bit units, as the methods of strings do -/

/-- The offset of the first occurrence of a part at or after an offset. The empty part is found at
once, even between the two units of a character. -/
def find? (part : List Char) (start : Nat) (cs : List Char) : Option Nat :=
  let rest := drop start cs
  if part = [] then some (min start (width cs))
  else (cut? part rest).map fun cut => width cs - width rest + width cut.1

/-- Whether a part stands at an offset. Only the empty part stands between the two units of a
character. -/
def standsAt (part : List Char) (start : Nat) (cs : List Char) : Bool :=
  let rest := drop start cs
  part = [] || (start + width rest = width cs && part.isPrefixOf rest)

/-- Whether a part ends at an offset. -/
def endsAt (part : List Char) (stop : Nat) (cs : List Char) : Bool :=
  let front := take stop cs
  part = [] || (width front = stop && part.isSuffixOf front)

/-- The pieces between the occurrences of a separator; an empty one separates all characters. -/
def splitOn (separator : List Char) (cs : List Char) : List (List Char) :=
  if separator = [] then cs.map fun c => [c]
  else match _h : cut? separator cs with
    | none => [cs]
    | some (before, after) => before :: splitOn separator after
termination_by cs.length
decreasing_by
  have h := length_of_cut? _h
  have : 0 < separator.length := List.length_pos_iff.2 (by assumption)
  omega

/-- The text that stands for the first occurrence of a part: a dollar sign and a mark stand for
the dollar sign itself, the part, and the texts before and after it. -/
def replacement (before part after : List Char) : List Char → List Char
  | '$' :: '$' :: rest => '$' :: replacement before part after rest
  | '$' :: '&' :: rest => part ++ replacement before part after rest
  | '$' :: '\x60' :: rest => before ++ replacement before part after rest
  | '$' :: '\x27' :: rest => after ++ replacement before part after rest
  | c :: rest => c :: replacement before part after rest
  | [] => []

/-- Fills a text up from the front with repetitions of a filler. -/
def padFront (length : Nat) (filler cs : List Char) : List Char :=
  let missing := length - width cs
  if filler = [] then cs
  else take missing (List.replicate missing filler).flatten ++ cs

end LiveTemplate.Text
