import LiveTemplate.Text.Units

/-!
Matching braces. Quoted runs are skipped as wholes; a backslash in them protects one character.
The lexer of templates and the reader of expressions both decide by this module where an
expression between braces ends.
-/

namespace LiveTemplate.Text

set_option autoImplicit false

/-- Whether a character opens a quoted run: a double, single or back quote. -/
def isQuote (c : Char) : Bool := c = '\x22' || c = '\x27' || c = '\x60'

/-- How many characters complete a quoted run, its closing quote included. An open run takes the
rest of the text. -/
def quotedLength (quote : Char) : List Char → Nat
  | [] => 0
  | ['\\'] => 1
  | '\\' :: _ :: cs => 2 + quotedLength quote cs
  | c :: cs => if c = quote then 1 else 1 + quotedLength quote cs

/-- How many characters it takes to close `depth + 1` open braces, the last closing brace
included; none when the text ends first. -/
def closeLength (depth : Nat) : List Char → Option Nat
  | [] => none
  | c :: cs =>
    if isQuote c then
      (closeLength depth (cs.drop (quotedLength c cs))).map (1 + quotedLength c cs + ·)
    else if c = '{' then (closeLength (depth + 1) cs).map (1 + ·)
    else if c = '}' then
      match depth with
      | 0 => some 1
      | d + 1 => (closeLength d cs).map (1 + ·)
    else (closeLength depth cs).map (1 + ·)
termination_by cs => cs.length

theorem closeLength_pos {depth : Nat} {cs : List Char} {n : Nat}
    (h : closeLength depth cs = some n) : 0 < n := by
  unfold closeLength at h
  split at h
  · simp at h
  · split at h
    · obtain ⟨m, _, rfl⟩ := Option.map_eq_some_iff.1 h; omega
    · split at h
      · obtain ⟨m, _, rfl⟩ := Option.map_eq_some_iff.1 h; omega
      · split at h
        · split at h
          · simp at h; omega
          · obtain ⟨m, _, rfl⟩ := Option.map_eq_some_iff.1 h; omega
        · obtain ⟨m, _, rfl⟩ := Option.map_eq_some_iff.1 h; omega

end LiveTemplate.Text
