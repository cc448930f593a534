import LiveTemplate.SyntaxError
import LiveTemplate.Text.Cut

/-!
Segments: a template cut at its embedded code markers. `<%= code %>` is an output marker,
`<% code %>` a control marker, `<%# text %>` a comment that is dropped, and `<%%` stands for the
two characters `<%`.
-/

namespace LiveTemplate

set_option autoImplicit false

inductive MarkerKind where
  | output | control
deriving DecidableEq, Repr, Inhabited

def MarkerKind.text : MarkerKind → String
  | output => "output"
  | control => "control"

/-- A run of text or a code marker. Starts are offsets into the template. -/
inductive Segment where
  | text (content : List Char) (start : Nat)
  | marker (kind : MarkerKind) (code : List Char) (codeStart start stop : Nat)
deriving DecidableEq, Repr, Inhabited

namespace Segment

/-- A text segment, unless it is empty. `pending` holds its characters in reverse. -/
def flush (pending : List Char) (start : Nat) : List Segment :=
  if pending = [] then [] else [.text pending.reverse start]

/-- The segment of a marker that stands at an offset; none for a comment. -/
def ofMarker (inside : List Char) (start : Nat) : List Segment :=
  let stop := start + 2 + Text.width inside + 2
  match inside with
  | '#' :: _ => []
  | '=' :: code => [.marker .output code (start + 3) start stop]
  | code => [.marker .control code (start + 2) start stop]

/-- Cuts the rest of a template that stands at `offset`; the text since `start` is pending. -/
def split (cs : List Char) (offset : Nat) (pending : List Char) (start : Nat) :
    Except SyntaxError (List Segment) :=
  match cs with
  | [] => .ok (flush pending start)
  | '<' :: '%' :: '%' :: rest => do
    let more ← split rest (offset + 3) [] (offset + 3)
    .ok (flush ('%' :: '<' :: pending) start ++ more)
  | '<' :: '%' :: rest =>
    match _h : Text.cut? ['%', '>'] rest with
    | none => .error ⟨.openMarker, ⟨offset, offset + Text.width cs⟩⟩
    | some (inside, after) => do
      let stop := offset + 2 + Text.width inside + 2
      let more ← split after stop [] stop
      .ok (flush pending start ++ ofMarker inside offset ++ more)
  | c :: rest => split rest (offset + Text.units c) (c :: pending) start
termination_by cs.length
decreasing_by
  · simp; omega
  · have := Text.length_of_cut? _h; simp; omega
  · simp

/-- The segments of a template. -/
def ofSource (source : Source) : Except SyntaxError (List Segment) := split source.chars 0 [] 0

end Segment

end LiveTemplate
