/-!
Spans: half-open ranges of offsets into a template.
-/

namespace LiveTemplate

set_option autoImplicit false

/-- The offsets from `start` up to, but not including, `stop`. -/
structure Span where
  start : Int
  stop : Int
deriving DecidableEq, Repr, Inhabited

namespace Span

/-- The span between two offsets, whichever comes first. -/
def between (a b : Int) : Span := if b < a then ⟨b, a⟩ else ⟨a, b⟩

/-- Moves both ends. -/
def shift (s : Span) (delta : Int) : Span := ⟨s.start + delta, s.stop + delta⟩

/-- The least span that holds both. -/
def cover (a b : Span) : Span := ⟨min a.start b.start, max a.stop b.stop⟩

/-- From the start of the first to the end of the second. -/
def join (a b : Span) : Span := ⟨a.start, b.stop⟩

@[simp] theorem shift_start (s : Span) (d : Int) : (s.shift d).start = s.start + d := rfl
@[simp] theorem shift_stop (s : Span) (d : Int) : (s.shift d).stop = s.stop + d := rfl
@[simp] theorem shift_zero (s : Span) : s.shift 0 = s := by simp [shift]

theorem shift_join (a b : Span) (d : Int) : (a.join b).shift d = (a.shift d).join (b.shift d) := rfl

theorem between_comm (a b : Int) : between a b = between b a := by
  unfold between
  split <;> split <;> simp <;> omega

end Span

end LiveTemplate
