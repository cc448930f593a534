import LiveTemplate.Record

/-!
What changed between two renders. A changed-set names bindings; under each it either marks the
whole binding or tells which of its fields changed. No set at all means that nothing is known and
everything counts as changed.
-/

namespace LiveTemplate

set_option autoImplicit false

/-- The whole of a binding, or a set of its fields. -/
inductive Mark where
  | whole
  | parts (fields : List (String × Mark))
deriving Inhabited

/-- Changed bindings with their marks. -/
abbrev ChangedSet := Record Mark

namespace Mark

/-- Whether a read that goes on along a path meets a change below a mark. A path that walks past a
whole mark does; so does one that stops at a set, since the read covers all below it. -/
def reaches : Option Mark → List String → Bool
  | none, _ => false
  | some _, [] => true
  | some whole, _ :: _ => true
  | some (parts fields), segment :: path => reaches (Assoc.get? fields segment) path

theorem reaches_whole (path : List String) : reaches (some whole) path = true := by
  cases path <;> rfl

mutual

/-- Both marks together; the whole absorbs any part. -/
def merge (a : Mark) : Mark → Mark
  | whole => whole
  | parts more =>
    match a with
    | whole => whole
    | parts fields => parts (mergeFields fields more)

/-- Adds marks to a set. A name that stands for the parent is not added. -/
def mergeFields (fields : List (String × Mark)) : List (String × Mark) → List (String × Mark)
  | [] => fields
  | (name, mark) :: rest =>
    match Assoc.get? fields name with
    | some old => mergeFields (Record.insert fields name (merge old mark)) rest
    | none =>
      if name = parentName then mergeFields fields rest
      else mergeFields (Record.insert fields name mark) rest

end

end Mark

namespace ChangedSet

/-- Adds a mark to what is already marked under a name. -/
def add (changed : ChangedSet) (name : String) (mark : Mark) : ChangedSet :=
  Mark.mergeFields changed [(name, mark)]

def merge (a b : ChangedSet) : ChangedSet := Mark.mergeFields a b

/-- Whether a read of a binding, followed by a path of fields, may observe a change. -/
def reaches (changed : Option ChangedSet) (key : String) (path : List String) : Bool :=
  match changed with
  | none => true
  | some set => Mark.reaches (Assoc.get? set key) path

end ChangedSet

end LiveTemplate
