import LiveTemplate.Number
import LiveTemplate.Value

/-!
When values are the same. Compound values are the same only as one and the same value; beside that
stands the equality of content, which looks into lists and records, and the mark that tells where
two contents differ.
-/

namespace LiveTemplate.Value

set_option autoImplicit false

/-- Sameness up to a comparison of numbers. -/
def sameBy (numbers : Float → Float → Bool) (a b : Value) : Bool :=
  match a, b with
  | undefined, undefined => true
  | null, null => true
  | flag x, flag y => x == y
  | number x, number y => numbers x y
  | text s, text t => s == t
  | method m, method n => m == n
  | helper f, helper g => f == g
  | a, b =>
    match a.identity?, b.identity? with
    | some i, some j => i == j
    | _, _ => false

/-- The operator `===`: zeros are equal and a not-a-number differs from itself. -/
def strictEq : Value → Value → Bool := sameBy fun x y => x == y

/-- Indistinguishable values: the zeros differ and a not-a-number is itself. -/
def same : Value → Value → Bool := sameBy Number.same

/-- Membership in a collection: zeros are equal and a not-a-number is itself. -/
def sameMember : Value → Value → Bool := sameBy fun x y => x == y || (x.isNaN && y.isNaN)

mutual

/-- Equality of content: lists item by item, plain records field by field, and times. Anything
else is equal only to itself. -/
def deepEqual : Value → Value → Bool
  | list i xs, list j ys => i == j || itemsEqual xs ys
  | record i p fs, record j q gs =>
    i == j || (p.isPlain && q.isPlain && fs.length == gs.length && fieldsEqual fs gs)
  | date i t, date j u => i == j || (t.isSome && t == u)
  | a, b => same a b

def itemsEqual : List Value → List Value → Bool
  | [], [] => true
  | x :: xs, y :: ys => deepEqual x y && itemsEqual xs ys
  | _, _ => false

/-- Every field is found in the other record with an equal value. -/
def fieldsEqual : List (String × Value) → List (String × Value) → Bool
  | [], _ => true
  | (name, value) :: rest, others =>
    (match Assoc.get? others name with
      | some other => deepEqual value other
      | none => false) && fieldsEqual rest others

end

mutual

/-- How a value differs from an earlier one: not at all, in some of its fields when both are
plain records, or wholly. -/
def changeMark : Value → Value → Option Mark
  | record i p fs, record j q gs =>
    let changed := fieldMarks fs gs ++
      (gs.filter fun g => !Assoc.contains fs g.1).map fun g => (g.1, Mark.whole)
    if i == j then none
    else if !(p.isPlain && q.isPlain) then some .whole
    else if changed = [] then none
    else some (.parts (changed.filter fun m => m.1 ≠ parentName))
  | a, b => if deepEqual a b then none else some .whole

/-- The marks of the fields of the earlier record. -/
def fieldMarks : List (String × Value) → List (String × Value) → List (String × Mark)
  | [], _ => []
  | (name, value) :: rest, others =>
    let mark :=
      match Assoc.get? others name with
      | some other => changeMark value other
      | none => some .whole
    match mark with
    | some m => (name, m) :: fieldMarks rest others
    | none => fieldMarks rest others

end

end LiveTemplate.Value
