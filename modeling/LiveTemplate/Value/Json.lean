import LiveTemplate.Value.Members

/-!
The interchange text of values. A value with a method for it is written as what that method gives.
Functions and undefined values have no text: records leave them out, and in lists they are null.
-/

namespace LiveTemplate.Value

set_option autoImplicit false

/-- How deep an interchange text may nest. -/
def jsonDepth : Nat := 3000

/-- What a value under a key is written as. -/
def interchanged (call : Call) (key : String) (v : Value) : Eval Value := do
  if !v.isCompound then return v
  let f ← v.member "toJSON"
  if f.isFunction then call f v [text key] else return v

/-- The interchange text of a value under a key, if it has one, nested so deep at most. -/
def jsonWithin (call : Call) : Nat → String → Value → Eval (Option String)
  | 0, _, _ => throw .outOfRange
  | depth + 1, key, v => do
    match ← v.interchanged call key with
    | undefined | method _ | helper _ | closure _ _ _ _ => return none
    | null => return some "null"
    | flag b => return some (if b then "true" else "false")
    | number x => return some (if x.isNaN || x.isInf then "null" else Number.text x)
    | text s => return some (Text.quote s)
    | list _ items =>
      let texts ← items.zipIdx.mapM fun (item, i) => jsonWithin call depth (toString i) item
      return some ("[" ++ String.intercalate "," (texts.map (·.getD "null")) ++ "]")
    | v =>
      let texts ← v.entries.filterMapM fun (name, field) => do
        let text ← jsonWithin call depth name field
        return text.map fun t => Text.quote name ++ ":" ++ t
      return some ("\x7b" ++ String.intercalate "," texts ++ "\x7d")

/-- The interchange text as messages show it. -/
def json (call : Call) (v : Value) : Eval String := do
  return (← jsonWithin call jsonDepth "" v).getD "undefined"

end LiveTemplate.Value
