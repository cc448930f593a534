/-!
Reordering by moves. Items that keep their relative order stay where they are: they are found as a
longest increasing subsequence of positions. Every other item is taken out and put right behind
the item that comes before it in the end.
-/

namespace LiveTemplate

set_option autoImplicit false

universe u

/-- Takes the item at `source` out and puts it back at `target`. -/
structure Move where
  source : Int
  target : Int
deriving DecidableEq, Repr, Inhabited

namespace Move

/-- Best ends of increasing subsequences, one for each length: the last value, and the indices of
the subsequence, last first. -/
abbrev Piles := List (Int × List Nat)

/-- Puts a value on the first pile whose top is not below it; `before` are the indices on top of
the pile to the left. -/
def place (value : Int) (index : Nat) (before : List Nat) : Piles → Piles
  | [] => [(value, index :: before)]
  | (top, chain) :: rest =>
    if top < value then (top, chain) :: place value index chain rest
    else (value, index :: before) :: rest

/-- The piles of a list of values, from an index on. -/
def pile : List Int → Nat → Piles → Piles
  | [], _, piles => piles
  | value :: rest, index, piles => pile rest (index + 1) (place value index [] piles)

/-- The indices of a longest strictly increasing subsequence. -/
def longestIncreasing (values : List Int) : List Nat :=
  match (pile values 0 []).getLast? with
  | some (_, chain) => chain.reverse
  | none => []

/-- An offset that may count from the end, within a length. -/
def offset (i : Int) (length : Nat) : Nat :=
  if i < 0 then (length + i).toNat else min i.toNat length

variable {κ : Type u} [DecidableEq κ]

/-- Where a key stands; minus one when it does not. -/
def indexOf (key : κ) (keys : List κ) : Int :=
  match keys.findIdx? (· = key) with
  | some i => i
  | none => -1

/-- Where a key last stands; minus one when it does not. -/
def lastIndexOf (key : κ) (keys : List κ) : Int :=
  match keys.reverse.findIdx? (· = key) with
  | some i => keys.length - 1 - i
  | none => -1

/-- The list without the item at an offset. -/
def takeOut {α : Type u} (i : Int) (items : List α) : List α :=
  items.eraseIdx (offset i items.length)

/-- The list with an item at an offset. -/
def putIn {α : Type u} (i : Int) (item : α) (items : List α) : List α :=
  let n := offset i items.length
  items.take n ++ item :: items.drop n

/-- Moves every key that does not stay behind the key before it. -/
def planAfter (stable : List κ) : Option κ → List κ → List κ → List Move
  | _, [], _ => []
  | before, key :: rest, working =>
    if key ∈ stable then planAfter stable (some key) rest working
    else
      let source := indexOf key working
      let others := takeOut source working
      let target :=
        match before with
        | none => 0
        | some k => indexOf k others + 1
      ⟨source, target⟩ :: planAfter stable (some key) rest (putIn target key others)

/-- The keys that stay where they are. -/
def stableKeys (current target : List κ) : List κ :=
  (longestIncreasing (target.map fun key => lastIndexOf key current)).filterMap fun i => target[i]?

/-- Moves that turn one order into another. -/
def plan (current target : List κ) : List Move :=
  planAfter (stableKeys current target) none target current

/-- Makes one move; one that starts outside the list moves nothing. -/
def apply {α : Type u} (items : List α) (move : Move) : List α :=
  match items[offset move.source items.length]? with
  | none => items
  | some item => putIn move.target item (takeOut move.source items)

/-- Makes moves one after the other. -/
def applyAll {α : Type u} (items : List α) (moves : List Move) : List α := moves.foldl apply items

end Move

end LiveTemplate
