import LiveTemplate.Snapshot

/-!
Mounting during renders. A mount key keeps its component number as long as every render mounts
it; a key that a render leaves out is forgotten, and numbers are never used again. What a render
mounts counts once the render is done. Slot content belongs to the render that made it: when a
later render shows it again, its components are still mounted in the earlier one.
-/

namespace LiveTemplate

set_option autoImplicit false

/-- The mount keys of the last render with their component numbers, and the next unused number. -/
structure Registry where
  live : Assoc String Nat := []
  next : Nat := 1

/-- The bookkeeping of one render. -/
structure Arena where
  /-- The number of the render before. -/
  previous : Option Nat := none
  /-- Keys that this render mounted or kept. -/
  mounted : Assoc String Nat := []
  nodes : List Instance := []
  /-- Components mounted from slot content, by the component and slot they were handed to. -/
  children : Assoc Nat (Assoc String (List Nat)) := []
  /-- Components kept without being rendered. -/
  retained : List Nat := []
deriving Inhabited

namespace Arena

def find? (a : Arena) (cid : Nat) : Option Instance := a.nodes.find? fun n => n.cid == cid

/-- Notes that a key is mounted. -/
def note (a : Arena) (key : String) (cid : Nat) : Arena :=
  { a with mounted := Assoc.set a.mounted key cid }

/-- Children mounted in this render, then earlier ones that were kept. -/
def childrenOf (a : Arena) (cid : Nat) (before : Option Instance) : Assoc String (List Nat) :=
  let fresh := (Assoc.get? a.children cid).getD []
  let earlier := (before.map Instance.children).getD []
  earlier.foldl (fun slots (slot, cids) =>
    let kept := cids.filter (· ∈ a.retained)
    if kept.isEmpty then slots
    else
      let held := (Assoc.get? slots slot).getD []
      Assoc.set slots slot (held ++ kept.filter (· ∉ held))) fresh

/-- Records a component under the slot whose content mounted it. -/
def recordChild (a : Arena) (owner : SlotOwner) (cid : Nat) : Arena :=
  let slots := (Assoc.get? a.children owner.cid).getD []
  let held := (Assoc.get? slots owner.slot).getD []
  { a with children := Assoc.set a.children owner.cid (Assoc.set slots owner.slot (held ++ [cid])) }

/-- Ends a mount with what the component rendered. -/
def leave (a : Arena) (cid : Nat) (key : String) (before : Option Instance) (tree : Tree)
    (assigns : Record Value) (owner : Option SlotOwner) : Arena :=
  let node : Instance := ⟨cid, key, tree, assigns, a.childrenOf cid before⟩
  let a := { a with nodes := a.nodes ++ [node] }
  match owner with
  | none => a
  | some owner => a.recordChild owner cid

/-- Keeps an instance as it was. -/
def keep (a : Arena) (node : Instance) : Arena :=
  { a.note node.key node.cid with
    nodes := a.nodes ++ [node]
    retained := a.retained ++ [node.cid] }

end Arena

/-- The renders of one page by their numbers, in the order in which they began, with the mount keys
and the identities of parts of trees that they share. -/
structure Mounts where
  registry : Registry := {}
  renders : List Arena := []
  nextPart : Identity := 0

/-- Steps of a render that may break a rule of mounting; what was done before stays done. -/
abbrev Mounting := ExceptT TreeError (StateM Mounts)

namespace Mounts

def arena (m : Mounts) (render : Nat) : Arena := m.renders.getD render {}

def update (m : Mounts) (render : Nat) (f : Arena → Arena) : Mounts :=
  { m with renders := m.renders.modify render f }

/-- The number of the render that begins next. -/
def nextRender (m : Mounts) : Nat := m.renders.length

/-- Begins a render after an earlier one. -/
def start (m : Mounts) (previous : Option Nat) : Mounts :=
  { m with renders := m.renders ++ [{ previous }] }

/-- An identity that no part of a tree has yet. -/
def newPart : Mounting Identity :=
  modifyGet fun m => (m.nextPart, { m with nextPart := m.nextPart + 1 })

/-- The instance that a component number had before a render. -/
def before? (m : Mounts) (render cid : Nat) : Option Instance :=
  (m.arena render).previous.bind fun earlier => (m.arena earlier).find? cid

/-- Starts to mount a key: its number, and the instance it had before. -/
def enter (render : Nat) (key : String) : Mounting (Nat × Option Instance) := do
  let m ← get
  if Assoc.contains (m.arena render).mounted key then throw (.mountedTwice key)
  match Assoc.get? m.registry.live key with
  | some cid =>
    set (m.update render fun a => a.note key cid)
    return (cid, m.before? render cid)
  | none =>
    let cid := m.registry.next
    let m := m.update render fun a => a.note key cid
    set { m with registry := { m.registry with next := cid + 1 } }
    return (cid, none)

/-- Keeps a component and all that it refers to, nested so deep at most. -/
def retainComponent (render : Nat) : Nat → Nat → Mounting Unit
  | 0, _ => throw .endless
  | depth + 1, cid => do
    let m ← get
    match m.before? render cid with
    | none => throw (.notMountedBefore cid)
    | some node =>
      let a := m.arena render
      if (a.find? cid).isSome || Assoc.contains a.mounted node.key then
        throw (.mountedTwice node.key)
      set (m.update render fun a => a.keep node)
      node.tree.refs.forM (retainComponent render depth)

/-- Keeps every component that a reused dynamic refers to. A component is kept once, so that the
number of earlier components bounds the nesting. -/
def retain (render : Nat) (dynamic : Dynamic) : Mounting Unit := do
  let m ← get
  let earlier := (m.arena render).previous.map fun n => (m.arena n).nodes.length
  dynamic.refs.forM (retainComponent render (earlier.getD 0 + 1))

/-- What a render leaves behind. -/
def snapshot (m : Mounts) (render : Nat) (root : Tree) : Snapshot := ⟨root, (m.arena render).nodes⟩

/-- Makes the mount keys of a render the live ones. -/
def commit (m : Mounts) (render : Nat) : Mounts :=
  { m with registry := { m.registry with live := (m.arena render).mounted } }

end Mounts

end LiveTemplate
