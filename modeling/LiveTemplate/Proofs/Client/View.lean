import LiveTemplate.Proofs.Client.Encoding
import LiveTemplate.Snapshot
import Mathlib.Data.List.Nodup
import Mathlib.Data.List.Perm.Basic

/-!
The page of a client: the root and the components that it holds. A client starts from the message of
the first render and applies every later one that is not empty.
-/

namespace LiveTemplate

set_option autoImplicit false

structure Client where
  root : HeldTree
  components : Assoc Nat HeldTree

/-! ### The text of a page -/

mutual

def HeldSlot.htmlWith (component : Nat → Except TreeError String) :
    HeldSlot → Except TreeError String
  | .text s => .ok s
  | .component cid => component cid
  | .tree tree => HeldTree.htmlWith component tree
  | .list trees => String.join <$> HeldTree.allHtmlWith component trees
  | .rows statics rows => String.join <$> HeldSlot.rowsHtmlWith component statics rows

def HeldTree.htmlWith (component : Nat → Except TreeError String) :
    HeldTree → Except TreeError String
  | ⟨statics, slots⟩ => interleave statics <$> HeldSlot.allHtmlWith component slots

def HeldSlot.allHtmlWith (component : Nat → Except TreeError String) :
    List HeldSlot → Except TreeError (List String)
  | [] => .ok []
  | s :: rest => do
    let text ← HeldSlot.htmlWith component s
    let texts ← HeldSlot.allHtmlWith component rest
    .ok (text :: texts)

def HeldTree.allHtmlWith (component : Nat → Except TreeError String) :
    List HeldTree → Except TreeError (List String)
  | [] => .ok []
  | t :: rest => do
    let text ← HeldTree.htmlWith component t
    let texts ← HeldTree.allHtmlWith component rest
    .ok (text :: texts)

def HeldSlot.rowsHtmlWith (component : Nat → Except TreeError String) (statics : List String) :
    List (List HeldSlot) → Except TreeError (List String)
  | [] => .ok []
  | r :: rest => do
    let text ← interleave statics <$> HeldSlot.allHtmlWith component r
    let texts ← HeldSlot.rowsHtmlWith component statics rest
    .ok (text :: texts)

end

/-- The text of a component, nested so deep at most. -/
def heldHtml (table : Nat → Option HeldTree) : Nat → Nat → Except TreeError String
  | 0, _ => .error .endless
  | depth + 1, cid =>
    match table cid with
    | none => .error (.notMounted cid)
    | some tree => tree.htmlWith (heldHtml table depth)

/-- The text that a client shows. -/
def Client.html (client : Client) : Except TreeError String :=
  client.root.htmlWith
    (heldHtml (Assoc.get? client.components) (client.components.length + 1))

def Client.cids (client : Client) : List Nat := Assoc.keys client.components

section Html
variable (component : Nat → Except TreeError String)

mutual

/-- What is held of a tree has the text of the tree. -/
theorem Tree.htmlWith_held : ∀ t : Tree, t.held.htmlWith component = t.htmlWith component
  | ⟨_, statics, dynamics, _, _⟩ => by
    rw [Tree.held, HeldTree.htmlWith, Tree.htmlWith, Dynamic.allHtmlWith_held dynamics]

theorem Dynamic.htmlWith_held : ∀ d : Dynamic, d.held.htmlWith component = d.htmlWith component
  | ⟨_, content⟩ => by
    rw [Dynamic.held, Dynamic.htmlWith, Content.htmlWith_held content]

theorem Content.htmlWith_held : ∀ c : Content, c.held.htmlWith component = c.htmlWith component
  | .text s => rfl
  | .component cid => rfl
  | .nested tree => by
    rw [Content.held, HeldSlot.htmlWith, Content.htmlWith, Tree.htmlWith_held tree]
  | .list trees => by
    rw [Content.held, HeldSlot.htmlWith, Content.htmlWith, Tree.allHtmlWith_allHeld trees]
  | .rows _ statics rows => by
    rw [Content.held, HeldSlot.htmlWith, Content.htmlWith, Row.rowsHtmlWith_allHeld statics rows]

theorem Dynamic.allHtmlWith_held : ∀ ds : List Dynamic,
    HeldSlot.allHtmlWith component (Dynamic.allHeld ds) = Dynamic.allHtmlWith component ds
  | [] => rfl
  | d :: rest => by
    rw [Dynamic.allHeld, HeldSlot.allHtmlWith, Dynamic.allHtmlWith, Dynamic.htmlWith_held d,
      Dynamic.allHtmlWith_held rest]

theorem Tree.allHtmlWith_allHeld : ∀ ts : List Tree,
    HeldTree.allHtmlWith component (Tree.allHeld ts) = Tree.allHtmlWith component ts
  | [] => rfl
  | t :: rest => by
    rw [Tree.allHeld, HeldTree.allHtmlWith, Tree.allHtmlWith, Tree.htmlWith_held t,
      Tree.allHtmlWith_allHeld rest]

theorem Row.rowsHtmlWith_allHeld (statics : List String) : ∀ rs : List Row,
    HeldSlot.rowsHtmlWith component statics (Row.allHeld rs) =
      Row.allHtmlWith component statics rs
  | [] => rfl
  | ⟨id, dynamics⟩ :: rest => by
    rw [Row.allHeld, Row.held, HeldSlot.rowsHtmlWith, Row.allHtmlWith, Row.htmlWith,
      Dynamic.allHtmlWith_held dynamics, Row.rowsHtmlWith_allHeld statics rest]

end

end Html

theorem heldHtml_eq {held : Nat → Option HeldTree} {table : Nat → Option Tree}
    (h : ∀ cid, held cid = (table cid).map Tree.held) (depth cid : Nat) :
    heldHtml held depth cid = componentHtml table depth cid := by
  induction depth generalizing cid with
  | zero => rfl
  | succ depth ih =>
    rw [heldHtml, componentHtml, h cid]
    cases table cid with
    | none => rfl
    | some tree =>
      rw [Option.map_some]
      change tree.held.htmlWith (heldHtml held depth) = _
      rw [funext ih]
      exact tree.htmlWith_held _

/-! ### Messages -/

def Assoc.erase {α : Type} (table : Assoc Nat α) (key : Nat) : Assoc Nat α :=
  table.filter fun e => e.1 ≠ key

/-- Entries of components: null takes a component away, an object is put in its place. -/
def Client.receiveComponents :
    List (String × Datum) → Assoc Nat HeldTree → Option (Assoc Nat HeldTree)
  | [], table => some table
  | (key, message) :: rest, table => do
    let cid ← placeOf? key
    match message with
    | .none => Client.receiveComponents rest (Assoc.erase table cid)
    | message =>
      let tree ← Wire.intoTree message (Assoc.get? table cid)
      Client.receiveComponents rest (Assoc.set table cid tree)

/-- Reads a message. A client that holds nothing needs all statics. -/
def Client.receive (held : Option Client) (message : Datum) : Option Client :=
  match message with
  | .fields fields => do
    let root ← Wire.intoTree (.fields fields) (held.map Client.root)
    let table := (held.map Client.components).getD []
    let components ← match Assoc.get? fields "c" with
      | none => some table
      | some (.fields entries) => Client.receiveComponents entries table
      | some _ => none
    some ⟨root, components⟩
  | _ => none

/-- Reads the message of a patch. Nothing is sent of an empty one. -/
def Client.update (held : Option Client) (patch : Patch) : Option Client :=
  if patch.isEmpty then held else Client.receive held patch.encode

/-- A client that shows a snapshot. -/
structure Client.Shows (client : Client) (s : Snapshot) : Prop where
  root : client.root = s.root.held
  once : client.cids.Nodup
  components : ∀ cid, Assoc.get? client.components cid = (s.find? cid).map fun c => c.tree.held

section Tables
variable {α : Type} {table : Assoc Nat α}

theorem Assoc.get?_erase (key cid : Nat) :
    Assoc.get? (Assoc.erase table key) cid = if key = cid then none else Assoc.get? table cid := by
  induction table with
  | nil => simp [Assoc.erase]
  | cons e rest ih =>
    rw [Assoc.erase, List.filter_cons]
    by_cases he : e.1 = key
    · simp only [he, ne_eq, not_true_eq_false, decide_false, Bool.false_eq_true, if_false]
      rw [← Assoc.erase, ih, Assoc.get?, he]
      by_cases hk : key = cid
      · rw [if_pos hk, if_pos hk]
      · rw [if_neg hk, if_neg hk, if_neg hk]
    · simp only [ne_eq, he, not_false_eq_true, decide_true, if_true]
      rw [← Assoc.erase, Assoc.get?, ih, Assoc.get?]
      by_cases hcid : e.1 = cid
      · rw [if_pos hcid, if_pos hcid, if_neg fun hk => he (hcid.trans hk.symm)]
      · rw [if_neg hcid, if_neg hcid]

theorem Assoc.nodup_erase (h : (Assoc.keys table).Nodup) (key : Nat) :
    (Assoc.keys (Assoc.erase table key)).Nodup :=
  h.sublist (List.filter_sublist.map Prod.fst)

theorem Assoc.nodup_set (h : (Assoc.keys table).Nodup) (key : Nat) (value : α) :
    (Assoc.keys (Assoc.set table key value)).Nodup := by
  rw [Assoc.keys_set]
  split
  · exact h
  · rename_i hnew
    exact List.nodup_append.mpr ⟨h, List.nodup_singleton key, fun a ha b hb => by
      rw [List.mem_singleton.mp hb]
      rintro rfl
      exact hnew ha⟩

end Tables

namespace Client.Shows

variable {client : Client} {s : Snapshot}

theorem mem_cids_iff (h : client.Shows s) {cid : Nat} :
    cid ∈ client.cids ↔ s.contains cid = true := by
  rw [Client.cids, Assoc.mem_keys_iff, h.components cid, Option.isSome_map, Snapshot.find?,
    List.find?_isSome, Snapshot.contains, List.any_eq_true]

theorem length_eq (h : client.Shows s) (hs : (s.components.map Instance.cid).Nodup) :
    client.components.length = s.components.length := by
  have hperm : client.cids.Perm (s.components.map Instance.cid) := by
    refine (List.perm_ext_iff_of_nodup h.once hs).mpr fun cid => ?_
    rw [h.mem_cids_iff]
    simp [Snapshot.contains]
  have hlength := hperm.length_eq
  rw [Client.cids, Assoc.keys, List.length_map, List.length_map] at hlength
  exact hlength

theorem html_eq (h : client.Shows s) (hs : (s.components.map Instance.cid).Nodup) :
    client.html = s.html := by
  have htable : ∀ cid, Assoc.get? client.components cid =
      ((((s.components.map fun c => (c.cid, c.tree)).find? fun c => c.1 == cid).map
        Prod.snd).map Tree.held) := by
    intro cid
    rw [h.components cid, Snapshot.find?, List.find?_map, Option.map_map, Option.map_map]
    rfl
  rw [Client.html, h.root, h.length_eq hs, Snapshot.html, Tree.html, List.length_map]
  rw [funext (heldHtml_eq htable _)]
  exact s.root.htmlWith_held _

end Client.Shows

end LiveTemplate
