import LiveTemplate.Proofs.Client.Held
import LiveTemplate.Proofs.Tree.Comparison
import LiveTemplate.Proofs.Tree.Moves
import LiveTemplate.Proofs.Tree.Totality

/-!
A patch leads from one tree to the other: what a client holds of the first becomes what it would
hold of the second. Main statement: the comparison of two trees that go together ends in such a
patch.
-/

namespace LiveTemplate

set_option autoImplicit false

/-! ### Full patches -/

mutual

/-- A full patch makes the whole tree, whatever is held. -/
theorem Tree.apply_full : ∀ (t : Tree) (held : Option HeldTree), t.full.apply held = some t.held
  | ⟨_, statics, dynamics, _, root⟩, held => by
    rw [Tree.full, TreePatch.apply, Dynamic.make_allFull dynamics]
    rfl

theorem Dynamic.apply_full : ∀ (d : Dynamic) (held : Option HeldSlot),
    d.full.apply held = some d.held
  | ⟨_, content⟩, held => Content.apply_full content held

theorem Content.apply_full : ∀ (c : Content) (held : Option HeldSlot),
    c.full.apply held = some c.held
  | .text _, _ => rfl
  | .component _, _ => rfl
  | .nested tree, held => by
    rw [Content.full, SlotPatch.apply, Tree.apply_full tree]
    rfl
  | .list trees, held => by
    rw [Content.full, SlotPatch.apply, ListPatch.apply, Tree.make_allFull trees]
    rfl
  | .rows _ statics rows, held => by
    rw [Content.full, SlotPatch.apply, RowsPatch.apply, Row.makeRows_allFull rows]
    rfl

theorem Row.make_full : ∀ r : Row, SlotPatch.make r.full = some r.held
  | ⟨_, dynamics⟩ => Dynamic.make_allFull dynamics

theorem Dynamic.make_allFull : ∀ ds : List Dynamic,
    SlotPatch.make (Dynamic.allFull ds) = some (Dynamic.allHeld ds)
  | [] => rfl
  | d :: rest => by
    rw [Dynamic.allFull, SlotPatch.make, Dynamic.apply_full d, Dynamic.make_allFull rest]
    rfl

theorem Row.makeRows_allFull : ∀ rs : List Row,
    SlotPatch.makeRows (Row.allFull rs) = some (Row.allHeld rs)
  | [] => rfl
  | r :: rest => by
    rw [Row.allFull, SlotPatch.makeRows, Row.make_full r, Row.makeRows_allFull rest]
    rfl

theorem Tree.make_allFull : ∀ ts : List Tree,
    TreePatch.make (Tree.allFull ts) = some (Tree.allHeld ts)
  | [] => rfl
  | t :: rest => by
    rw [Tree.allFull, TreePatch.make, Tree.apply_full t, Tree.make_allFull rest]
    rfl

end

/-! ### Edits -/

/-- The items that are left once those whose key is gone are removed. -/
theorem withoutPlaces_gonePlaces {α : Type} (f : Nat → α) (keys kept : List Nat) :
    withoutPlaces (gonePlaces keys kept) (keys.map f) = (keys.filter (· ∈ kept)).map f := by
  have hplace : ∀ e ∈ keys.zipIdx, (e.2 ∉ gonePlaces keys kept) = (e.1 ∈ kept) := by
    intro e he
    have hg : keys[e.2]? = some e.1 := List.mem_zipIdx_iff_getElem?.mp he
    refine propext ⟨fun hm => ?_, fun hk hm => ?_⟩
    · by_contra hk
      exact hm (mem_gonePlaces.mpr ⟨e.1, hg, hk⟩)
    · obtain ⟨key, hkey, hgone⟩ := mem_gonePlaces.mp hm
      exact hgone (Option.some.inj (hg.symm.trans hkey) ▸ hk)
  have hfilter : (keys.zipIdx.filter fun e => e.2 ∉ gonePlaces keys kept) =
      keys.zipIdx.filter fun e => e.1 ∈ kept :=
    List.filter_congr fun e he => by simp only [hplace e he]
  calc withoutPlaces (gonePlaces keys kept) (keys.map f)
      = (keys.zipIdx.filter fun e => e.2 ∉ gonePlaces keys kept).map fun e => f e.1 := by
        rw [withoutPlaces, List.zipIdx_map, List.filter_map, List.map_map]
        rfl
    _ = (keys.zipIdx.filter fun e => e.1 ∈ kept).map fun e => f e.1 := by rw [hfilter]
    _ = (((keys.zipIdx.map Prod.fst).filter (· ∈ kept)).map f) := by
        rw [List.filter_map, List.map_map]
        rfl
    _ = (keys.filter (· ∈ kept)).map f := by rw [List.zipIdx_map_fst]

def heldOf (rows : List Row) (key : Option Nat) : Option (List HeldSlot) :=
  (rowOf? rows key).map Row.held

/-- What is held of a row before it is changed: what was held under its key, if anything was. -/
def heldBefore (previous : List Row) (row : Row) : List HeldSlot :=
  (heldOf previous row.key?).getD row.held

theorem editPlaces_consEdit {α β : Type} {change : α → β → Option β} {n : Nat} {edit : Option α}
    {rest : List (Nat × α)} {done items : List β} {old new : β} (hn : done.length = n)
    (he : applyMaybe change edit old = some new) :
    editPlaces change (consEdit n edit rest) (done ++ old :: items) =
      editPlaces change rest (done ++ [new] ++ items) := by
  cases edit with
  | none =>
    cases he
    simp [consEdit]
  | some e => exact editPlaces_at hn he

/-- Insertions by final index fill in the rows whose key is new. -/
theorem insertRows_diffKeyed {previous current : List Row} {n : Nat} {edits : KeyedEdits}
    (hd : Row.diffKeyed n previous current = .ok edits) (done : List (List HeldSlot))
    (hn : done.length = n) :
    SlotPatch.insertRows edits.inserts
        (done ++ current.filterMap fun row => heldOf previous row.key?) =
      some (done ++ current.map (heldBefore previous)) := by
  induction current generalizing n edits done with
  | nil =>
    rw [Row.diffKeyed] at hd
    cases hd
    rfl
  | cons row rest ih =>
    rw [Row.diffKeyed_cons] at hd
    cases hf : rowOf? previous row.key? with
    | none =>
      simp only [hf] at hd
      obtain ⟨more, hm, rfl⟩ := map_eq_ok.mp hd
      have hheld : heldOf previous row.key? = none := by simp [heldOf, hf]
      have hbefore : heldBefore previous row = row.held := by simp [heldBefore, hheld]
      have hput := Move.putIn_natCast done
        (rest.filterMap fun row => heldOf previous row.key?) row.held
      simp only [List.filterMap_cons, hheld]
      rw [SlotPatch.insertRows, Row.make_full, Option.bind_eq_bind, Option.bind_some, ← hn, hput,
        List.map_cons, hbefore]
      have hih := ih hm (done ++ [row.held]) (by simp [hn])
      simpa using hih
    | some before =>
      simp only [hf] at hd
      obtain ⟨rowEdits, -, hd⟩ := bind_eq_ok.mp hd
      obtain ⟨more, hm, hd⟩ := bind_eq_ok.mp hd
      have hi : edits.inserts = more.inserts := by
        cases Except.ok.inj hd
        split <;> rfl
      have hheld : heldOf previous row.key? = some before.held := by simp [heldOf, hf]
      have hbefore : heldBefore previous row = before.held := by simp [heldBefore, hheld]
      simp only [List.filterMap_cons, hheld, List.map_cons, hbefore, hi]
      have hih := ih hm (done ++ [before.held]) (by simp [hn])
      simpa using hih

/-- The rows that stay, in their new order, are those found under the keys that stay. -/
theorem filterMap_heldOf {previous current : List Row} (hp : AllKeyed previous)
    (hc : AllKeyed current) :
    (current.filterMap fun row => heldOf previous row.key?) =
      ((keysOf current).filter (· ∈ keysOf previous)).map
        fun key => (heldOf previous (some key)).getD [] := by
  induction current with
  | nil => rfl
  | cons row rest ih =>
    have hrow := hc row List.mem_cons_self
    have hrest := ih fun r hr => hc r (List.mem_cons_of_mem row hr)
    have hkeys : keysOf (row :: rest) = row.key?.getD 0 :: keysOf rest := rfl
    have hmem : row.key?.getD 0 ∈ keysOf previous ↔ (rowOf? previous row.key?).isSome := by
      rw [mem_keysOf_iff hp, ← hrow]
    cases hf : rowOf? previous row.key? with
    | none =>
      have hheld : heldOf previous row.key? = none := by simp [heldOf, hf]
      have hnot : ¬ row.key?.getD 0 ∈ keysOf previous := by simp [hmem, hf]
      simp only [List.filterMap_cons, hheld]
      rw [hkeys, List.filter_cons_of_neg (by simpa using hnot), hrest]
    | some before =>
      have hheld : heldOf previous row.key? = some before.held := by simp [heldOf, hf]
      have hin : row.key?.getD 0 ∈ keysOf previous := by simp [hmem, hf]
      simp only [List.filterMap_cons, hheld]
      rw [hkeys, List.filter_cons_of_pos (by simpa using hin), List.map_cons, hrest, ← hrow, hheld]
      rfl

theorem allHeld_eq_map_heldOf {rows : List Row} (hk : AllKeyed rows) (hn : (keysOf rows).Nodup) :
    Row.allHeld rows = (keysOf rows).map fun key => (heldOf rows (some key)).getD [] := by
  rw [Row.allHeld_eq_map, keysOf, List.map_map]
  refine List.map_congr_left fun r hr => ?_
  have hf : rowOf? rows (some (r.key?.getD 0)) = some r := by
    rw [← hk r hr]
    exact rowOf?_key hk hn hr
  simp [heldOf, hf]

/-- Removals and moves leave the rows that stay, in the order of the current rows. -/
theorem applyAll_moves {previous current : List Row} (hp : AllKeyed previous)
    (hc : AllKeyed current) (hpn : (keysOf previous).Nodup) (hcn : (keysOf current).Nodup) :
    Move.applyAll
        (withoutPlaces (gonePlaces (keysOf previous) (keysOf current)) (Row.allHeld previous))
        (Move.plan ((keysOf previous).filter (· ∈ keysOf current))
          ((keysOf current).filter (· ∈ keysOf previous))) =
      current.filterMap fun row => heldOf previous row.key? := by
  have hperm : ((keysOf previous).filter (· ∈ keysOf current)).Perm
      ((keysOf current).filter (· ∈ keysOf previous)) := by
    rw [List.perm_ext_iff_of_nodup (hpn.filter _) (hcn.filter _)]
    intro key
    simp [and_comm]
  rw [allHeld_eq_map_heldOf hp hpn, withoutPlaces_gonePlaces, ← Move.map_applyAll,
    Move.applyAll_plan hperm (hcn.filter _), filterMap_heldOf hp hc]

/-! ### Comparison -/

theorem editPlaces_someRow {n : Nat} {edit : List (Nat × SlotPatch)}
    {rest : List (Nat × List (Nat × SlotPatch))} {done items : List (List HeldSlot)}
    {old new : List HeldSlot} (hn : done.length = n)
    (he : SlotPatch.applyPlaces edit old = some new) :
    editPlaces SlotPatch.applyPlaces (if edit.isEmpty then rest else (n, edit) :: rest)
        (done ++ old :: items) =
      editPlaces SlotPatch.applyPlaces rest (done ++ [new] ++ items) := by
  split
  · rename_i hnil
    rw [List.isEmpty_iff.mp hnil, SlotPatch.applyPlaces] at he
    rw [Option.some.inj he]
    simp
  · exact editPlaces_at hn he

/-- An edit of several places changes nothing when there is none of them. -/
theorem SlotPatch.applyTo_someEdit {α β : Type} {change : List α → β → Option β}
    {wrap : List α → SlotPatch} (view : β → HeldSlot) {edits : List α} {old new : β}
    (h : change edits old = some new) (hnil : change [] old = some old)
    (hwrap : ∀ es, (wrap es).apply (some (view old)) = (change es old).map view) :
    SlotPatch.applyTo (someEdit wrap edits) (view old) = some (view new) := by
  unfold someEdit
  split
  · rename_i he
    rw [List.isEmpty_iff.mp he, hnil] at h
    rw [Option.some.inj h]
    rfl
  · rw [SlotPatch.applyTo, applyMaybe, hwrap, h]
    rfl

theorem Content.applyTo_full (b c : Content) :
    SlotPatch.applyTo (some c.full) b.held = some c.held :=
  Content.apply_full c (some b.held)

theorem RowsPatch.apply_keyed_nil (held : List String × List (List HeldSlot)) :
    RowsPatch.apply (.keyed [] [] [] []) (some held) = some held := by
  simp [RowsPatch.apply, withoutPlaces_nil, Move.applyAll, SlotPatch.insertRows,
    SlotPatch.applyRows]

/-- Removals, moves and insertions turn the rows before into the rows that are still to change. -/
theorem Row.applyTo_keyedPatch {f f' : String} {s : List String} {previous current : List Row}
    {edits : KeyedEdits}
    (hp : AllKeyed previous) (hc : AllKeyed current) (hpn : (keysOf previous).Nodup)
    (hcn : (keysOf current).Nodup) (hd : Row.diffKeyed 0 previous current = .ok edits)
    (hu : SlotPatch.applyRows edits.updates (current.map (heldBefore previous)) =
      some (Row.allHeld current)) :
    SlotPatch.applyTo (keyedPatch (gonePlaces (keysOf previous) (keysOf current))
        (Move.plan ((keysOf previous).filter (· ∈ keysOf current))
          ((keysOf current).filter (· ∈ keysOf previous))) edits)
        (Content.rows f s previous).held =
      some (Content.rows f' s current).held := by
  have hmoves := applyAll_moves hp hc hpn hcn
  have hinserts := insertRows_diffKeyed hd [] rfl
  rw [List.nil_append, List.nil_append] at hinserts
  have happly : RowsPatch.apply (.keyed (gonePlaces (keysOf previous) (keysOf current))
      (Move.plan ((keysOf previous).filter (· ∈ keysOf current))
        ((keysOf current).filter (· ∈ keysOf previous))) edits.inserts edits.updates)
      (some (s, Row.allHeld previous)) = some (s, Row.allHeld current) := by
    rw [RowsPatch.apply, Option.bind_eq_bind, Option.bind_some]
    dsimp only
    rw [hmoves, hinserts, Option.bind_eq_bind, Option.bind_some, hu]
    rfl
  unfold keyedPatch
  split
  · rename_i hnone
    simp only [Bool.and_eq_true, List.isEmpty_iff] at hnone
    obtain ⟨⟨⟨hremoves, hmoves⟩, hinserts⟩, hupdates⟩ := hnone
    rw [hremoves, hmoves, hinserts, hupdates, RowsPatch.apply_keyed_nil] at happly
    rw [Content.held, Content.held, (Prod.mk.inj (Option.some.inj happly)).2]
    rfl
  · rw [SlotPatch.applyTo, applyMaybe, Content.held, SlotPatch.apply, Option.bind_some]
    have := congrArg (Option.map fun r => HeldSlot.rows r.1 r.2) happly
    exact this

/-- The patch of a loop leads from the rows before to the rows after, keyed or not. -/
theorem Row.applyTo_diffLoop {f f' : String} {s : List String} {previous current : List Row}
    {patch : Option SlotPatch} (h : Row.diffLoop previous current = .ok patch)
    (hplaces : ∀ edits, previous.length = current.length → Row.diffAll 0 previous current = .ok edits →
      SlotPatch.applyRows edits (Row.allHeld previous) = some (Row.allHeld current))
    (hkeyed : ∀ edits, Row.diffKeyed 0 previous current = .ok edits →
      SlotPatch.applyRows edits.updates (current.map (heldBefore previous)) =
        some (Row.allHeld current)) :
    SlotPatch.applyTo patch (Content.rows f s previous).held =
      some (Content.rows f' s current).held := by
  unfold Row.diffLoop at h
  split at h
  · rename_i hk
    obtain ⟨hp, hc⟩ := allKeyed_of_areKeyed hk
    obtain ⟨previousKeys, hpk, h⟩ := bind_eq_ok.mp h
    obtain ⟨currentKeys, hck, h⟩ := bind_eq_ok.mp h
    obtain ⟨edits, hd, h⟩ := bind_eq_ok.mp h
    obtain ⟨rfl, hpn⟩ := rowKeys_eq_ok.mp hpk
    obtain ⟨rfl, hcn⟩ := rowKeys_eq_ok.mp hck
    cases Except.ok.inj h
    exact Row.applyTo_keyedPatch hp hc hpn hcn hd (hkeyed edits hd)
  · split at h
    · cases h
      rw [SlotPatch.applyTo, applyMaybe, SlotPatch.apply, Content.held, Option.bind_some]
      have := Row.makeRows_allFull current
      simp [HeldSlot.rows?, RowsPatch.apply, this, Content.held]
    · rename_i hl
      obtain ⟨edits, hd, rfl⟩ := map_eq_ok.mp h
      refine SlotPatch.applyTo_someEdit (fun rows => HeldSlot.rows s rows)
        (hplaces edits (not_not.mp hl) hd) rfl fun es => ?_
      rw [SlotPatch.apply, Option.bind_some, HeldSlot.rows?, RowsPatch.apply]
      simp only [Option.bind_eq_bind, Option.bind_some]
      cases SlotPatch.applyRows es (Row.allHeld previous) <;> rfl

section Comparison
variable {ps : List Part} (hps : Coherent ps)
include hps

set_option linter.unusedSectionVars false in
mutual

/-- The patch between two trees leads from the one to the other. -/
theorem Tree.applyTo_diffTo : ∀ (u : Tree) {t : Tree} {patch : Option TreePatch},
    t.parts ⊆ ps → u.parts ⊆ ps → t.diffTo u = .ok patch →
      TreePatch.applyTo patch t.held = some u.held
  | ⟨id, statics, dynamics, fingerprint, root⟩, t, patch, ht, hu, h => by
    rw [Tree.diffTo_eq] at h
    split at h
    · cases h
      exact Tree.apply_full _ _
    · rename_i hf
      split at h
      · cases h
      · rename_i hl
        obtain ⟨slots, hs, rfl⟩ := map_eq_ok.mp h
        have hst : t.statics = statics :=
          hps.tree_statics (Tree.mem_parts ht) (Tree.mem_parts hu) (not_not.mp hf)
        have hslots := Dynamic.applyPlaces_diffAll dynamics [] rfl (not_not.mp hl)
          (Tree.dynamics_subset ht) (Tree.dynamics_subset hu) hs
        rw [List.nil_append, List.nil_append] at hslots
        rw [Tree.held_eq, Tree.held, hst]
        unfold someEdit
        split
        · rename_i he
          rw [List.isEmpty_iff.mp he, SlotPatch.applyPlaces] at hslots
          rw [Option.some.inj hslots]
          rfl
        · rw [TreePatch.applyTo, applyMaybe, TreePatch.apply, Option.bind_eq_bind, Option.bind_some, hslots]
          rfl

theorem Dynamic.applyTo_diffTo : ∀ (e : Dynamic) {d : Dynamic} {patch : Option SlotPatch},
    d.parts ⊆ ps → e.parts ⊆ ps → d.diffTo e = .ok patch →
      SlotPatch.applyTo patch d.held = some e.held
  | ⟨id, content⟩, d, patch, hd, he, h => by
    rw [Dynamic.parts_eq] at hd he
    rw [Dynamic.diffTo] at h
    split at h
    · rename_i hid
      cases h
      have hsame := hps.same_dynamic (hd List.mem_cons_self) (he List.mem_cons_self) hid
      rw [Dynamic.held_eq, hsame]
      rfl
    · rw [Dynamic.held_eq]
      exact Content.applyTo_diffTo content (List.subset_of_cons_subset hd)
        (List.subset_of_cons_subset he) h

theorem Content.applyTo_diffTo : ∀ (c : Content) {b : Content} {patch : Option SlotPatch},
    b.parts ⊆ ps → c.parts ⊆ ps → b.diffTo c = .ok patch →
      SlotPatch.applyTo patch b.held = some c.held
  | .text s', b, patch, _, _, h => by
    rw [Content.diffTo_eq] at h
    cases b with
    | text s =>
      cases h
      split
      · rename_i hs
        rw [hs]
        rfl
      · rfl
    | _ =>
      cases h
      exact Content.applyTo_full _ (.text s')
  | .component cid', b, patch, _, _, h => by
    rw [Content.diffTo_eq] at h
    cases b with
    | component cid =>
      cases h
      split
      · rename_i hcid
        rw [hcid]
        rfl
      · rfl
    | _ =>
      cases h
      exact Content.applyTo_full _ (.component cid')
  | .nested tree', b, patch, hb, hc, h => by
    rw [Content.diffTo_eq] at h
    cases b with
    | nested tree =>
      obtain ⟨p, hp, rfl⟩ := map_eq_ok.mp h
      have happly := Tree.applyTo_diffTo tree' hb hc hp
      cases p with
      | none => rw [Content.held, Content.held, ← Option.some.inj happly]; rfl
      | some p =>
        rw [Option.map_some]
        have := congrArg (Option.map HeldSlot.tree) happly
        exact this
    | _ =>
      cases h
      exact Content.applyTo_full _ (.nested tree')
  | .list trees', b, patch, hb, hc, h => by
    rw [Content.diffTo_eq] at h
    cases b with
    | list trees =>
      dsimp only at h
      split at h
      · rename_i hs
        obtain ⟨edits, hd, rfl⟩ := map_eq_ok.mp h
        have hedits := Tree.applyPlaces_diffAll trees' [] rfl (Tree.length_of_sameShapes hs) hb hc hd
        exact SlotPatch.applyTo_someEdit HeldSlot.list hedits rfl fun es => rfl
      · cases h
        exact Content.applyTo_full _ (.list trees')
    | _ =>
      cases h
      exact Content.applyTo_full _ (.list trees')
  | .rows f' s' current, b, patch, hb, hc, h => by
    rw [Content.diffTo_eq] at h
    cases b with
    | rows f s previous =>
      dsimp only at h
      split at h
      · cases h
        exact Content.applyTo_full _ (.rows f' s' current)
      · rename_i hf
        cases not_not.mp hf
        cases hps.loop_statics (hb List.mem_cons_self) (hc List.mem_cons_self)
        have hbr := List.subset_of_cons_subset hb
        have hcr := List.subset_of_cons_subset hc
        refine Row.applyTo_diffLoop h (fun edits hl hd => ?_) fun edits hd => ?_
        · exact Row.applyRows_diffAll current [] rfl hl hbr hcr hd
        · exact Row.applyRows_diffKeyed current [] rfl hbr hcr hd
    | _ =>
      cases h
      exact Content.applyTo_full _ (.rows f' s' current)

theorem Dynamic.applyPlaces_diffAll : ∀ (current : List Dynamic) {previous : List Dynamic} {n : Nat}
    {edits : List (Nat × SlotPatch)} (done : List HeldSlot), done.length = n →
    previous.length = current.length → Dynamic.allParts previous ⊆ ps →
    Dynamic.allParts current ⊆ ps → Dynamic.diffAll n previous current = .ok edits →
      SlotPatch.applyPlaces edits (done ++ Dynamic.allHeld previous) =
        some (done ++ Dynamic.allHeld current)
  | [], previous, n, edits, done, _, hl, _, _, h => by
    rw [List.length_nil, List.length_eq_zero_iff] at hl
    subst hl
    cases h
    rfl
  | e :: current, d :: previous, n, edits, done, hn, hl, hp, hc, h => by
    rw [Dynamic.diffAll_cons] at h
    obtain ⟨patch, hpatch, h⟩ := bind_eq_ok.mp h
    obtain ⟨rest, hrest, h⟩ := bind_eq_ok.mp h
    cases Except.ok.inj h
    rw [Dynamic.allParts, List.append_subset] at hp hc
    have happly := Dynamic.applyTo_diffTo e hp.1 hc.1 hpatch
    have hmore := Dynamic.applyPlaces_diffAll current (done ++ [e.held]) (by simp [hn])
      (Nat.succ.inj hl) hp.2 hc.2 hrest
    rw [SlotPatch.applyPlaces_eq] at hmore ⊢
    rw [Dynamic.allHeld, Dynamic.allHeld, editPlaces_consEdit hn happly, hmore]
    simp

theorem Tree.applyPlaces_diffAll : ∀ (current : List Tree) {previous : List Tree} {n : Nat}
    {edits : List (Nat × TreePatch)} (done : List HeldTree), done.length = n →
    previous.length = current.length → Tree.allParts previous ⊆ ps →
    Tree.allParts current ⊆ ps → Tree.diffAll n previous current = .ok edits →
      TreePatch.applyPlaces edits (done ++ Tree.allHeld previous) =
        some (done ++ Tree.allHeld current)
  | [], previous, n, edits, done, _, hl, _, _, h => by
    rw [List.length_nil, List.length_eq_zero_iff] at hl
    subst hl
    cases h
    rfl
  | u :: current, t :: previous, n, edits, done, hn, hl, hp, hc, h => by
    rw [Tree.diffAll_cons] at h
    obtain ⟨patch, hpatch, h⟩ := bind_eq_ok.mp h
    obtain ⟨rest, hrest, h⟩ := bind_eq_ok.mp h
    cases Except.ok.inj h
    rw [Tree.allParts, List.append_subset] at hp hc
    have happly : TreePatch.applyTo patch t.held = some u.held := by
      rw [Tree.diffItem] at hpatch
      split at hpatch
      · rename_i hid
        cases hpatch
        rw [hps.same_tree (Tree.mem_parts hp.1) (Tree.mem_parts hc.1) hid]
        rfl
      · exact Tree.applyTo_diffTo u hp.1 hc.1 hpatch
    have hmore := Tree.applyPlaces_diffAll current (done ++ [u.held]) (by simp [hn])
      (Nat.succ.inj hl) hp.2 hc.2 hrest
    rw [TreePatch.applyPlaces_eq] at hmore ⊢
    rw [Tree.allHeld, Tree.allHeld, editPlaces_consEdit hn happly, hmore]
    simp

theorem Row.applyPlaces_diffTo : ∀ (q : Row) {r : Row} {edits : List (Nat × SlotPatch)},
    r.parts ⊆ ps → q.parts ⊆ ps → r.diffTo q = .ok edits →
      SlotPatch.applyPlaces edits r.held = some q.held
  | ⟨id, dynamics⟩, r, edits, hr, hq, h => by
    rw [Row.parts_eq] at hr hq
    rw [Row.diffTo_eq] at h
    rw [Row.held_eq]
    split at h
    · rename_i hid
      cases h
      rw [hps.same_row (hr List.mem_cons_self) (hq List.mem_cons_self) hid]
      rfl
    · split at h
      · cases h
      · rename_i hl
        exact Dynamic.applyPlaces_diffAll dynamics [] rfl (not_not.mp hl)
          (List.subset_of_cons_subset hr) (List.subset_of_cons_subset hq) h

theorem Row.applyRows_diffAll : ∀ (current : List Row) {previous : List Row} {n : Nat}
    {edits : List (Nat × List (Nat × SlotPatch))} (done : List (List HeldSlot)), done.length = n →
    previous.length = current.length → Row.allParts previous ⊆ ps →
    Row.allParts current ⊆ ps → Row.diffAll n previous current = .ok edits →
      SlotPatch.applyRows edits (done ++ Row.allHeld previous) = some (done ++ Row.allHeld current)
  | [], previous, n, edits, done, _, hl, _, _, h => by
    rw [List.length_nil, List.length_eq_zero_iff] at hl
    subst hl
    cases h
    rfl
  | q :: current, r :: previous, n, edits, done, hn, hl, hp, hc, h => by
    rw [Row.diffAll] at h
    obtain ⟨rowEdits, hrow, h⟩ := bind_eq_ok.mp h
    obtain ⟨rest, hrest, h⟩ := bind_eq_ok.mp h
    cases Except.ok.inj h
    rw [Row.allParts, List.append_subset] at hp hc
    have happly := Row.applyPlaces_diffTo q hp.1 hc.1 hrow
    have hmore := Row.applyRows_diffAll current (done ++ [q.held]) (by simp [hn])
      (Nat.succ.inj hl) hp.2 hc.2 hrest
    rw [SlotPatch.applyRows_eq] at hmore ⊢
    rw [Row.allHeld, Row.allHeld, editPlaces_someRow hn happly, hmore]
    simp

/-- Changes by final index bring the kept rows up to date. -/
theorem Row.applyRows_diffKeyed : ∀ (current : List Row) {previous : List Row} {n : Nat}
    {edits : KeyedEdits} (done : List (List HeldSlot)), done.length = n →
    Row.allParts previous ⊆ ps → Row.allParts current ⊆ ps →
    Row.diffKeyed n previous current = .ok edits →
      SlotPatch.applyRows edits.updates (done ++ current.map (heldBefore previous)) =
        some (done ++ Row.allHeld current)
  | [], previous, n, edits, done, _, _, _, h => by
    cases h
    rfl
  | q :: current, previous, n, edits, done, hn, hp, hc, h => by
    rw [Row.diffKeyed_cons] at h
    rw [Row.allParts, List.append_subset] at hc
    rw [SlotPatch.applyRows_eq, List.map_cons, Row.allHeld]
    cases hf : rowOf? previous q.key? with
    | none =>
      simp only [hf] at h
      obtain ⟨more, hm, rfl⟩ := map_eq_ok.mp h
      have hbefore : heldBefore previous q = q.held := by simp [heldBefore, heldOf, hf]
      have hmore := Row.applyRows_diffKeyed current (done ++ [q.held]) (by simp [hn]) hp hc.2 hm
      rw [SlotPatch.applyRows_eq] at hmore
      rw [hbefore]
      simpa using hmore
    | some before =>
      simp only [hf] at h
      obtain ⟨rowEdits, hrow, h⟩ := bind_eq_ok.mp h
      obtain ⟨more, hm, h⟩ := bind_eq_ok.mp h
      have hbefore : heldBefore previous q = before.held := by simp [heldBefore, heldOf, hf]
      have hin := List.Subset.trans (Row.parts_subset (rowOf?_spec hf).1) hp
      have happly := Row.applyPlaces_diffTo q hin hc.1 hrow
      have hmore := Row.applyRows_diffKeyed current (done ++ [q.held]) (by simp [hn]) hp hc.2 hm
      have hu : edits.updates =
          if rowEdits.isEmpty then more.updates else (n, rowEdits) :: more.updates := by
        cases Except.ok.inj h
        split <;> rfl
      rw [SlotPatch.applyRows_eq] at hmore
      rw [hbefore, hu, editPlaces_someRow hn happly, hmore]
      simp

end

end Comparison

/-- Two trees that go together can be compared, and the patch leads from the one to the other:
applied to what is held of the first, it makes the statics and slots of the second. -/
theorem Tree.diff_leads_over {previous current : Tree}
    (hc : Consistent (previous.parts ++ current.parts))
    (hk : KeyedOnce (previous.parts ++ current.parts)) :
    ∃ patch, Tree.diff (some previous) current none = .ok patch ∧
      TreePatch.applyTo patch previous.held = some current.held := by
  have hp : previous.parts ⊆ previous.parts ++ current.parts := List.subset_append_left _ _
  have hcur : current.parts ⊆ previous.parts ++ current.parts := List.subset_append_right _ _
  have hdiff : Tree.diff (some previous) current none = previous.diffTo current := by
    simp [Tree.diff]
  obtain ⟨patch, hpatch⟩ := Tree.diffTo_total hc hk current hp hcur
  exact ⟨patch, hdiff.trans hpatch, Tree.applyTo_diffTo hc.toCoherent current hp hcur hpatch⟩

/-- The two lists of components: one row goes, one stays as it is, one comes. -/
theorem keyedList_diff_leads_over : Consistent keyedParts ∧ KeyedOnce keyedParts ∧
    ∃ patch, Tree.diff (some (keyedList 0 [(10, 1, "a"), (20, 2, "b")]))
        (keyedList 100 [(20, 2, "b"), (110, 3, "c")]) none = .ok patch ∧
      TreePatch.applyTo patch (keyedList 0 [(10, 1, "a"), (20, 2, "b")]).held =
        some (keyedList 100 [(20, 2, "b"), (110, 3, "c")]).held :=
  ⟨keyedParts_consistent, keyedParts_keyedOnce,
    Tree.diff_leads_over keyedParts_consistent keyedParts_keyedOnce⟩

end LiveTemplate
