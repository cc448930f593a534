import LiveTemplate.Tree.Diff
import LiveTemplate.Proofs.Result
import Mathlib.Data.List.Nodup

/-!
What the comparison of trees does, case by case: each statement says all that can come out of one
step. Rows of a keyed loop are looked up by their keys.
-/

namespace LiveTemplate

set_option autoImplicit false

/-- An edit of one place, before the edits of the places after it. -/
def consEdit {α : Type} (n : Nat) (patch : Option α) (rest : List (Nat × α)) : List (Nat × α) :=
  (patch.map fun p => (n, p)).toList ++ rest

/-- The patch between two dynamics. Nothing is sent for the very same one. -/
def Dynamic.diffTo (before after : Dynamic) : Except TreeError (Option SlotPatch) :=
  if before.id = after.id then .ok none else before.content.diffTo after.content

/-- The patch between two trees of a list. -/
def Tree.diffItem (before after : Tree) : Except TreeError (Option TreePatch) :=
  if before.id = after.id then .ok none else before.diffTo after

/-- The patch of a keyed loop, unless nothing is to be done. -/
def keyedPatch (removes : List Nat) (moves : List Move) (edits : KeyedEdits) : Option SlotPatch :=
  if removes.isEmpty && moves.isEmpty && edits.inserts.isEmpty && edits.updates.isEmpty then none
  else some (.rows (.keyed removes moves edits.inserts edits.updates))

/-! ### Keys of rows -/

theorem repeated?_eq_none_iff {keys seen : List Nat} :
    repeated? seen keys = none ↔ keys.Nodup ∧ ∀ k ∈ keys, k ∉ seen := by
  induction keys generalizing seen with
  | nil => simp [repeated?]
  | cons key rest ih =>
    unfold repeated?
    split
    · rename_i hkey
      simp only [reduceCtorEq, false_iff, not_and]
      exact fun _ h => h key List.mem_cons_self hkey
    · rename_i hkey
      rw [ih, List.nodup_cons]
      constructor
      · rintro ⟨hn, hs⟩
        refine ⟨⟨fun hm => hs key hm List.mem_cons_self, hn⟩, ?_⟩
        intro k hk
        rcases List.mem_cons.mp hk with rfl | hk
        · exact hkey
        · exact fun hm => hs k hk (List.mem_cons_of_mem key hm)
      · rintro ⟨⟨hm, hn⟩, hs⟩
        refine ⟨hn, fun k hk hks => ?_⟩
        rcases List.mem_cons.mp hks with rfl | hks
        · exact hm hk
        · exact hs k (List.mem_cons_of_mem key hk) hks

def keysOf (rows : List Row) : List Nat := rows.map fun r => r.key?.getD 0

theorem rowKeys_eq_ok {rows : List Row} {keys : List Nat} :
    rowKeys rows = .ok keys ↔ keys = keysOf rows ∧ keys.Nodup := by
  have hr : repeated? [] (keysOf rows) = none ↔ (keysOf rows).Nodup ∧ ∀ k ∈ keysOf rows, k ∉ [] :=
    repeated?_eq_none_iff
  simp only [rowKeys]
  split
  · rename_i key hkey
    simp only [reduceCtorEq, false_iff]
    rintro ⟨rfl, hn⟩
    have : repeated? [] (keysOf rows) = none := hr.mpr ⟨hn, by simp⟩
    rw [keysOf, hkey] at this
    cases this
  · rename_i hkey
    constructor
    · intro h
      have hk : keysOf rows = keys := Except.ok.inj h
      exact ⟨hk.symm, hk ▸ (hr.mp hkey).1⟩
    · rintro ⟨rfl, -⟩
      rfl

/-- Whether every row has a key. -/
def AllKeyed (rows : List Row) : Prop := ∀ r ∈ rows, r.key? = some (r.key?.getD 0)

theorem allKeyed_of_areKeyed {previous current : List Row}
    (h : areKeyed previous current = true) : AllKeyed previous ∧ AllKeyed current := by
  have hall : AllKeyed (previous ++ current) := by
    intro r hr
    simp only [areKeyed, Bool.and_eq_true, List.all_eq_true] at h
    obtain ⟨k, hk⟩ := Option.isSome_iff_exists.mp (h.2 r hr)
    simp [hk]
  exact ⟨fun r hr => hall r (List.mem_append_left _ hr),
    fun r hr => hall r (List.mem_append_right _ hr)⟩

theorem filterMap_key? {rows : List Row} (h : AllKeyed rows) :
    rows.filterMap Row.key? = keysOf rows := by
  rw [keysOf, ← List.filterMap_eq_map]
  exact List.filterMap_congr h

/-- The row of a key. -/
def rowOf? (rows : List Row) (key : Option Nat) : Option Row := rows.find? fun r => r.key? = key

theorem rowOf?_spec {rows : List Row} {row : Row} {key : Option Nat}
    (h : rowOf? rows key = some row) : row ∈ rows ∧ row.key? = key :=
  ⟨List.mem_of_find?_eq_some h, by simpa using List.find?_some h⟩

/-- In rows that are keyed each by a key of its own, a row is found under its key. -/
theorem rowOf?_key {rows : List Row} {row : Row} (hk : AllKeyed rows) (hn : (keysOf rows).Nodup)
    (hr : row ∈ rows) : rowOf? rows row.key? = some row := by
  induction rows with
  | nil => cases hr
  | cons r rest ih =>
    have hcons := List.nodup_cons.mp hn
    rw [rowOf?, List.find?_cons]
    rcases List.mem_cons.mp hr with rfl | hr
    · simp
    · have hne : ¬ r.key? = row.key? := fun he => by
        apply hcons.1
        exact List.mem_map.mpr ⟨row, hr, by simp [he]⟩
      simp only [hne, decide_false]
      exact ih (fun q hq => hk q (List.mem_cons_of_mem r hq)) hcons.2 hr

theorem mem_keysOf_iff {rows : List Row} {key : Nat} (hk : AllKeyed rows) :
    key ∈ keysOf rows ↔ (rowOf? rows (some key)).isSome := by
  simp only [keysOf, List.mem_map, rowOf?, List.find?_isSome, decide_eq_true_eq]
  constructor
  · rintro ⟨r, hr, rfl⟩
    exact ⟨r, hr, hk r hr⟩
  · rintro ⟨r, hr, he⟩
    exact ⟨r, hr, by simp [he]⟩

def gonePlaces (keys kept : List Nat) : List Nat :=
  keys.zipIdx.filterMap fun (key, i) => if key ∈ kept then none else some i

theorem mem_gonePlaces {keys kept : List Nat} {i : Nat} :
    i ∈ gonePlaces keys kept ↔ ∃ key, keys[i]? = some key ∧ key ∉ kept := by
  simp only [gonePlaces, List.mem_filterMap]
  constructor
  · rintro ⟨⟨key, j⟩, hm, hi⟩
    by_cases hk : key ∈ kept
    · simp [hk] at hi
    · have hj : j = i := by simpa [hk] using hi
      exact ⟨key, hj ▸ List.mem_zipIdx_iff_getElem?.mp hm, hk⟩
  · rintro ⟨key, hi, hk⟩
    exact ⟨(key, i), List.mem_zipIdx_iff_getElem?.mpr hi, by simp [hk]⟩

theorem Tree.length_of_sameShapes {previous current : List Tree}
    (h : sameShapes previous current = true) : previous.length = current.length := by
  have hmap : previous.map Tree.fingerprint = current.map Tree.fingerprint := by
    simpa [sameShapes] using h
  simpa using congrArg List.length hmap

/-! ### Steps of the comparison -/

theorem Dynamic.diffAll_cons (n : Nat) (d e : Dynamic) (previous current : List Dynamic) :
    Dynamic.diffAll n (d :: previous) (e :: current) = (do
      let patch ← d.diffTo e
      let rest ← Dynamic.diffAll (n + 1) previous current
      .ok (consEdit n patch rest)) := by
  obtain ⟨id, content⟩ := e
  rw [Dynamic.diffAll, Dynamic.diffTo]
  split
  · rfl
  · refine bind_congr fun patch => ?_
    cases patch <;> rfl

theorem Tree.diffAll_cons (n : Nat) (t u : Tree) (previous current : List Tree) :
    Tree.diffAll n (t :: previous) (u :: current) = (do
      let patch ← t.diffItem u
      let rest ← Tree.diffAll (n + 1) previous current
      .ok (consEdit n patch rest)) := by
  rw [Tree.diffAll, Tree.diffItem]
  split
  · rfl
  · refine bind_congr fun patch => ?_
    cases patch <;> rfl

/-- Trees of one shape are compared by their dynamics, others are replaced. -/
theorem Tree.diffTo_eq (t u : Tree) :
    t.diffTo u =
      if t.fingerprint ≠ u.fingerprint then .ok (some u.full)
      else if t.dynamics.length ≠ u.dynamics.length then
        .error (.treeShapes u.fingerprint t.dynamics.length u.dynamics.length)
      else (Dynamic.diffAll 0 t.dynamics u.dynamics).map (someEdit .edit) := by
  obtain ⟨id, statics, dynamics, fingerprint, root⟩ := u
  rw [Tree.diffTo]
  cases Dynamic.diffAll 0 t.dynamics dynamics <;> rfl

theorem Row.diffTo_eq (r q : Row) :
    r.diffTo q =
      if r.id = q.id then .ok []
      else if r.dynamics.length ≠ q.dynamics.length then
        .error (.rowShapes r.dynamics.length q.dynamics.length)
      else Dynamic.diffAll 0 r.dynamics q.dynamics := by
  cases q
  rw [Row.diffTo]

theorem Row.diffKeyed_cons (n : Nat) (previous : List Row) (row : Row) (current : List Row) :
    Row.diffKeyed n previous (row :: current) =
      match rowOf? previous row.key? with
      | none => (Row.diffKeyed (n + 1) previous current).map fun rest =>
        { rest with inserts := (n, Row.full row) :: rest.inserts }
      | some before => (do
        let edits ← Row.diffTo before row
        let rest ← Row.diffKeyed (n + 1) previous current
        .ok (if edits.isEmpty then rest
          else { rest with updates := (n, edits) :: rest.updates })) := by
  rw [Row.diffKeyed]
  rfl

/-- The patch between the rows of two loops of one shape: by keys when all rows have one, else
place by place. -/
def Row.diffLoop (previous current : List Row) : Except TreeError (Option SlotPatch) :=
  if areKeyed previous current then do
    let previousKeys ← rowKeys previous
    let currentKeys ← rowKeys current
    let edits ← Row.diffKeyed 0 previous current
    .ok (keyedPatch (gonePlaces previousKeys currentKeys)
      (Move.plan (previousKeys.filter (· ∈ currentKeys)) (currentKeys.filter (· ∈ previousKeys)))
      edits)
  else if previous.length ≠ current.length then .ok (some (.rows (.full none (Row.allFull current))))
  else (Row.diffAll 0 previous current).map (someEdit fun es => .rows (.edit es))

/-- Dynamics of one kind are compared, others are replaced. -/
theorem Content.diffTo_eq (before after : Content) :
    before.diffTo after =
      match before, after with
      | .text s, .text s' => .ok (if s = s' then none else some (.text s'))
      | .component cid, .component cid' =>
        .ok (if cid = cid' then none else some (.component cid'))
      | .nested tree, .nested tree' => (tree.diffTo tree').map (Option.map .tree)
      | .list trees, .list trees' =>
        if sameShapes trees trees' then
          (Tree.diffAll 0 trees trees').map (someEdit fun es => .list (.edit es))
        else .ok (some (.list (.full (Tree.allFull trees'))))
      | .rows f _ previous, .rows f' s' current =>
        if f ≠ f' then .ok (some (.rows (.full (some s') (Row.allFull current))))
        else Row.diffLoop previous current
      | _, other => .ok (some other.full) := by
  cases before <;> cases after <;> try rfl
  case rows.rows f s previous f' s' current =>
    rw [Content.diffTo]
    dsimp only
    by_cases hf : f = f'
    · rw [if_neg (not_not.mpr hf), if_neg (not_not.mpr hf), Row.diffLoop]
      by_cases hk : areKeyed previous current = true
      · rw [if_pos hk, if_pos hk]
        refine bind_congr fun keys => bind_congr fun keys' => bind_congr fun edits => ?_
        rw [keyedPatch, apply_ite Except.ok]
        rfl
      · rw [if_neg hk, if_neg hk]
        cases Row.diffAll 0 previous current <;> rfl
    · rw [if_pos hf, if_pos hf]

end LiveTemplate
