import LiveTemplate.Proofs.Tree.ExactPatch
import LiveTemplate.Proofs.Tree.Moves
import LiveTemplate.Proofs.Tree.Totality

/-!
The comparison of two trees makes an exact patch, and none when the trees are the same.
-/

namespace LiveTemplate

set_option autoImplicit false

theorem Content.exactFor_full {b c : Content} (hs : ¬ b.Same c) (he : c.full.Exact b c) :
    SlotPatch.ExactFor (some c.full) b c := by
  refine ⟨by simp [hs], fun p hp => ?_⟩
  cases hp
  exact he

/-- Edits of several places are left out when there is none of them. -/
theorem SlotPatch.exactFor_someEdit {α : Type} {wrap : List α → SlotPatch} {edits : List α}
    {b c : Content} (hnil : edits = [] ↔ b.Same c) (he : (wrap edits).Exact b c) :
    SlotPatch.ExactFor (someEdit wrap edits) b c := by
  unfold someEdit
  split
  · rename_i h
    exact ⟨by simp [hnil.mp (List.isEmpty_iff.mp h)], fun p hp => by cases hp⟩
  · rename_i h
    have hne : ¬ b.Same c := fun hs => h (List.isEmpty_iff.mpr (hnil.mpr hs))
    refine ⟨by simp [hne], fun p hp => ?_⟩
    cases hp
    exact he

theorem Dynamic.edits_eq_nil_iff {exact : SlotPatch → Dynamic → Dynamic → Prop}
    {before after : List Dynamic} {edits : List (Nat × SlotPatch)}
    (h : EditsOfPairs Dynamic.Same exact 0 before after edits)
    (hl : before.length = after.length) : edits = [] ↔ Dynamic.AllSame before after := by
  rw [h.eq_nil_iff, Dynamic.AllSame, Dynamic.allAnonymous_eq_map, Dynamic.allAnonymous_eq_map]
  exact forall_zip_iff hl

theorem Tree.sameShapes_of_same {before after : List Tree}
    (h : Tree.allAnonymous before = Tree.allAnonymous after) : sameShapes before after = true := by
  have hf : ∀ ts : List Tree,
      (Tree.allAnonymous ts).map Tree.fingerprint = ts.map Tree.fingerprint := by
    intro ts
    rw [Tree.allAnonymous_eq_map, List.map_map]
    refine List.map_congr_left fun t _ => ?_
    cases t
    rfl
  rw [sameShapes, ← hf before, ← hf after, h]
  exact beq_self_eq_true _

/-! ### Keyed rows -/

/-- In rows that are keyed each by a key of its own, a key leads to its row and to no other. -/
theorem rowOf?_eq_some_iff {rows : List Row} (hk : AllKeyed rows) (hn : (keysOf rows).Nodup)
    {key : Option Nat} {r : Row} : rowOf? rows key = some r ↔ r ∈ rows ∧ r.key? = key := by
  refine ⟨rowOf?_spec, ?_⟩
  rintro ⟨hr, rfl⟩
  exact rowOf?_key hk hn hr

theorem rowOf?_eq_none_iff {rows : List Row} {key : Option Nat} :
    rowOf? rows key = none ↔ ∀ r ∈ rows, r.key? ≠ key := by
  simp [rowOf?]

theorem keysOf_eq_of_same {previous current : List Row}
    (h : Row.allAnonymous previous = Row.allAnonymous current) :
    keysOf previous = keysOf current := by
  have hkeys : ∀ rows : List Row,
      keysOf rows = (Row.allAnonymous rows).map fun r => r.key?.getD 0 := by
    intro rows
    rw [Row.allAnonymous_eq_map, List.map_map, keysOf]
    refine List.map_congr_left fun r _ => ?_
    simp [Row.key?_anonymous]
  rw [hkeys, hkeys, h]

/-- Keyed rows are the same when their keys stand in one order and each key has the same row. -/
theorem allAnonymous_eq_iff {previous current : List Row} (hp : AllKeyed previous)
    (hc : AllKeyed current) (hpn : (keysOf previous).Nodup) :
    Row.allAnonymous previous = Row.allAnonymous current ↔
      keysOf previous = keysOf current ∧
        ∀ q ∈ current, ∀ r, rowOf? previous q.key? = some r → r.Same q := by
  constructor
  · intro h
    refine ⟨keysOf_eq_of_same h, fun q hq r hr => ?_⟩
    rw [Row.allAnonymous_eq_map, Row.allAnonymous_eq_map] at h
    have hl : previous.length = current.length := by simpa using congrArg List.length h
    rw [← List.map_snd_zip (Nat.le_of_eq hl.symm)] at hq
    obtain ⟨⟨r', q'⟩, hz, rfl⟩ := List.mem_map.mp hq
    have hsame : r'.Same q' := (forall_zip_iff hl).mpr h _ hz
    have hfound := (rowOf?_eq_some_iff hp hpn).mpr ⟨(List.of_mem_zip hz).1, hsame.key?⟩
    cases hr.symm.trans hfound
    exact hsame
  · rintro ⟨hkeys, hrows⟩
    have hl : previous.length = current.length := by
      simpa [keysOf] using congrArg List.length hkeys
    rw [Row.allAnonymous_eq_map, Row.allAnonymous_eq_map, ← forall_zip_iff hl]
    rintro ⟨r, q⟩ hz
    have hr := (List.of_mem_zip hz).1
    have hq := (List.of_mem_zip hz).2
    have hkey : r.key? = q.key? := by
      rw [hp r hr, hc q hq]
      exact congrArg some ((forall_zip_iff hl).mpr hkeys (r, q) hz)
    exact hrows q hq r ((rowOf?_eq_some_iff hp hpn).mpr ⟨hr, hkey⟩)

theorem gonePlaces_sorted (keys kept : List Nat) : (gonePlaces keys kept).Pairwise (· < ·) := by
  have hplaces : keys.zipIdx.Pairwise fun x y => x.2 < y.2 := by
    rw [← List.pairwise_map (f := Prod.snd), List.zipIdx_map_snd]
    exact List.pairwise_lt_range'
  refine List.pairwise_filterMap.mpr (hplaces.imp ?_)
  rintro ⟨a, i⟩ ⟨b, j⟩ hij x hx y hy
  simp only [Option.ite_none_left_eq_some, Option.some.injEq] at hx hy
  rw [← hx.2, ← hy.2]
  exact hij

theorem mem_gonePlaces_keysOf {previous current : List Row} (hp : AllKeyed previous)
    (hc : AllKeyed current) {i : Nat} :
    i ∈ gonePlaces (keysOf previous) (keysOf current) ↔
      ∃ r, previous[i]? = some r ∧ ∀ q ∈ current, q.key? ≠ r.key? := by
  rw [mem_gonePlaces]
  constructor
  · rintro ⟨key, hi, hk⟩
    rw [keysOf, List.getElem?_map, Option.map_eq_some_iff] at hi
    obtain ⟨r, hr, rfl⟩ := hi
    rw [mem_keysOf_iff hc, ← hp r (List.mem_of_getElem? hr), Option.not_isSome_iff_eq_none,
      rowOf?_eq_none_iff] at hk
    exact ⟨r, hr, hk⟩
  · rintro ⟨r, hr, hk⟩
    refine ⟨r.key?.getD 0, by simp [keysOf, hr], ?_⟩
    rw [mem_keysOf_iff hc, ← hp r (List.mem_of_getElem? hr), Option.not_isSome_iff_eq_none,
      rowOf?_eq_none_iff]
    exact hk

theorem gonePlaces_eq_nil_iff {keys kept : List Nat} :
    gonePlaces keys kept = [] ↔ ∀ key ∈ keys, key ∈ kept := by
  rw [List.eq_nil_iff_forall_not_mem]
  constructor
  · intro h key hkey
    obtain ⟨i, hi⟩ := List.mem_iff_getElem?.mp hkey
    by_contra hk
    exact h i (mem_gonePlaces.mpr ⟨key, hi, hk⟩)
  · intro h i hi
    obtain ⟨key, hkey, hk⟩ := mem_gonePlaces.mp hi
    exact hk (h key (List.mem_of_getElem? hkey))

/-- The edits of a keyed loop: insertions of the rows whose key is new, and changes of those that
had another row under their key. -/
structure KeyedExact (previous current : List Row) (n : Nat) (edits : KeyedEdits) : Prop where
  inserts : EditsOf (fun q : Row => (rowOf? previous q.key?).isSome) (fun q row => row = q.full) n
    current edits.inserts
  updates : EditsOf (fun q : Row => ∀ r, rowOf? previous q.key? = some r → r.Same q)
    (fun q edits => ∃ r, rowOf? previous q.key? = some r ∧ SlotPatch.ExactRow edits r q) n
    current edits.updates

/-- A keyed patch with nothing in it is the patch of rows that are the same. -/
theorem keyed_nothing_iff {previous current : List Row} {edits : KeyedEdits}
    (hp : AllKeyed previous) (hc : AllKeyed current) (hpn : (keysOf previous).Nodup)
    (hcn : (keysOf current).Nodup) (he : KeyedExact previous current 0 edits) :
    (gonePlaces (keysOf previous) (keysOf current) = [] ∧
      Move.plan ((keysOf previous).filter (· ∈ keysOf current))
        ((keysOf current).filter (· ∈ keysOf previous)) = [] ∧
      edits.inserts = [] ∧ edits.updates = []) ↔
    Row.allAnonymous previous = Row.allAnonymous current := by
  have hinserts : edits.inserts = [] ↔ ∀ key ∈ keysOf current, key ∈ keysOf previous := by
    rw [he.inserts.eq_nil_iff]
    constructor
    · intro h key hkey
      obtain ⟨q, hq, rfl⟩ := List.mem_map.mp hkey
      rw [mem_keysOf_iff hp, ← hc q hq]
      exact h q hq
    · intro h q hq
      rw [hc q hq, ← mem_keysOf_iff hp]
      exact h _ (List.mem_map.mpr ⟨q, hq, rfl⟩)
  rw [allAnonymous_eq_iff hp hc hpn, gonePlaces_eq_nil_iff, hinserts, he.updates.eq_nil_iff]
  constructor
  · rintro ⟨hgone, hmoves, hnew, hupdates⟩
    refine ⟨?_, hupdates⟩
    have hfp : (keysOf previous).filter (· ∈ keysOf current) = keysOf previous :=
      List.filter_eq_self.mpr fun key hkey => by simpa using hgone key hkey
    have hfc : (keysOf current).filter (· ∈ keysOf previous) = keysOf current :=
      List.filter_eq_self.mpr fun key hkey => by simpa using hnew key hkey
    have hperm : (keysOf previous).Perm (keysOf current) :=
      (List.perm_ext_iff_of_nodup hpn hcn).mpr fun key => ⟨hgone key, hnew key⟩
    rw [hfp, hfc] at hmoves
    have happly := Move.applyAll_plan hperm hcn
    rwa [hmoves] at happly
  · rintro ⟨hkeys, hupdates⟩
    refine ⟨fun key hkey => hkeys ▸ hkey, ?_, fun key hkey => hkeys ▸ hkey, hupdates⟩
    rw [hkeys]
    exact Move.plan_self (hcn.filter _)

theorem exactRow_nil {r q : Row} (h : r.dynamics = q.dynamics) : SlotPatch.ExactRow [] r q := by
  refine ⟨⟨.nil, fun i => ⟨fun hi => (List.not_mem_nil hi).elim, ?_⟩⟩, trivial⟩
  rintro ⟨d, e, ⟨hd, he⟩, hs⟩
  rw [h] at hd
  cases hd.symm.trans he
  exact absurd rfl hs

theorem Content.rows_same_iff {f : String} {s : List String} {previous current : List Row} :
    (Content.rows f s previous).Same (.rows f s current) ↔
      Row.allAnonymous previous = Row.allAnonymous current := by
  simp [Content.Same, Content.anonymous]

/-- Edits of rows that are paired by their keys list the kept rows that differ. -/
theorem KeyedExact.rowsExact {previous current : List Row} {edits : KeyedEdits}
    {moves : List Move} (hk : areKeyed previous current = true) (hpn : (keysOf previous).Nodup)
    (he : KeyedExact previous current 0 edits) :
    (RowsPatch.keyed (gonePlaces (keysOf previous) (keysOf current)) moves edits.inserts
      edits.updates).Exact previous current := by
  obtain ⟨hp, hc⟩ := allKeyed_of_areKeyed hk
  have hpaired : ∀ i r q, current[i]? = some q ∧ rowOf? previous q.key? = some r ↔
      PairedByKey previous current i r q := by
    intro i r q
    rw [rowOf?_eq_some_iff hp hpn, PairedByKey]
    tauto
  refine ⟨hk, gonePlaces_sorted _ _, fun i => mem_gonePlaces_keysOf hp hc, ?_, ?_, ?_, ?_⟩
  · refine ⟨he.inserts.sorted, fun i => ((he.inserts.lists).2 i).trans ?_⟩
    simp only [Option.not_isSome_iff_eq_none, rowOf?_eq_none_iff]
  · intro i row hm
    obtain ⟨k, q, hi, hq, -, hrow⟩ := he.inserts.of_mem hm
    exact ⟨q, by simpa [hi] using hq, hrow⟩
  · refine ⟨he.updates.sorted, fun i => ((he.updates.lists).2 i).trans ?_⟩
    constructor
    · rintro ⟨q, hq, hs⟩
      simp only [not_forall] at hs
      obtain ⟨r, hr, hs⟩ := hs
      exact ⟨r, q, (hpaired i r q).mp ⟨hq, hr⟩, hs⟩
    · rintro ⟨r, q, hrq, hs⟩
      obtain ⟨hq, hr⟩ := (hpaired i r q).mpr hrq
      exact ⟨q, hq, fun h => hs (h r hr)⟩
  · refine SlotPatch.exactRows_of_mem fun {i row} hm => ?_
    obtain ⟨k, q, hi, hq, -, r, hr, hrow⟩ := he.updates.of_mem hm
    have hq : current[i]? = some q := by simpa [hi] using hq
    exact ⟨r, q, (hpaired i r q).mp ⟨hq, hr⟩, hrow⟩

theorem Row.exactFor_keyedPatch {f : String} {s : List String} {previous current : List Row}
    {edits : KeyedEdits} (hk : areKeyed previous current = true)
    (hpn : (keysOf previous).Nodup) (hcn : (keysOf current).Nodup)
    (he : KeyedExact previous current 0 edits) :
    SlotPatch.ExactFor (keyedPatch (gonePlaces (keysOf previous) (keysOf current))
      (Move.plan ((keysOf previous).filter (· ∈ keysOf current))
        ((keysOf current).filter (· ∈ keysOf previous))) edits)
      (.rows f s previous) (.rows f s current) := by
  obtain ⟨hp, hc⟩ := allKeyed_of_areKeyed hk
  have hnothing := (keyed_nothing_iff hp hc hpn hcn he).trans
    (Content.rows_same_iff (f := f) (s := s)).symm
  unfold keyedPatch
  split
  · rename_i h
    simp only [Bool.and_eq_true, List.isEmpty_iff, and_assoc] at h
    exact ⟨by simp [hnothing.mp h], fun p hp => by cases hp⟩
  · rename_i h
    simp only [Bool.and_eq_true, List.isEmpty_iff, and_assoc] at h
    have hdiffer : ¬ (Content.rows f s previous).Same (.rows f s current) := fun hs =>
      h (hnothing.mpr hs)
    refine ⟨by simp [hdiffer], fun p hp => ?_⟩
    cases hp
    rw [SlotPatch.Exact]
    simp only [if_true]
    exact he.rowsExact hk hpn

/-- The patch of a loop is exact, keyed or not. -/
theorem Row.exactFor_diffLoop {f : String} {s : List String} {previous current : List Row}
    {patch : Option SlotPatch} (h : Row.diffLoop previous current = .ok patch)
    (hplaces : ∀ edits, previous.length = current.length →
      Row.diffAll 0 previous current = .ok edits →
        EditsOfPairs Row.Same SlotPatch.ExactRow 0 previous current edits)
    (hkeyed : ∀ edits, Row.diffKeyed 0 previous current = .ok edits →
      KeyedExact previous current 0 edits) :
    SlotPatch.ExactFor patch (.rows f s previous) (.rows f s current) := by
  unfold Row.diffLoop at h
  split at h
  · rename_i hk
    obtain ⟨previousKeys, hpk, h⟩ := bind_eq_ok.mp h
    obtain ⟨currentKeys, hck, h⟩ := bind_eq_ok.mp h
    obtain ⟨edits, hd, h⟩ := bind_eq_ok.mp h
    obtain ⟨rfl, hpn⟩ := rowKeys_eq_ok.mp hpk
    obtain ⟨rfl, hcn⟩ := rowKeys_eq_ok.mp hck
    cases Except.ok.inj h
    exact Row.exactFor_keyedPatch hk hpn hcn (hkeyed edits hd)
  · rename_i hk
    have hk : areKeyed previous current = false := by simpa using hk
    split at h
    · rename_i hl
      cases h
      have hdiffer : ¬ (Content.rows f s previous).Same (.rows f s current) := fun hs => by
        have := congrArg List.length (Content.rows_same_iff.mp hs)
        rw [Row.allAnonymous_eq_map, Row.allAnonymous_eq_map] at this
        exact hl (by simpa using this)
      refine ⟨by simp [hdiffer], fun p hp => ?_⟩
      cases hp
      rw [SlotPatch.Exact]
      simp only [if_true]
      exact ⟨hk, hl, rfl, rfl⟩
    · rename_i hl
      have hl := not_not.mp hl
      obtain ⟨edits, hd, rfl⟩ := map_eq_ok.mp h
      have hedits := hplaces edits hl hd
      refine SlotPatch.exactFor_someEdit ?_ ?_
      · rw [hedits.eq_nil_iff, Content.rows_same_iff, Row.allAnonymous_eq_map,
          Row.allAnonymous_eq_map]
        exact forall_zip_iff hl
      · rw [SlotPatch.Exact]
        simp only [if_true]
        exact ⟨hk, hl, hedits.lists_pairs, SlotPatch.exactRows_of_mem hedits.of_mem_pairs⟩

section Comparison
variable {ps : List Part} (hps : Consistent ps) (hroots : RootsAgree ps)
include hps hroots

set_option linter.unusedSectionVars false in
mutual

/-- The patch between two trees is exact. -/
theorem Tree.exactFor_diffTo : ∀ (u : Tree) {t : Tree} {patch : Option TreePatch},
    t.parts ⊆ ps → u.parts ⊆ ps → t.diffTo u = .ok patch → TreePatch.ExactFor patch t u
  | ⟨id, statics, dynamics, fingerprint, root⟩, t, patch, ht, hu, h => by
    have hsame := Tree.same_iff_of_consistent hps hroots (Tree.mem_parts ht) (Tree.mem_parts hu)
    rw [Tree.diffTo_eq] at h
    split at h
    · rename_i hf
      cases h
      refine ⟨by simp [hsame, hf], fun p hp => ?_⟩
      cases hp
      exact ⟨hf, rfl⟩
    · rename_i hf
      have hf := not_not.mp hf
      split at h
      · cases h
      · rename_i hl
        have hl : t.dynamics.length = dynamics.length := not_not.mp hl
        obtain ⟨slots, hs, rfl⟩ := map_eq_ok.mp h
        have hedits := Dynamic.editsOf_diffAll dynamics hl (Tree.dynamics_subset ht)
          (Tree.dynamics_subset hu) hs
        have hnil : slots = [] ↔ Dynamic.AllSame t.dynamics dynamics :=
          Dynamic.edits_eq_nil_iff hedits hl
        have hexact : (TreePatch.edit slots).Exact t ⟨id, statics, dynamics, fingerprint, root⟩ :=
          ⟨hf, hedits.lists_pairs, SlotPatch.exactAt_of_mem hedits.of_mem_pairs⟩
        unfold someEdit
        split
        · rename_i he
          have := hnil.mp (List.isEmpty_iff.mp he)
          exact ⟨by simp [hsame, hf, this], fun p hp => by cases hp⟩
        · rename_i he
          have : ¬ Dynamic.AllSame t.dynamics dynamics := fun hs =>
            he (List.isEmpty_iff.mpr (hnil.mpr hs))
          refine ⟨by simp [hsame, this], fun p hp => ?_⟩
          cases hp
          exact hexact

theorem Dynamic.exactFor_diffTo : ∀ (e : Dynamic) {d : Dynamic} {patch : Option SlotPatch},
    d.parts ⊆ ps → e.parts ⊆ ps → d.diffTo e = .ok patch →
      SlotPatch.ExactFor patch d.content e.content
  | ⟨id, content⟩, d, patch, hd, he, h => by
    rw [Dynamic.parts_eq] at hd he
    rw [Dynamic.diffTo] at h
    split at h
    · rename_i hid
      cases h
      have hsame := hps.same_dynamic (hd List.mem_cons_self) (he List.mem_cons_self) hid
      exact ⟨by simp [hsame, Content.Same], fun p hp => by cases hp⟩
    · exact Content.exactFor_diffTo content (List.subset_of_cons_subset hd)
        (List.subset_of_cons_subset he) h

theorem Content.exactFor_diffTo : ∀ (c : Content) {b : Content} {patch : Option SlotPatch},
    b.parts ⊆ ps → c.parts ⊆ ps → b.diffTo c = .ok patch → SlotPatch.ExactFor patch b c
  | .text s', b, patch, _, _, h => by
    rw [Content.diffTo_eq] at h
    cases b with
    | text s =>
      cases h
      split
      · rename_i hs
        exact ⟨by simp [hs, Content.Same], fun p hp => by cases hp⟩
      · rename_i hs
        have hdiffer : ¬ (Content.text s).Same (.text s') := fun he =>
          hs (Content.text.inj he)
        exact Content.exactFor_full hdiffer rfl
    | _ =>
      cases h
      exact Content.exactFor_full (fun he => by cases he) rfl
  | .component cid', b, patch, _, _, h => by
    rw [Content.diffTo_eq] at h
    cases b with
    | component cid =>
      cases h
      split
      · rename_i hs
        exact ⟨by simp [hs, Content.Same], fun p hp => by cases hp⟩
      · rename_i hs
        have hdiffer : ¬ (Content.component cid).Same (.component cid') := fun he =>
          hs (Content.component.inj he)
        exact Content.exactFor_full hdiffer rfl
    | _ =>
      cases h
      exact Content.exactFor_full (fun he => by cases he) rfl
  | .nested tree', b, patch, hb, hc, h => by
    rw [Content.diffTo_eq] at h
    cases b with
    | nested tree =>
      obtain ⟨p, hp, rfl⟩ := map_eq_ok.mp h
      obtain ⟨hnone, hsome⟩ := Tree.exactFor_diffTo tree' hb hc hp
      refine ⟨?_, fun q hq => ?_⟩
      · rw [Option.map_eq_none_iff, hnone]
        exact ⟨fun hs => congrArg Content.nested hs, fun hs => Content.nested.inj hs⟩
      · obtain ⟨q, rfl, rfl⟩ := Option.map_eq_some_iff.mp hq
        exact hsome q rfl
    | _ =>
      cases h
      exact Content.exactFor_full (fun he => by cases he) rfl
  | .list trees', b, patch, hb, hc, h => by
    rw [Content.diffTo_eq] at h
    cases b with
    | list trees =>
      dsimp only at h
      split at h
      · rename_i hs
        have hl := Tree.length_of_sameShapes hs
        obtain ⟨edits, hd, rfl⟩ := map_eq_ok.mp h
        have hedits := Tree.editsOf_diffAll trees' hl hb hc hd
        refine SlotPatch.exactFor_someEdit ?_
          ⟨hs, hedits.lists_pairs, TreePatch.exactAt_of_mem hedits.of_mem_pairs⟩
        rw [hedits.eq_nil_iff]
        refine (forall_zip_iff hl).trans ?_
        rw [← Tree.allAnonymous_eq_map, ← Tree.allAnonymous_eq_map]
        exact ⟨fun hs => congrArg Content.list hs, fun hs => Content.list.inj hs⟩
      · rename_i hs
        cases h
        have hdiffer : ¬ (Content.list trees).Same (.list trees') := fun he =>
          hs (Tree.sameShapes_of_same (Content.list.inj he))
        exact Content.exactFor_full hdiffer ⟨by simpa using hs, rfl⟩
    | _ =>
      cases h
      exact Content.exactFor_full (fun he => by cases he) rfl
  | .rows f' s' current, b, patch, hb, hc, h => by
    rw [Content.diffTo_eq] at h
    cases b with
    | rows f s previous =>
      dsimp only at h
      split at h
      · rename_i hf
        cases h
        have hdiffer : ¬ (Content.rows f s previous).Same (.rows f' s' current) := fun he =>
          hf (Content.rows.inj he).1
        refine Content.exactFor_full hdiffer ?_
        rw [Content.full, SlotPatch.Exact]
        simp [hf]
      · rename_i hf
        cases not_not.mp hf
        have hbm := hb List.mem_cons_self
        have hcm := hc List.mem_cons_self
        cases hps.loop_statics hbm hcm
        have hbr := List.subset_of_cons_subset hb
        have hcr := List.subset_of_cons_subset hc
        refine Row.exactFor_diffLoop h (fun edits hl hd => ?_) fun edits hd => ?_
        · exact Row.editsOf_diffAll current hl hbr hcr hd
        · exact Row.keyedExact_diffKeyed current hbr hcr hd
    | _ =>
      cases h
      exact Content.exactFor_full (fun he => by cases he) rfl

theorem Dynamic.editsOf_diffAll : ∀ (current : List Dynamic) {previous : List Dynamic} {n : Nat}
    {edits : List (Nat × SlotPatch)}, previous.length = current.length →
    Dynamic.allParts previous ⊆ ps → Dynamic.allParts current ⊆ ps →
    Dynamic.diffAll n previous current = .ok edits →
      EditsOfPairs Dynamic.Same (fun p d e => p.Exact d.content e.content) n previous current edits
  | [], [], n, edits, _, _, _, h => by
    cases h
    exact .nil n
  | e :: current, d :: previous, n, edits, hl, hp, hc, h => by
    rw [Dynamic.diffAll_cons] at h
    obtain ⟨patch, hpatch, h⟩ := bind_eq_ok.mp h
    obtain ⟨rest, hrest, h⟩ := bind_eq_ok.mp h
    cases Except.ok.inj h
    rw [Dynamic.allParts, List.append_subset] at hp hc
    obtain ⟨hnone, hsome⟩ := Dynamic.exactFor_diffTo e hp.1 hc.1 hpatch
    exact .consEdit (hnone.trans Dynamic.same_iff.symm) hsome
      (Dynamic.editsOf_diffAll current (Nat.succ.inj hl) hp.2 hc.2 hrest)

theorem Tree.editsOf_diffAll : ∀ (current : List Tree) {previous : List Tree} {n : Nat}
    {edits : List (Nat × TreePatch)}, previous.length = current.length →
    Tree.allParts previous ⊆ ps → Tree.allParts current ⊆ ps →
    Tree.diffAll n previous current = .ok edits →
      EditsOfPairs Tree.Same TreePatch.Exact n previous current edits
  | [], [], n, edits, _, _, _, h => by
    cases h
    exact .nil n
  | u :: current, t :: previous, n, edits, hl, hp, hc, h => by
    rw [Tree.diffAll_cons] at h
    obtain ⟨patch, hpatch, h⟩ := bind_eq_ok.mp h
    obtain ⟨rest, hrest, h⟩ := bind_eq_ok.mp h
    cases Except.ok.inj h
    rw [Tree.allParts, List.append_subset] at hp hc
    have hexact : TreePatch.ExactFor patch t u := by
      rw [Tree.diffItem] at hpatch
      split at hpatch
      · rename_i hid
        cases hpatch
        have hsame := hps.same_tree (Tree.mem_parts hp.1) (Tree.mem_parts hc.1) hid
        exact ⟨by simp [hsame, Tree.Same], fun p hp => by cases hp⟩
      · exact Tree.exactFor_diffTo u hp.1 hc.1 hpatch
    exact .consEdit hexact.1 hexact.2
      (Tree.editsOf_diffAll current (Nat.succ.inj hl) hp.2 hc.2 hrest)

theorem Row.exact_diffTo : ∀ (q : Row) {r : Row} {edits : List (Nat × SlotPatch)},
    r.parts ⊆ ps → q.parts ⊆ ps → r.diffTo q = .ok edits →
      (edits = [] ↔ r.Same q) ∧ SlotPatch.ExactRow edits r q
  | ⟨id, dynamics⟩, r, edits, hr, hq, h => by
    rw [Row.parts_eq] at hr hq
    rw [Row.diffTo_eq] at h
    split at h
    · rename_i hid
      cases h
      have hsame : r.dynamics = dynamics :=
        hps.same_row (hr List.mem_cons_self) (hq List.mem_cons_self) hid
      exact ⟨by simp [Row.same_iff, hsame, Dynamic.AllSame], exactRow_nil hsame⟩
    · split at h
      · cases h
      · rename_i hl
        have hl : r.dynamics.length = dynamics.length := not_not.mp hl
        have hedits := Dynamic.editsOf_diffAll dynamics hl (List.subset_of_cons_subset hr)
          (List.subset_of_cons_subset hq) h
        refine ⟨?_, hedits.lists_pairs, SlotPatch.exactAt_of_mem hedits.of_mem_pairs⟩
        rw [Row.same_iff]
        exact Dynamic.edits_eq_nil_iff hedits hl

theorem Row.editsOf_diffAll : ∀ (current : List Row) {previous : List Row} {n : Nat}
    {edits : List (Nat × List (Nat × SlotPatch))}, previous.length = current.length →
    Row.allParts previous ⊆ ps → Row.allParts current ⊆ ps →
    Row.diffAll n previous current = .ok edits →
      EditsOfPairs Row.Same SlotPatch.ExactRow n previous current edits
  | [], [], n, edits, _, _, _, h => by
    cases h
    exact .nil n
  | q :: current, r :: previous, n, edits, hl, hp, hc, h => by
    rw [Row.diffAll] at h
    obtain ⟨rowEdits, hrow, h⟩ := bind_eq_ok.mp h
    obtain ⟨rest, hrest, h⟩ := bind_eq_ok.mp h
    cases Except.ok.inj h
    rw [Row.allParts, List.append_subset] at hp hc
    obtain ⟨hnil, hexact⟩ := Row.exact_diffTo q hp.1 hc.1 hrow
    exact .consEdits hnil hexact
      (Row.editsOf_diffAll current (Nat.succ.inj hl) hp.2 hc.2 hrest)

theorem Row.keyedExact_diffKeyed : ∀ (current : List Row) {previous : List Row} {n : Nat}
    {edits : KeyedEdits}, Row.allParts previous ⊆ ps → Row.allParts current ⊆ ps →
    Row.diffKeyed n previous current = .ok edits → KeyedExact previous current n edits
  | [], _, n, _, _, _, h => by
    cases h
    exact ⟨.nil n, .nil n⟩
  | q :: current, previous, n, edits, hp, hc, h => by
    rw [Row.diffKeyed_cons] at h
    rw [Row.allParts, List.append_subset] at hc
    cases hf : rowOf? previous q.key? with
    | none =>
      simp only [hf] at h
      obtain ⟨more, hm, rfl⟩ := map_eq_ok.mp h
      have hmore := Row.keyedExact_diffKeyed current hp hc.2 hm
      exact ⟨.edit (by simp [hf]) rfl hmore.inserts, .keep (by simp [hf]) hmore.updates⟩
    | some before =>
      simp only [hf] at h
      obtain ⟨rowEdits, hrow, h⟩ := bind_eq_ok.mp h
      obtain ⟨more, hm, h⟩ := bind_eq_ok.mp h
      have hin := List.Subset.trans (Row.parts_subset (rowOf?_spec hf).1) hp
      obtain ⟨hnil, hexact⟩ := Row.exact_diffTo q hin hc.1 hrow
      have hmore := Row.keyedExact_diffKeyed current hp hc.2 hm
      have hedits : edits = ⟨more.inserts,
          if rowEdits.isEmpty then more.updates else (n, rowEdits) :: more.updates⟩ := by
        cases Except.ok.inj h
        split <;> rfl
      subst hedits
      refine ⟨.keep (by simp [hf]) hmore.inserts, .consEdits ?_ ⟨before, hf, hexact⟩ hmore.updates⟩
      rw [hnil, hf]
      exact ⟨fun hs r hr => Option.some.inj hr ▸ hs, fun hs => hs before rfl⟩

end

end Comparison

end LiveTemplate
