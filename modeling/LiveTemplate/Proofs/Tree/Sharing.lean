import LiveTemplate.Proofs.Tree.Exactness
import LiveTemplate.Proofs.Tree.Totality

/-!
Shared parts. The comparison of two trees passes over a part that is the very same as before without
looking into it. This only saves work: whichever parts the trees share, the patch between them is the
one between trees of the same content that share none.
-/

namespace LiveTemplate

set_option autoImplicit false

/-- Every part was made afresh: no two of them are the same. -/
def Unshared (parts : List Part) : Prop := (parts.filterMap Part.id?).Nodup

instance (parts : List Part) : Decidable (Unshared parts) :=
  inferInstanceAs (Decidable (List.Nodup _))

/-! ### Anonymous parts -/

/-- A part without identities. -/
def Part.anonymous : Part → Part
  | dynamic d => dynamic d.anonymous
  | row r => row r.anonymous
  | tree t => tree t.anonymous
  | loop fingerprint statics rows => loop fingerprint statics (Row.allAnonymous rows)

mutual

theorem Dynamic.parts_anonymous : ∀ d : Dynamic, d.anonymous.parts = d.parts.map Part.anonymous
  | ⟨_, content⟩ => congrArg (List.cons _) (Content.parts_anonymous content)

theorem Content.parts_anonymous : ∀ c : Content, c.anonymous.parts = c.parts.map Part.anonymous
  | .text _ => rfl
  | .component _ => rfl
  | .nested tree => Tree.parts_anonymous tree
  | .list trees => Tree.allParts_anonymous trees
  | .rows _ _ rows => congrArg (List.cons _) (Row.allParts_anonymous rows)

theorem Row.parts_anonymous : ∀ r : Row, r.anonymous.parts = r.parts.map Part.anonymous
  | ⟨_, dynamics⟩ => congrArg (List.cons _) (Dynamic.allParts_anonymous dynamics)

theorem Tree.parts_anonymous : ∀ t : Tree, t.anonymous.parts = t.parts.map Part.anonymous
  | ⟨_, _, dynamics, _, _⟩ => congrArg (List.cons _) (Dynamic.allParts_anonymous dynamics)

theorem Dynamic.allParts_anonymous : ∀ ds : List Dynamic,
    Dynamic.allParts (Dynamic.allAnonymous ds) = (Dynamic.allParts ds).map Part.anonymous
  | [] => rfl
  | d :: rest => by
    rw [Dynamic.allAnonymous, Dynamic.allParts, Dynamic.parts_anonymous d,
      Dynamic.allParts_anonymous rest, Dynamic.allParts, List.map_append]

theorem Row.allParts_anonymous : ∀ rs : List Row,
    Row.allParts (Row.allAnonymous rs) = (Row.allParts rs).map Part.anonymous
  | [] => rfl
  | r :: rest => by
    rw [Row.allAnonymous, Row.allParts, Row.parts_anonymous r, Row.allParts_anonymous rest,
      Row.allParts, List.map_append]

theorem Tree.allParts_anonymous : ∀ ts : List Tree,
    Tree.allParts (Tree.allAnonymous ts) = (Tree.allParts ts).map Part.anonymous
  | [] => rfl
  | t :: rest => by
    rw [Tree.allAnonymous, Tree.allParts, Tree.parts_anonymous t, Tree.allParts_anonymous rest,
      Tree.allParts, List.map_append]

end

theorem Row.filterMap_key?_anonymous (rows : List Row) :
    (Row.allAnonymous rows).filterMap Row.key? = rows.filterMap Row.key? := by
  rw [Row.allAnonymous_eq_map, List.filterMap_map]
  exact List.filterMap_congr fun r _ => r.key?_anonymous

/-- Whether keys repeat does not depend on identities. -/
theorem keyedOnce_anonymous {parts : List Part} :
    KeyedOnce (parts.map Part.anonymous) ↔ KeyedOnce parts := by
  constructor
  · intro h f s rows hl
    rw [← Row.filterMap_key?_anonymous]
    exact h f s _ (List.mem_map.mpr ⟨_, hl, rfl⟩)
  · intro h f s rows hl
    obtain ⟨p, hp, heq⟩ := List.mem_map.mp hl
    cases p with
    | loop f' s' rows' =>
      cases heq
      rw [Row.filterMap_key?_anonymous]
      exact h f s rows' hp
    | _ => cases heq

mutual

theorem Dynamic.full_anonymous : ∀ d : Dynamic, d.anonymous.full = d.full
  | ⟨_, content⟩ => Content.full_anonymous content

theorem Content.full_anonymous : ∀ c : Content, c.anonymous.full = c.full
  | .text _ => rfl
  | .component _ => rfl
  | .nested tree => congrArg SlotPatch.tree (Tree.full_anonymous tree)
  | .list trees => congrArg (fun ts => SlotPatch.list (.full ts)) (Tree.allFull_anonymous trees)
  | .rows _ statics rows =>
    congrArg (fun rs => SlotPatch.rows (.full (some statics) rs)) (Row.allFull_anonymous rows)

theorem Row.full_anonymous : ∀ r : Row, r.anonymous.full = r.full
  | ⟨_, dynamics⟩ => Dynamic.allFull_anonymous dynamics

theorem Tree.full_anonymous : ∀ t : Tree, t.anonymous.full = t.full
  | ⟨_, statics, dynamics, _, root⟩ =>
    congrArg (TreePatch.full statics root) (Dynamic.allFull_anonymous dynamics)

theorem Dynamic.allFull_anonymous : ∀ ds : List Dynamic,
    Dynamic.allFull (Dynamic.allAnonymous ds) = Dynamic.allFull ds
  | [] => rfl
  | d :: rest => by
    rw [Dynamic.allAnonymous, Dynamic.allFull, Dynamic.full_anonymous d,
      Dynamic.allFull_anonymous rest, Dynamic.allFull]

theorem Row.allFull_anonymous : ∀ rs : List Row,
    Row.allFull (Row.allAnonymous rs) = Row.allFull rs
  | [] => rfl
  | r :: rest => by
    rw [Row.allAnonymous, Row.allFull, Row.full_anonymous r, Row.allFull_anonymous rest,
      Row.allFull]

theorem Tree.allFull_anonymous : ∀ ts : List Tree,
    Tree.allFull (Tree.allAnonymous ts) = Tree.allFull ts
  | [] => rfl
  | t :: rest => by
    rw [Tree.allAnonymous, Tree.allFull, Tree.full_anonymous t, Tree.allFull_anonymous rest,
      Tree.allFull]

end

/-! ### Nothing to send -/

theorem Dynamic.AllSame.length_eq {previous current : List Dynamic}
    (h : Dynamic.AllSame previous current) : previous.length = current.length := by
  rw [Dynamic.AllSame, Dynamic.allAnonymous_eq_map, Dynamic.allAnonymous_eq_map] at h
  simpa using congrArg List.length h

theorem Row.length_eq_of_same {previous current : List Row}
    (h : Row.allAnonymous previous = Row.allAnonymous current) :
    previous.length = current.length := by
  rw [Row.allAnonymous_eq_map, Row.allAnonymous_eq_map] at h
  simpa using congrArg List.length h

/-- In a keyed loop there is nothing to do when the keys stand as before over the same rows. -/
theorem keyedPatch_of_same {keys : List Nat} (hn : keys.Nodup) :
    keyedPatch (gonePlaces keys keys)
      (Move.plan (keys.filter (· ∈ keys)) (keys.filter (· ∈ keys))) ⟨[], []⟩ = none := by
  have hgone : gonePlaces keys keys = [] := gonePlaces_eq_nil_iff.mpr fun _ hk => hk
  rw [hgone, Move.plan_self (hn.filter _)]
  rfl

mutual

/-- Nothing is sent from a tree to one of the same content, though it be another one. -/
theorem Tree.diffTo_of_same : ∀ (u : Tree) {t : Tree}, t.Same u → KeyedOnce u.parts →
    t.diffTo u = .ok none
  | ⟨id, statics, dynamics, fingerprint, root⟩, t, h, hk => by
    obtain ⟨-, hd, hf, -⟩ := Tree.same_iff.mp h
    rw [Tree.diffTo_eq, if_neg (not_not.mpr hf), if_neg (not_not.mpr hd.length_eq),
      Dynamic.diffAll_of_same dynamics 0 hd (hk.mono (List.subset_cons_self _ _))]
    rfl

theorem Tree.diffItem_of_same (u : Tree) {t : Tree} (h : t.Same u) (hk : KeyedOnce u.parts) :
    t.diffItem u = .ok none := by
  rw [Tree.diffItem]
  split
  · rfl
  · exact Tree.diffTo_of_same u h hk

theorem Dynamic.diffTo_of_same : ∀ (e : Dynamic) {d : Dynamic}, d.Same e → KeyedOnce e.parts →
    d.diffTo e = .ok none
  | ⟨id, content⟩, d, h, hk => by
    rw [Dynamic.diffTo]
    split
    · rfl
    · exact Content.diffTo_of_same content (Dynamic.same_iff.mp h)
        (hk.mono (List.subset_cons_self _ _))

theorem Content.diffTo_of_same : ∀ (c : Content) {b : Content}, b.Same c → KeyedOnce c.parts →
    b.diffTo c = .ok none
  | .text s', b, h, _ => by
    cases b <;> cases h
    rw [Content.diffTo_eq]
    exact congrArg Except.ok (if_pos rfl)
  | .component cid', b, h, _ => by
    cases b <;> cases h
    rw [Content.diffTo_eq]
    exact congrArg Except.ok (if_pos rfl)
  | .nested tree', b, h, hk => by
    cases b with
    | nested tree =>
      rw [Content.diffTo_eq]
      dsimp only
      rw [Tree.diffTo_of_same tree' (Content.nested.inj h) hk]
      rfl
    | _ => cases h
  | .list trees', b, h, hk => by
    cases b with
    | list trees =>
      have h := Content.list.inj h
      rw [Content.diffTo_eq]
      dsimp only
      rw [if_pos (Tree.sameShapes_of_same h), Tree.diffAll_of_same trees' 0 h hk]
      rfl
    | _ => cases h
  | .rows f' s' current, b, h, hk => by
    cases b with
    | rows f s previous =>
      obtain ⟨rfl, rfl, hsame⟩ := Content.rows.inj h
      have hrows : KeyedOnce (Row.allParts current) := hk.mono (List.subset_cons_self _ _)
      have hnodup := hk _ _ _ List.mem_cons_self
      rw [Content.diffTo_eq]
      dsimp only
      rw [if_neg (not_not.mpr rfl), Row.diffLoop]
      split
      · rename_i hkeyed
        obtain ⟨hp, hc⟩ := allKeyed_of_areKeyed hkeyed
        have hkeys := keysOf_eq_of_same hsame
        have hpn : (keysOf previous).Nodup := by rwa [hkeys, ← filterMap_key? hc]
        have hrow := ((allAnonymous_eq_iff hp hc hpn).mp hsame).2
        rw [rowKeys_eq_ok.mpr ⟨rfl, hpn⟩, rowKeys_eq_ok.mpr ⟨hkeys, hpn⟩,
          Row.diffKeyed_of_same current 0 ?_ hrows]
        · exact congrArg Except.ok (keyedPatch_of_same hpn)
        · intro q hq
          have hkey : q.key?.getD 0 ∈ keysOf current := List.mem_map_of_mem hq
          rw [← hkeys, mem_keysOf_iff hp, ← hc q hq] at hkey
          obtain ⟨r, hr⟩ := Option.isSome_iff_exists.mp hkey
          exact ⟨r, hr, hrow q hq r hr⟩
      · rw [if_neg (not_not.mpr (Row.length_eq_of_same hsame)),
          Row.diffAll_of_same current 0 hsame hrows]
        rfl
    | _ => cases h

theorem Dynamic.diffAll_of_same : ∀ (current : List Dynamic) {previous : List Dynamic} (n : Nat),
    Dynamic.AllSame previous current → KeyedOnce (Dynamic.allParts current) →
      Dynamic.diffAll n previous current = .ok []
  | [], previous, n, _, _ => by cases previous <;> rfl
  | e :: current, [], n, h, _ => by cases h
  | e :: current, d :: previous, n, h, hk => by
    obtain ⟨hd, hrest⟩ := List.cons.inj h
    rw [Dynamic.diffAll_cons, Dynamic.diffTo_of_same e hd (hk.mono (List.subset_append_left _ _)),
      Dynamic.diffAll_of_same current (n + 1) hrest (hk.mono (List.subset_append_right _ _))]
    rfl

theorem Tree.diffAll_of_same : ∀ (current : List Tree) {previous : List Tree} (n : Nat),
    Tree.allAnonymous previous = Tree.allAnonymous current → KeyedOnce (Tree.allParts current) →
      Tree.diffAll n previous current = .ok []
  | [], previous, n, _, _ => by cases previous <;> rfl
  | u :: current, [], n, h, _ => by cases h
  | u :: current, t :: previous, n, h, hk => by
    obtain ⟨ht, hrest⟩ := List.cons.inj h
    rw [Tree.diffAll_cons, Tree.diffItem_of_same u ht (hk.mono (List.subset_append_left _ _)),
      Tree.diffAll_of_same current (n + 1) hrest (hk.mono (List.subset_append_right _ _))]
    rfl

theorem Row.diffTo_of_same : ∀ (q : Row) {r : Row}, r.Same q → KeyedOnce q.parts →
    r.diffTo q = .ok []
  | ⟨id, dynamics⟩, r, h, hk => by
    have hd : Dynamic.AllSame r.dynamics dynamics := Row.same_iff.mp h
    rw [Row.diffTo_eq]
    split
    · rfl
    · rw [if_neg (not_not.mpr hd.length_eq)]
      exact Dynamic.diffAll_of_same dynamics 0 hd (hk.mono (List.subset_cons_self _ _))

theorem Row.diffAll_of_same : ∀ (current : List Row) {previous : List Row} (n : Nat),
    Row.allAnonymous previous = Row.allAnonymous current → KeyedOnce (Row.allParts current) →
      Row.diffAll n previous current = .ok []
  | [], previous, n, _, _ => by cases previous <;> rfl
  | q :: current, [], n, h, _ => by cases h
  | q :: current, r :: previous, n, h, hk => by
    obtain ⟨hr, hrest⟩ := List.cons.inj h
    rw [Row.diffAll, Row.diffTo_of_same q hr (hk.mono (List.subset_append_left _ _)),
      Row.diffAll_of_same current (n + 1) hrest (hk.mono (List.subset_append_right _ _))]
    rfl

theorem Row.diffKeyed_of_same : ∀ (current : List Row) {previous : List Row} (n : Nat),
    (∀ q ∈ current, ∃ r, rowOf? previous q.key? = some r ∧ r.Same q) →
    KeyedOnce (Row.allParts current) → Row.diffKeyed n previous current = .ok ⟨[], []⟩
  | [], _, _, _, _ => rfl
  | q :: current, previous, n, h, hk => by
    obtain ⟨⟨r, hr, hsame⟩, hrest⟩ := List.forall_mem_cons.mp h
    rw [Row.diffKeyed_cons, hr]
    dsimp only
    rw [Row.diffTo_of_same q hsame (hk.mono (List.subset_append_left _ _)),
      Row.diffKeyed_of_same current (n + 1) hrest (hk.mono (List.subset_append_right _ _))]
    rfl

end

/-! ### Twins -/

theorem Tree.sameShapes_twins {trees trees' others others' : List Tree}
    (h : Tree.allAnonymous trees = Tree.allAnonymous trees')
    (ho : Tree.allAnonymous others = Tree.allAnonymous others') :
    sameShapes trees others = sameShapes trees' others' := by
  have hshapes : ∀ ts : List Tree,
      (Tree.allAnonymous ts).map Tree.fingerprint = ts.map Tree.fingerprint := by
    intro ts
    rw [Tree.allAnonymous_eq_map, List.map_map]
    exact List.map_congr_left fun t _ => by cases t; rfl
  rw [sameShapes, sameShapes, ← hshapes trees, ← hshapes others, h, ho, hshapes, hshapes]

theorem areKeyed_of_same {previous current previous' current' : List Row}
    (hp : Row.allAnonymous previous = Row.allAnonymous previous')
    (hc : Row.allAnonymous current = Row.allAnonymous current') :
    areKeyed previous current = areKeyed previous' current' := by
  have hkeyed : ∀ rows rows' : List Row,
      areKeyed (Row.allAnonymous rows) (Row.allAnonymous rows') = areKeyed rows rows' := by
    intro rows rows'
    rw [Row.allAnonymous_eq_map, Row.allAnonymous_eq_map, areKeyed, areKeyed, ← List.map_append,
      List.all_map]
    simp only [List.isEmpty_map, Function.comp_def, Row.key?_anonymous]
  rw [← hkeyed previous, ← hkeyed previous', hp, hc]

theorem rowKeys_of_same {rows rows' : List Row}
    (h : Row.allAnonymous rows = Row.allAnonymous rows') : rowKeys rows = rowKeys rows' := by
  have hkeys : rows.map (fun r => r.key?.getD 0) = rows'.map fun r => r.key?.getD 0 :=
    keysOf_eq_of_same h
  rw [rowKeys, rowKeys, hkeys]

theorem rowOf?_anonymous (rows : List Row) (key : Option Nat) :
    rowOf? (Row.allAnonymous rows) key = (rowOf? rows key).map Row.anonymous := by
  rw [Row.allAnonymous_eq_map, rowOf?, List.find?_map, rowOf?]
  simp only [Function.comp_def, Row.key?_anonymous]

/-- Two things of one content, each among parts of its own. -/
structure Twins {α : Type} (anonymous : α → α) (parts : α → List Part) (ps qs : List Part)
    (x y : α) : Prop where
  same : anonymous x = anonymous y
  left : parts x ⊆ ps
  right : parts y ⊆ qs

section Twins
variable {ps qs : List Part}

theorem Tree.twins_dynamics {t t' : Tree} (h : Twins Tree.anonymous Tree.parts ps qs t t') :
    Twins Dynamic.allAnonymous Dynamic.allParts ps qs t.dynamics t'.dynamics :=
  ⟨(Tree.same_iff.mp h.same).2.1, Tree.dynamics_subset h.left, Tree.dynamics_subset h.right⟩

theorem Dynamic.mem_parts {d : Dynamic} {parts : List Part} (h : d.parts ⊆ parts) :
    .dynamic d ∈ parts := by
  rw [Dynamic.parts_eq] at h
  exact h List.mem_cons_self

theorem Row.mem_parts {r : Row} {parts : List Part} (h : r.parts ⊆ parts) : .row r ∈ parts := by
  rw [Row.parts_eq] at h
  exact h List.mem_cons_self

theorem Dynamic.twins_content {d d' : Dynamic}
    (h : Twins Dynamic.anonymous Dynamic.parts ps qs d d') :
    Twins Content.anonymous Content.parts ps qs d.content d'.content := by
  obtain ⟨hsame, hl, hr⟩ := h
  rw [Dynamic.parts_eq] at hl hr
  exact ⟨Dynamic.same_iff.mp hsame, List.subset_of_cons_subset hl, List.subset_of_cons_subset hr⟩

/-- Contents that are twins are of one kind. -/
inductive Content.Twins (ps qs : List Part) : Content → Content → Prop where
  | text (s : String) : Twins ps qs (.text s) (.text s)
  | component (cid : Nat) : Twins ps qs (.component cid) (.component cid)
  | nested {t t' : Tree} (h : LiveTemplate.Twins Tree.anonymous Tree.parts ps qs t t') :
      Twins ps qs (.nested t) (.nested t')
  | list {ts ts' : List Tree}
      (h : LiveTemplate.Twins Tree.allAnonymous Tree.allParts ps qs ts ts') :
      Twins ps qs (.list ts) (.list ts')
  | rows (f : String) (s : List String) {rows rows' : List Row}
      (h : LiveTemplate.Twins Row.allAnonymous Row.allParts ps qs rows rows') :
      Twins ps qs (.rows f s rows) (.rows f s rows')

theorem Content.twins {c c' : Content}
    (h : LiveTemplate.Twins Content.anonymous Content.parts ps qs c c') :
    Content.Twins ps qs c c' := by
  obtain ⟨hsame, hl, hr⟩ := h
  cases c <;> cases c' <;> simp only [Content.anonymous, reduceCtorEq, Content.text.injEq,
    Content.component.injEq, Content.nested.injEq, Content.list.injEq, Content.rows.injEq] at hsame
  case text.text => exact hsame ▸ .text _
  case component.component => exact hsame ▸ .component _
  case nested.nested => exact .nested ⟨hsame, hl, hr⟩
  case list.list => exact .list ⟨hsame, hl, hr⟩
  case rows.rows f s rows f' s' rows' =>
    obtain ⟨rfl, rfl, hrows⟩ := hsame
    exact .rows f s ⟨hrows, List.subset_of_cons_subset hl, List.subset_of_cons_subset hr⟩

theorem Row.twins_dynamics {r r' : Row} (h : Twins Row.anonymous Row.parts ps qs r r') :
    Twins Dynamic.allAnonymous Dynamic.allParts ps qs r.dynamics r'.dynamics := by
  obtain ⟨hsame, hl, hr⟩ := h
  rw [Row.parts_eq] at hl hr
  exact ⟨Row.same_iff.mp hsame, List.subset_of_cons_subset hl, List.subset_of_cons_subset hr⟩

theorem Dynamic.twins_cons {d : Dynamic} {ds es : List Dynamic}
    (h : Twins Dynamic.allAnonymous Dynamic.allParts ps qs (d :: ds) es) :
    ∃ d' ds', es = d' :: ds' ∧ Twins Dynamic.anonymous Dynamic.parts ps qs d d' ∧
      Twins Dynamic.allAnonymous Dynamic.allParts ps qs ds ds' := by
  obtain ⟨hsame, hl, hr⟩ := h
  cases es with
  | nil => cases hsame
  | cons d' ds' =>
    rw [Dynamic.allParts, List.append_subset] at hl hr
    obtain ⟨hd, hds⟩ := List.cons.inj hsame
    exact ⟨d', ds', rfl, ⟨hd, hl.1, hr.1⟩, ⟨hds, hl.2, hr.2⟩⟩

theorem Tree.twins_cons {t : Tree} {ts us : List Tree}
    (h : Twins Tree.allAnonymous Tree.allParts ps qs (t :: ts) us) :
    ∃ t' ts', us = t' :: ts' ∧ Twins Tree.anonymous Tree.parts ps qs t t' ∧
      Twins Tree.allAnonymous Tree.allParts ps qs ts ts' := by
  obtain ⟨hsame, hl, hr⟩ := h
  cases us with
  | nil => cases hsame
  | cons t' ts' =>
    rw [Tree.allParts, List.append_subset] at hl hr
    obtain ⟨ht, hts⟩ := List.cons.inj hsame
    exact ⟨t', ts', rfl, ⟨ht, hl.1, hr.1⟩, ⟨hts, hl.2, hr.2⟩⟩

theorem Row.twins_cons {r : Row} {rows others : List Row}
    (h : Twins Row.allAnonymous Row.allParts ps qs (r :: rows) others) :
    ∃ r' rows', others = r' :: rows' ∧ Twins Row.anonymous Row.parts ps qs r r' ∧
      Twins Row.allAnonymous Row.allParts ps qs rows rows' := by
  obtain ⟨hsame, hl, hr⟩ := h
  cases others with
  | nil => cases hsame
  | cons r' rows' =>
    rw [Row.allParts, List.append_subset] at hl hr
    obtain ⟨hrow, hrows⟩ := List.cons.inj hsame
    exact ⟨r', rows', rfl, ⟨hrow, hl.1, hr.1⟩, ⟨hrows, hl.2, hr.2⟩⟩

/-- A key leads to twins, or to no row in either loop. -/
theorem Row.twins_rowOf? {rows rows' : List Row}
    (h : Twins Row.allAnonymous Row.allParts ps qs rows rows') (key : Option Nat) :
    Option.Rel (Twins Row.anonymous Row.parts ps qs) (rowOf? rows key)
      (rowOf? rows' key) := by
  have hmap : (rowOf? rows key).map Row.anonymous =
      (rowOf? rows' key).map Row.anonymous := by
    rw [← rowOf?_anonymous, ← rowOf?_anonymous, h.same]
  cases hr : rowOf? rows key with
  | none =>
    rw [hr, Option.map_none, eq_comm, Option.map_eq_none_iff] at hmap
    rw [hmap]
    exact .none
  | some r =>
    rw [hr, Option.map_some, eq_comm, Option.map_eq_some_iff] at hmap
    obtain ⟨r', hr', hsame⟩ := hmap
    rw [hr']
    exact .some ⟨hsame.symm, List.Subset.trans (Row.parts_subset (rowOf?_spec hr).1) h.left,
      List.Subset.trans (Row.parts_subset (rowOf?_spec hr').1) h.right⟩

/-- The patches of two loops are equal when their rows are compared with equal outcomes. -/
theorem Row.diffLoop_twins {previous previous' current current' : List Row}
    (hp : Twins Row.allAnonymous Row.allParts ps qs previous previous')
    (hc : Twins Row.allAnonymous Row.allParts ps qs current current')
    (hplaces : Row.diffAll 0 previous current = Row.diffAll 0 previous' current')
    (hkeyed : Row.diffKeyed 0 previous current = Row.diffKeyed 0 previous' current') :
    Row.diffLoop previous current = Row.diffLoop previous' current' := by
  have hfull : Row.allFull current = Row.allFull current' := by
    rw [← Row.allFull_anonymous current, hc.same, Row.allFull_anonymous]
  rw [Row.diffLoop, Row.diffLoop, areKeyed_of_same hp.same hc.same, rowKeys_of_same hp.same,
    rowKeys_of_same hc.same, hplaces, hkeyed, hfull, Row.length_eq_of_same hp.same,
    Row.length_eq_of_same hc.same]

section Congruence
variable (hi : Identified ps) (hi' : Identified qs) (hkp : KeyedOnce ps) (hkq : KeyedOnce qs)
include hi hi' hkp hkq

set_option linter.unusedSectionVars false in
mutual

/-- The patch between two trees depends on their contents alone, not on the parts they share. -/
theorem Tree.diffTo_twins : ∀ (u : Tree) {t t' u' : Tree},
    Twins Tree.anonymous Tree.parts ps qs t t' → Twins Tree.anonymous Tree.parts ps qs u u' →
      t.diffTo u = t'.diffTo u'
  | ⟨id, statics, dynamics, fingerprint, root⟩, t, t', u', ht, hu => by
    obtain ⟨-, htd, htf, -⟩ := Tree.same_iff.mp ht.same
    obtain ⟨-, hud, huf, -⟩ := Tree.same_iff.mp hu.same
    have hfull : Tree.full ⟨id, statics, dynamics, fingerprint, root⟩ = u'.full := by
      rw [← Tree.full_anonymous u', ← hu.same, Tree.full_anonymous]
    have hslots : Dynamic.diffAll 0 t.dynamics dynamics =
        Dynamic.diffAll 0 t'.dynamics u'.dynamics :=
      Dynamic.diffAll_twins dynamics 0 (Tree.twins_dynamics ht) (Tree.twins_dynamics hu)
    rw [Tree.diffTo_eq, Tree.diffTo_eq, hfull, htf, huf, htd.length_eq, hud.length_eq]
    dsimp only
    rw [hslots]

theorem Dynamic.diffTo_twins : ∀ (e : Dynamic) {d d' e' : Dynamic},
    Twins Dynamic.anonymous Dynamic.parts ps qs d d' →
    Twins Dynamic.anonymous Dynamic.parts ps qs e e' → d.diffTo e = d'.diffTo e'
  | ⟨id, content⟩, d, d', e', hd, he => by
    by_cases hid : d.id = id ∨ d'.id = e'.id
    · -- one side passes over the pair, and the other has nothing to send either
      have hsame : d.Same ⟨id, content⟩ := by
        rcases hid with hid | hid
        · have := hi.same_dynamic (Dynamic.mem_parts hd.left) (Dynamic.mem_parts he.left) hid
          exact Dynamic.same_iff.mpr (congrArg Content.anonymous this)
        · have := hi'.same_dynamic (Dynamic.mem_parts hd.right) (Dynamic.mem_parts he.right) hid
          have hsame : d'.Same e' := Dynamic.same_iff.mpr (congrArg Content.anonymous this)
          exact hd.same.trans (hsame.trans he.same.symm)
      have hsame' : d'.Same e' := hd.same.symm.trans (hsame.trans he.same)
      rw [Dynamic.diffTo_of_same _ hsame (hkp.mono he.left),
        Dynamic.diffTo_of_same _ hsame' (hkq.mono he.right)]
    · rw [not_or] at hid
      rw [Dynamic.diffTo, Dynamic.diffTo, if_neg hid.1, if_neg hid.2]
      exact Content.diffTo_twins content (Dynamic.twins_content hd) (Dynamic.twins_content he)

theorem Content.diffTo_twins : ∀ (c : Content) {b b' c' : Content},
    Twins Content.anonymous Content.parts ps qs b b' →
    Twins Content.anonymous Content.parts ps qs c c' → b.diffTo c = b'.diffTo c'
  | .text s, b, b', c', hb, hc => by
    cases Content.twins hc
    cases Content.twins hb <;> rfl
  | .component cid, b, b', c', hb, hc => by
    cases Content.twins hc
    cases Content.twins hb <;> rfl
  | .nested tree, b, b', c', hb, hc => by
    have hfull : (Content.nested tree).full = c'.full := by
      rw [← Content.full_anonymous, hc.same, Content.full_anonymous]
    cases Content.twins hc with
    | nested htree =>
      cases Content.twins hb with
      | nested hbefore =>
        rw [Content.diffTo_eq, Content.diffTo_eq]
        dsimp only
        rw [Tree.diffTo_twins tree hbefore htree]
      | _ =>
        rw [Content.diffTo_eq, Content.diffTo_eq]
        exact congrArg (fun p => Except.ok (some p)) hfull
  | .list trees, b, b', c', hb, hc => by
    have hfull : (Content.list trees).full = c'.full := by
      rw [← Content.full_anonymous, hc.same, Content.full_anonymous]
    cases Content.twins hc with
    | list htrees =>
      cases Content.twins hb with
      | list hbefore =>
        rw [Content.diffTo_eq, Content.diffTo_eq]
        dsimp only
        rw [Tree.diffAll_twins trees 0 hbefore htrees, Tree.sameShapes_twins hbefore.same htrees.same]
        exact congrArg (fun p => ite _ _ (Except.ok (some p))) hfull
      | _ =>
        rw [Content.diffTo_eq, Content.diffTo_eq]
        exact congrArg (fun p => Except.ok (some p)) hfull
  | .rows f s current, b, b', c', hb, hc => by
    have hfull : (Content.rows f s current).full = c'.full := by
      rw [← Content.full_anonymous, hc.same, Content.full_anonymous]
    cases Content.twins hc with
    | rows _ _ hrows =>
      cases Content.twins hb with
      | rows f' s' hbefore =>
        rw [Content.diffTo_eq, Content.diffTo_eq]
        dsimp only
        rw [Row.diffLoop_twins hbefore hrows (Row.diffAll_twins current 0 hbefore hrows)
          (Row.diffKeyed_twins current 0 hbefore hrows)]
        exact congrArg (fun p => ite _ (Except.ok (some p)) _) hfull
      | _ =>
        rw [Content.diffTo_eq, Content.diffTo_eq]
        exact congrArg (fun p => Except.ok (some p)) hfull

theorem Dynamic.diffAll_twins : ∀ (current : List Dynamic) (n : Nat)
    {previous previous' current' : List Dynamic},
    Twins Dynamic.allAnonymous Dynamic.allParts ps qs previous previous' →
    Twins Dynamic.allAnonymous Dynamic.allParts ps qs current current' →
      Dynamic.diffAll n previous current = Dynamic.diffAll n previous' current'
  | [], n, previous, previous', current', _, hc => by
    cases current' with
    | nil => cases previous <;> cases previous' <;> rfl
    | cons e' rest => cases hc.same
  | e :: current, n, previous, previous', current', hp, hc => by
    obtain ⟨e', rest', rfl, he, hcurrent⟩ := Dynamic.twins_cons hc
    cases previous with
    | nil =>
      cases previous' with
      | nil => rfl
      | cons d' rest => cases hp.same
    | cons d previous =>
      obtain ⟨d', before', rfl, hd, hprevious⟩ := Dynamic.twins_cons hp
      rw [Dynamic.diffAll_cons, Dynamic.diffAll_cons, Dynamic.diffTo_twins e hd he,
        Dynamic.diffAll_twins current (n + 1) hprevious hcurrent]

theorem Tree.diffAll_twins : ∀ (current : List Tree) (n : Nat)
    {previous previous' current' : List Tree},
    Twins Tree.allAnonymous Tree.allParts ps qs previous previous' →
    Twins Tree.allAnonymous Tree.allParts ps qs current current' →
      Tree.diffAll n previous current = Tree.diffAll n previous' current'
  | [], n, previous, previous', current', _, hc => by
    cases current' with
    | nil => cases previous <;> cases previous' <;> rfl
    | cons u' rest => cases hc.same
  | u :: current, n, previous, previous', current', hp, hc => by
    obtain ⟨u', rest', rfl, hu, hcurrent⟩ := Tree.twins_cons hc
    cases previous with
    | nil =>
      cases previous' with
      | nil => rfl
      | cons t' rest => cases hp.same
    | cons t previous =>
      obtain ⟨t', before', rfl, ht, hprevious⟩ := Tree.twins_cons hp
      have hitem : t.diffItem u = t'.diffItem u' := by
        by_cases hid : t.id = u.id ∨ t'.id = u'.id
        · have hsame : t.Same u := by
            rcases hid with hid | hid
            · exact congrArg Tree.anonymous
                (hi.same_tree (Tree.mem_parts ht.left) (Tree.mem_parts hu.left) hid)
            · have hsame := congrArg Tree.anonymous
                (hi'.same_tree (Tree.mem_parts ht.right) (Tree.mem_parts hu.right) hid)
              exact ht.same.trans (hsame.trans hu.same.symm)
          have hsame' : t'.Same u' := ht.same.symm.trans (hsame.trans hu.same)
          rw [Tree.diffItem_of_same u hsame (hkp.mono hu.left),
            Tree.diffItem_of_same u' hsame' (hkq.mono hu.right)]
        · rw [not_or] at hid
          rw [Tree.diffItem, Tree.diffItem, if_neg hid.1, if_neg hid.2]
          exact Tree.diffTo_twins u ht hu
      rw [Tree.diffAll_cons, Tree.diffAll_cons, hitem,
        Tree.diffAll_twins current (n + 1) hprevious hcurrent]

theorem Row.diffTo_twins : ∀ (q : Row) {r r' q' : Row},
    Twins Row.anonymous Row.parts ps qs r r' →
    Twins Row.anonymous Row.parts ps qs q q' → r.diffTo q = r'.diffTo q'
  | ⟨id, dynamics⟩, r, r', q', hr, hq' => by
    by_cases hid : r.id = id ∨ r'.id = q'.id
    · have hsame : r.Same ⟨id, dynamics⟩ := by
        rcases hid with hid | hid
        · have := hi.same_row (Row.mem_parts hr.left) (Row.mem_parts hq'.left) hid
          exact Row.same_iff.mpr (congrArg Dynamic.allAnonymous this)
        · have := hi'.same_row (Row.mem_parts hr.right) (Row.mem_parts hq'.right) hid
          have hsame : r'.Same q' := Row.same_iff.mpr (congrArg Dynamic.allAnonymous this)
          exact hr.same.trans (hsame.trans hq'.same.symm)
      have hsame' : r'.Same q' := hr.same.symm.trans (hsame.trans hq'.same)
      rw [Row.diffTo_of_same _ hsame (hkp.mono hq'.left),
        Row.diffTo_of_same _ hsame' (hkq.mono hq'.right)]
    · rw [not_or] at hid
      have hbefore : Dynamic.AllSame r.dynamics r'.dynamics := (Row.twins_dynamics hr).same
      have hafter : Dynamic.AllSame dynamics q'.dynamics := (Row.twins_dynamics hq').same
      rw [Row.diffTo_eq, Row.diffTo_eq, if_neg hid.1, if_neg hid.2, hbefore.length_eq]
      dsimp only
      rw [hafter.length_eq,
        Dynamic.diffAll_twins dynamics 0 (Row.twins_dynamics hr) (Row.twins_dynamics hq')]

theorem Row.diffAll_twins : ∀ (current : List Row) (n : Nat)
    {previous previous' current' : List Row},
    Twins Row.allAnonymous Row.allParts ps qs previous previous' →
    Twins Row.allAnonymous Row.allParts ps qs current current' →
      Row.diffAll n previous current = Row.diffAll n previous' current'
  | [], n, previous, previous', current', _, hc => by
    cases current' with
    | nil => cases previous <;> cases previous' <;> rfl
    | cons q' rest => cases hc.same
  | q :: current, n, previous, previous', current', hp, hc => by
    obtain ⟨q', rest', rfl, hrow, hcurrent⟩ := Row.twins_cons hc
    cases previous with
    | nil =>
      cases previous' with
      | nil => rfl
      | cons r' rest => cases hp.same
    | cons r previous =>
      obtain ⟨r', before', rfl, hr, hprevious⟩ := Row.twins_cons hp
      rw [Row.diffAll, Row.diffAll, Row.diffTo_twins q hr hrow,
        Row.diffAll_twins current (n + 1) hprevious hcurrent]

theorem Row.diffKeyed_twins : ∀ (current : List Row) (n : Nat)
    {previous previous' current' : List Row},
    Twins Row.allAnonymous Row.allParts ps qs previous previous' →
    Twins Row.allAnonymous Row.allParts ps qs current current' →
      Row.diffKeyed n previous current = Row.diffKeyed n previous' current'
  | [], n, previous, previous', current', _, hc => by
    cases current' with
    | nil => rfl
    | cons q' rest => cases hc.same
  | q :: current, n, previous, previous', current', hp, hc => by
    obtain ⟨q', rest', rfl, hrow, hcurrent⟩ := Row.twins_cons hc
    have hkey : q.key? = q'.key? := Row.Same.key? hrow.same
    have hfull : q.full = q'.full := by
      rw [← Row.full_anonymous, hrow.same, Row.full_anonymous]
    have hfound := Row.twins_rowOf? hp q'.key?
    rw [Row.diffKeyed_cons, Row.diffKeyed_cons, hkey,
      Row.diffKeyed_twins current (n + 1) hp hcurrent]
    generalize rowOf? previous q'.key? = before at hfound
    generalize rowOf? previous' q'.key? = before' at hfound
    cases hfound with
    | none =>
      dsimp only
      rw [hfull]
    | some hr =>
      dsimp only
      rw [Row.diffTo_twins q hr hrow]

end

end Congruence

end Twins

/-- Of parts made afresh, no two have one identity. -/
theorem Unshared.eq_of_id? {parts : List Part} (h : Unshared parts) {p q : Part} {i : Identity}
    (hp : p ∈ parts) (hq : q ∈ parts) (hpi : p.id? = some i) (hqi : q.id? = some i) : p = q := by
  have hapart := List.pairwise_filterMap.mp h
  exact List.Pairwise.forall_of_forall_of_flip
    (R := fun x y : Part => ∀ i, x.id? = some i → y.id? = some i → x = y)
    (fun _ _ _ _ _ => rfl)
    (hapart.imp fun hxy i hx hy => absurd rfl (hxy i hx i hy))
    (hapart.imp fun hxy i hy hx => absurd rfl (hxy i hx i hy)) hp hq i hpi hqi

theorem Unshared.identified {parts : List Part} (h : Unshared parts) : Identified parts where
  same_dynamic hd he hid :=
    congrArg Dynamic.content (Part.dynamic.inj (h.eq_of_id? hd he rfl (congrArg some hid.symm)))
  same_row hr hq hid :=
    congrArg Row.dynamics (Part.row.inj (h.eq_of_id? hr hq rfl (congrArg some hid.symm)))
  same_tree ht hu hid := Part.tree.inj (h.eq_of_id? ht hu rfl (congrArg some hid.symm))

theorem KeyedOnce.of_same {previous current previous' current' : Tree}
    (hk : KeyedOnce (previous.parts ++ current.parts)) (hprevious : previous'.Same previous)
    (hcurrent : current'.Same current) : KeyedOnce (previous'.parts ++ current'.parts) := by
  rw [← keyedOnce_anonymous, List.map_append, ← Tree.parts_anonymous, ← Tree.parts_anonymous] at hk ⊢
  rwa [show previous'.anonymous = previous.anonymous from hprevious,
    show current'.anonymous = current.anonymous from hcurrent]

/-- Skipping by identity only saves work. Whichever parts two trees share, the outcome of comparing
them is that of comparing trees of the same content with all parts made afresh; and trees that go
together do have a patch. -/
theorem Tree.diff_unshared {previous current previous' current' : Tree}
    (hi : Identified (previous.parts ++ current.parts))
    (hk : KeyedOnce (previous.parts ++ current.parts)) (hprevious : previous'.Same previous)
    (hcurrent : current'.Same current) (hfresh : Unshared (previous'.parts ++ current'.parts))
    (changed : Option ChangedSet) :
    Tree.diff (some previous) current changed = Tree.diff (some previous') current' changed ∧
      (Consistent (previous.parts ++ current.parts) →
        ∃ patch, Tree.diff (some previous) current changed = .ok patch) := by
  have hl : previous.parts ⊆ previous.parts ++ current.parts := List.subset_append_left _ _
  have hr : current.parts ⊆ previous.parts ++ current.parts := List.subset_append_right _ _
  have htrees : previous.diffTo current = previous'.diffTo current' :=
    Tree.diffTo_twins hi hfresh.identified hk (hk.of_same hprevious hcurrent) current
      ⟨hprevious.symm, hl, List.subset_append_left _ _⟩
      ⟨hcurrent.symm, hr, List.subset_append_right _ _⟩
  obtain ⟨-, -, hpf, -⟩ := Tree.same_iff.mp hprevious
  obtain ⟨-, -, hcf, -⟩ := Tree.same_iff.mp hcurrent
  constructor
  · rw [Tree.diff, Tree.diff, hpf, hcf, htrees]
  · intro hc
    rw [Tree.diff]
    split
    · exact ⟨none, rfl⟩
    · exact Tree.diffTo_total hc hk current hl hr

/-- Two lists that share a row, and their contents made afresh. -/
theorem keyedList_diff_unshared :
    Identified keyedParts ∧ KeyedOnce keyedParts ∧ Consistent keyedParts ∧
      Unshared ((keyedList 0 [(10, 1, "a"), (20, 2, "b")]).parts ++
        (keyedList 100 [(120, 2, "b"), (110, 3, "c")]).parts) ∧
      Tree.diff (some (keyedList 0 [(10, 1, "a"), (20, 2, "b")]))
          (keyedList 100 [(20, 2, "b"), (110, 3, "c")]) none =
        Tree.diff (some (keyedList 0 [(10, 1, "a"), (20, 2, "b")]))
          (keyedList 100 [(120, 2, "b"), (110, 3, "c")]) none ∧
      ∃ patch, Tree.diff (some (keyedList 0 [(10, 1, "a"), (20, 2, "b")]))
        (keyedList 100 [(20, 2, "b"), (110, 3, "c")]) none = .ok patch := by
  have hc := keyedParts_consistent
  have hfresh : Unshared ((keyedList 0 [(10, 1, "a"), (20, 2, "b")]).parts ++
      (keyedList 100 [(120, 2, "b"), (110, 3, "c")]).parts) := by decide
  have hcurrent : (keyedList 100 [(120, 2, "b"), (110, 3, "c")]).Same
      (keyedList 100 [(20, 2, "b"), (110, 3, "c")]) := rfl
  have h := Tree.diff_unshared hc.toIdentified keyedParts_keyedOnce rfl hcurrent hfresh none
  exact ⟨hc.toIdentified, keyedParts_keyedOnce, hc, hfresh, h.1, h.2 hc⟩

end LiveTemplate
