import LiveTemplate.Tree

/-!
The parts of rendered trees, and when trees go together: each part fits its statics, equal
fingerprints mean equal statics, and one and the same part has one content. Two trees are the same when
they differ in nothing but the identities of their parts.
-/

namespace LiveTemplate

set_option autoImplicit false

/-- A dynamic, a row, a tree or a loop inside of a tree. -/
inductive Part where
  | dynamic (d : Dynamic)
  | row (r : Row)
  | tree (t : Tree)
  | loop (fingerprint : String) (statics : List String) (rows : List Row)

/-- The identity of a part, if it has one. A loop is handed on with the dynamic that holds it. -/
def Part.id? : Part → Option Identity
  | .dynamic d => some d.id
  | .row r => some r.id
  | .tree t => some t.id
  | .loop _ _ _ => none

mutual

/-- All parts of a dynamic, itself among them. -/
def Dynamic.parts : Dynamic → List Part
  | ⟨id, content⟩ => .dynamic ⟨id, content⟩ :: Content.parts content

def Content.parts : Content → List Part
  | .text _ | .component _ => []
  | .nested tree => Tree.parts tree
  | .list trees => Tree.allParts trees
  | .rows fingerprint statics rows => .loop fingerprint statics rows :: Row.allParts rows

def Row.parts : Row → List Part
  | ⟨id, dynamics⟩ => .row ⟨id, dynamics⟩ :: Dynamic.allParts dynamics

/-- All parts of a tree, itself among them. -/
def Tree.parts : Tree → List Part
  | ⟨id, statics, dynamics, fingerprint, root⟩ =>
    .tree ⟨id, statics, dynamics, fingerprint, root⟩ :: Dynamic.allParts dynamics

def Dynamic.allParts : List Dynamic → List Part
  | [] => []
  | d :: rest => Dynamic.parts d ++ Dynamic.allParts rest

def Row.allParts : List Row → List Part
  | [] => []
  | r :: rest => Row.parts r ++ Row.allParts rest

def Tree.allParts : List Tree → List Part
  | [] => []
  | t :: rest => Tree.parts t ++ Tree.allParts rest

end

theorem Dynamic.parts_eq (d : Dynamic) : d.parts = .dynamic d :: d.content.parts := by
  cases d
  rfl

theorem Row.parts_eq (r : Row) : r.parts = .row r :: Dynamic.allParts r.dynamics := by
  cases r
  rfl

theorem Tree.parts_eq (t : Tree) : t.parts = .tree t :: Dynamic.allParts t.dynamics := by
  cases t
  rfl

theorem Row.parts_subset {r : Row} {rows : List Row} (h : r ∈ rows) :
    r.parts ⊆ Row.allParts rows := by
  induction rows with
  | nil => cases h
  | cons q rest ih =>
    rw [Row.allParts]
    rcases List.mem_cons.mp h with rfl | h
    · exact List.subset_append_left _ _
    · exact List.Subset.trans (ih h) (List.subset_append_right _ _)

theorem Dynamic.parts_subset {d : Dynamic} {dynamics : List Dynamic} (h : d ∈ dynamics) :
    d.parts ⊆ Dynamic.allParts dynamics := by
  induction dynamics with
  | nil => cases h
  | cons e rest ih =>
    rw [Dynamic.allParts]
    rcases List.mem_cons.mp h with rfl | h
    · exact List.subset_append_left _ _
    · exact List.Subset.trans (ih h) (List.subset_append_right _ _)

/-- Parts with one fingerprint have the same statics. -/
structure StaticsAgree (parts : List Part) : Prop where
  tree_statics : ∀ {t u : Tree}, .tree t ∈ parts → .tree u ∈ parts →
    t.fingerprint = u.fingerprint → t.statics = u.statics
  loop_statics : ∀ {f s rows s' rows'}, .loop f s rows ∈ parts → .loop f s' rows' ∈ parts → s = s'

def Part.Agrees : Part → Part → Prop
  | .tree t, .tree u => t.fingerprint = u.fingerprint → t.statics = u.statics
  | .loop f s _, .loop f' s' _ => f = f' → s = s'
  | _, _ => True

instance : DecidableRel Part.Agrees
  | .tree t, .tree u =>
    inferInstanceAs (Decidable (t.fingerprint = u.fingerprint → t.statics = u.statics))
  | .loop f s _, .loop f' s' _ => inferInstanceAs (Decidable (f = f' → s = s'))
  | .dynamic _, _ | .row _, _ | .tree _, .dynamic _ | .tree _, .row _ | .tree _, .loop _ _ _
  | .loop _ _ _, .dynamic _ | .loop _ _ _, .row _ | .loop _ _ _, .tree _ => .isTrue trivial

theorem staticsAgree_iff {parts : List Part} :
    StaticsAgree parts ↔ ∀ p ∈ parts, ∀ q ∈ parts, p.Agrees q := by
  constructor
  · intro h p hp q hq
    cases p <;> cases q
    case tree.tree t u => exact h.tree_statics hp hq
    case loop.loop f s rows f' s' rows' =>
      rintro rfl
      exact h.loop_statics hp hq
    all_goals trivial
  · intro h
    exact ⟨fun ht hu => h _ ht _ hu, fun hl hm => h _ hl _ hm rfl⟩

instance (parts : List Part) : Decidable (StaticsAgree parts) :=
  decidable_of_iff' _ staticsAgree_iff

/-- One and the same part has one content. -/
structure Identified (parts : List Part) : Prop where
  same_dynamic : ∀ {d e : Dynamic}, .dynamic d ∈ parts → .dynamic e ∈ parts →
    d.id = e.id → d.content = e.content
  same_row : ∀ {r q : Row}, .row r ∈ parts → .row q ∈ parts → r.id = q.id → r.dynamics = q.dynamics
  same_tree : ∀ {t u : Tree}, .tree t ∈ parts → .tree u ∈ parts → t.id = u.id → t = u

/-- Parts that can be compared by their fingerprints and identities. -/
structure Coherent (parts : List Part) : Prop extends StaticsAgree parts, Identified parts

/-- Parts that go together. -/
structure Consistent (parts : List Part) : Prop extends Coherent parts where
  tree_fits : ∀ {t : Tree}, .tree t ∈ parts → t.statics.length = t.dynamics.length + 1
  row_fits : ∀ {f s rows}, .loop f s rows ∈ parts → ∀ r ∈ rows, s.length = r.dynamics.length + 1

/-- No loop has two rows keyed by the same component. -/
def KeyedOnce (parts : List Part) : Prop :=
  ∀ f s rows, Part.loop f s rows ∈ parts → (rows.filterMap Row.key?).Nodup

theorem StaticsAgree.mono {ps qs : List Part} (h : StaticsAgree qs) (hsub : ps ⊆ qs) :
    StaticsAgree ps where
  tree_statics ht hu := h.tree_statics (hsub ht) (hsub hu)
  loop_statics hl hm := h.loop_statics (hsub hl) (hsub hm)

theorem Identified.mono {ps qs : List Part} (h : Identified qs) (hsub : ps ⊆ qs) :
    Identified ps where
  same_dynamic hd he := h.same_dynamic (hsub hd) (hsub he)
  same_row hr hq := h.same_row (hsub hr) (hsub hq)
  same_tree ht hu := h.same_tree (hsub ht) (hsub hu)

theorem Consistent.mono {ps qs : List Part} (h : Consistent qs) (hsub : ps ⊆ qs) :
    Consistent ps where
  toStaticsAgree := h.toStaticsAgree.mono hsub
  toIdentified := h.toIdentified.mono hsub
  tree_fits ht := h.tree_fits (hsub ht)
  row_fits hl := h.row_fits (hsub hl)

theorem KeyedOnce.mono {ps qs : List Part} (h : KeyedOnce qs) (hsub : ps ⊆ qs) : KeyedOnce ps :=
  fun f s rows hl => h f s rows (hsub hl)

theorem Tree.dynamics_subset {t : Tree} {parts : List Part} (h : t.parts ⊆ parts) :
    Dynamic.allParts t.dynamics ⊆ parts := by
  rw [Tree.parts_eq] at h
  exact List.subset_of_cons_subset h

theorem Tree.mem_parts {t : Tree} {parts : List Part} (h : t.parts ⊆ parts) :
    .tree t ∈ parts := by
  rw [Tree.parts_eq] at h
  exact h List.mem_cons_self

/-- A list of components with their texts. The identities of rows are given, those of their dynamics
follow them. -/
def keyedList (id : Identity) (rows : List (Identity × Nat × String)) : Tree :=
  ⟨id, ["<ul>", "</ul>"], [⟨id + 1, .rows "row" ["<li>", " ", "</li>"] (rows.map fun (n, cid, s) =>
    ⟨n, [⟨n + 1, .component cid⟩, ⟨n + 2, .text s⟩]⟩)⟩], "list", true⟩

/-- Two lists that share a row. -/
def keyedParts : List Part :=
  (keyedList 0 [(10, 1, "a"), (20, 2, "b")]).parts ++
    (keyedList 100 [(20, 2, "b"), (110, 3, "c")]).parts

theorem keyedParts_consistent : Consistent keyedParts := by
  refine ⟨⟨by decide, ⟨?same_dynamic, ?same_row, ?same_tree⟩⟩, ?tree_fits, ?row_fits⟩
  all_goals
    simp only [keyedParts, keyedList, Tree.parts, Dynamic.allParts, Dynamic.parts, Content.parts,
      Row.allParts, Row.parts, List.map_cons, List.map_nil, List.nil_append, List.append_nil,
      List.cons_append, List.mem_cons, List.not_mem_nil, reduceCtorEq, Part.tree.injEq,
      Part.loop.injEq, Part.dynamic.injEq, Part.row.injEq, or_false, false_or]
  case tree_fits =>
    rintro t (rfl | rfl) <;> rfl
  case row_fits =>
    rintro f s rows (⟨rfl, rfl, rfl⟩ | ⟨rfl, rfl, rfl⟩) <;> simp
  case same_dynamic =>
    rintro d e (rfl | rfl | rfl | rfl | rfl | rfl | rfl | rfl | rfl | rfl)
      (rfl | rfl | rfl | rfl | rfl | rfl | rfl | rfl | rfl | rfl) hid <;>
    first | rfl | simp at hid
  case same_row =>
    rintro r q (rfl | rfl | rfl | rfl) (rfl | rfl | rfl | rfl) hid <;>
    first | rfl | simp at hid
  case same_tree =>
    rintro t u (rfl | rfl) (rfl | rfl) hid <;>
    first | rfl | simp at hid

theorem keyedParts_keyedOnce : KeyedOnce keyedParts := by
  intro f s rows h
  simp only [keyedParts, keyedList, Tree.parts, Dynamic.allParts, Dynamic.parts, Content.parts,
    Row.allParts, Row.parts, List.map_cons, List.map_nil, List.append_nil, List.cons_append,
    List.nil_append, List.mem_cons, List.not_mem_nil, reduceCtorEq, Part.loop.injEq, or_false,
    false_or] at h
  rcases h with ⟨rfl, rfl, rfl⟩ | ⟨rfl, rfl, rfl⟩ <;> decide

/-! ### Sameness -/

mutual

/-- A dynamic without identities. -/
def Dynamic.anonymous : Dynamic → Dynamic
  | ⟨_, content⟩ => ⟨0, Content.anonymous content⟩

def Content.anonymous : Content → Content
  | .text s => .text s
  | .component cid => .component cid
  | .nested tree => .nested (Tree.anonymous tree)
  | .list trees => .list (Tree.allAnonymous trees)
  | .rows fingerprint statics rows => .rows fingerprint statics (Row.allAnonymous rows)

def Row.anonymous : Row → Row
  | ⟨_, dynamics⟩ => ⟨0, Dynamic.allAnonymous dynamics⟩

def Tree.anonymous : Tree → Tree
  | ⟨_, statics, dynamics, fingerprint, root⟩ =>
    ⟨0, statics, Dynamic.allAnonymous dynamics, fingerprint, root⟩

def Dynamic.allAnonymous : List Dynamic → List Dynamic
  | [] => []
  | d :: rest => Dynamic.anonymous d :: Dynamic.allAnonymous rest

def Row.allAnonymous : List Row → List Row
  | [] => []
  | r :: rest => Row.anonymous r :: Row.allAnonymous rest

def Tree.allAnonymous : List Tree → List Tree
  | [] => []
  | t :: rest => Tree.anonymous t :: Tree.allAnonymous rest

end

def Dynamic.Same (d e : Dynamic) : Prop := d.anonymous = e.anonymous

def Content.Same (b c : Content) : Prop := b.anonymous = c.anonymous

def Row.Same (r q : Row) : Prop := r.anonymous = q.anonymous

def Tree.Same (t u : Tree) : Prop := t.anonymous = u.anonymous

def Dynamic.AllSame (ds es : List Dynamic) : Prop :=
  Dynamic.allAnonymous ds = Dynamic.allAnonymous es

theorem Dynamic.allAnonymous_eq_map (ds : List Dynamic) :
    Dynamic.allAnonymous ds = ds.map Dynamic.anonymous := by
  induction ds with
  | nil => rfl
  | cons d rest ih => rw [Dynamic.allAnonymous, ih, List.map_cons]

theorem Row.allAnonymous_eq_map (rs : List Row) : Row.allAnonymous rs = rs.map Row.anonymous := by
  induction rs with
  | nil => rfl
  | cons r rest ih => rw [Row.allAnonymous, ih, List.map_cons]

theorem Tree.allAnonymous_eq_map (ts : List Tree) :
    Tree.allAnonymous ts = ts.map Tree.anonymous := by
  induction ts with
  | nil => rfl
  | cons t rest ih => rw [Tree.allAnonymous, ih, List.map_cons]

theorem Dynamic.same_iff {d e : Dynamic} : d.Same e ↔ d.content.Same e.content := by
  cases d
  cases e
  simp [Dynamic.Same, Content.Same, Dynamic.anonymous]

theorem Row.same_iff {r q : Row} : r.Same q ↔ Dynamic.AllSame r.dynamics q.dynamics := by
  cases r
  cases q
  simp [Row.Same, Dynamic.AllSame, Row.anonymous]

theorem Tree.same_iff {t u : Tree} :
    t.Same u ↔ t.statics = u.statics ∧ Dynamic.AllSame t.dynamics u.dynamics ∧
      t.fingerprint = u.fingerprint ∧ t.root = u.root := by
  cases t
  cases u
  simp [Tree.Same, Dynamic.AllSame, Tree.anonymous]

theorem Dynamic.refs_eq (d : Dynamic) : d.refs = d.content.refs := by
  cases d
  rfl

theorem Row.refs_eq (r : Row) : r.refs = Dynamic.allRefs r.dynamics := by
  cases r
  rfl

theorem Tree.refs_eq (t : Tree) : t.refs = Dynamic.allRefs t.dynamics := by
  cases t
  rfl

/-- Trees of one fingerprint agree on whether a single element makes them up. -/
def RootsAgree (parts : List Part) : Prop :=
  ∀ t u : Tree, Part.tree t ∈ parts → Part.tree u ∈ parts → t.fingerprint = u.fingerprint →
    t.root = u.root

theorem RootsAgree.mono {ps qs : List Part} (h : RootsAgree qs) (hsub : ps ⊆ qs) :
    RootsAgree ps :=
  fun t u ht hu => h t u (hsub ht) (hsub hu)

/-- Trees that go together are the same when their fingerprints and dynamics are. -/
theorem Tree.same_iff_of_consistent {t u : Tree} {ps : List Part} (hps : Consistent ps)
    (hroot : RootsAgree ps) (ht : .tree t ∈ ps) (hu : .tree u ∈ ps) :
    t.Same u ↔ t.fingerprint = u.fingerprint ∧ Dynamic.AllSame t.dynamics u.dynamics := by
  rw [Tree.same_iff]
  constructor
  · rintro ⟨-, hd, hf, -⟩
    exact ⟨hf, hd⟩
  · rintro ⟨hf, hd⟩
    exact ⟨hps.tree_statics ht hu hf, hd, hf, hroot t u ht hu hf⟩

theorem Row.key?_anonymous (r : Row) : r.anonymous.key? = r.key? := by
  obtain ⟨id, dynamics⟩ := r
  rcases dynamics with - | ⟨⟨did, content⟩, rest⟩
  · rfl
  · cases content <;> rfl

theorem Row.Same.key? {r q : Row} (h : r.Same q) : r.key? = q.key? := by
  rw [← r.key?_anonymous, ← q.key?_anonymous, show r.anonymous = q.anonymous from h]

end LiveTemplate
