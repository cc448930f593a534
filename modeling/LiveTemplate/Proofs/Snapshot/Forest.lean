import LiveTemplate.Proofs.Snapshot.Page

/-!
Components that refer to each other as a tree does: everyone is referred to once, from the root tree
or from a component that hangs on it. Such a page comes to an end.
-/

namespace LiveTemplate

set_option autoImplicit false

/-- Components in an order in which each is followed by what hangs on it; the numbers are those of
the components on top. -/
inductive Forest : List Nat → List Instance → Prop
  | nil : Forest [] []
  | cons (node : Instance) {roots : List Nat} {below rest : List Instance}
      (hbelow : Forest node.tree.refs below) (hrest : Forest roots rest) :
      Forest (node.cid :: roots) (node :: (below ++ rest))

namespace Forest

variable {roots tops : List Nat} {nodes others : List Instance}

theorem single {node : Instance} {below : List Instance} (h : Forest node.tree.refs below) :
    Forest [node.cid] (node :: below) := by
  have := Forest.cons node h .nil
  rwa [List.append_nil] at this

theorem append (h : Forest roots nodes) (h' : Forest tops others) :
    Forest (roots ++ tops) (nodes ++ others) := by
  induction h with
  | nil => exact h'
  | cons node hbelow _ _ ih =>
    rw [List.cons_append, List.cons_append, List.append_assoc]
    exact .cons node hbelow ih

/-- Every component is referred to once: from the top or from another one. -/
theorem refs_perm (h : Forest roots nodes) :
    (roots ++ nodes.flatMap fun c => c.tree.refs).Perm (nodes.map Instance.cid) := by
  induction h with
  | nil => exact .nil
  | @cons node roots below rest _ _ ihbelow ihrest =>
    rw [List.map_cons, List.map_append, List.flatMap_cons, List.flatMap_append, List.cons_append]
    refine .cons node.cid (.trans ?_ (ihbelow.append ihrest))
    -- the references of the node come to stand before those of what hangs on it
    have hcomm : (roots ++ (node.tree.refs ++ below.flatMap fun c => c.tree.refs)).Perm
        ((node.tree.refs ++ below.flatMap fun c => c.tree.refs) ++ roots) :=
      List.perm_append_comm
    have hswap := hcomm.append_right (rest.flatMap fun c => c.tree.refs)
    simpa only [List.append_assoc] using hswap

/-- What hangs on some numbers comes before what hangs on those after them. -/
theorem of_append (h : Forest (roots ++ tops) nodes) :
    ∃ first second, nodes = first ++ second ∧ Forest roots first ∧ Forest tops second := by
  induction roots generalizing nodes with
  | nil => exact ⟨[], nodes, rfl, .nil, h⟩
  | cons cid roots ih =>
    cases h with
    | @cons node _ below rest hbelow hrest =>
      obtain ⟨first, second, rfl, hfirst, hsecond⟩ := ih hrest
      refine ⟨node :: (below ++ first), second, ?_, .cons node hbelow hfirst, hsecond⟩
      rw [List.cons_append, List.append_assoc]

/-- Components that are referred to once each, from given tops or from each other: those that the
tops lead to can be arranged. -/
theorem exists_of_refs_perm
    (h : (roots ++ nodes.flatMap fun c => c.tree.refs).Perm (nodes.map Instance.cid)) :
    ∃ arranged others, (arranged ++ others).Perm nodes ∧ Forest roots arranged := by
  -- each component that is taken out leaves its references as further tops
  induction hn : nodes.length generalizing roots nodes with
  | zero =>
    obtain rfl := List.length_eq_zero_iff.mp hn
    rw [List.map_nil, List.flatMap_nil, List.append_nil, List.perm_nil] at h
    subst h
    exact ⟨[], [], .nil, .nil⟩
  | succ n ih =>
    cases roots with
    | nil => exact ⟨[], nodes, .refl nodes, .nil⟩
    | cons cid roots =>
      obtain ⟨node, hnode, rfl⟩ := List.mem_map.mp (h.subset List.mem_cons_self)
      obtain ⟨before, after, rfl⟩ := List.append_of_mem hnode
      have hout : (before ++ node :: after).Perm (node :: (before ++ after)) :=
        List.perm_middle
      have hrefs := (hout.flatMap_right fun c => c.tree.refs).append_left roots
      have hrest : ((node.tree.refs ++ roots) ++
          (before ++ after).flatMap fun c => c.tree.refs).Perm
            ((before ++ after).map Instance.cid) := by
        refine List.Perm.cons_inv (a := node.cid) ?_
        rw [← List.map_cons (f := Instance.cid)]
        refine .trans (.cons node.cid ?_) (h.trans (hout.map Instance.cid))
        refine .trans ?_ hrefs.symm
        rw [List.flatMap_cons, ← List.append_assoc]
        exact List.perm_append_comm.append_right _
      have hlength : (before ++ after).length = n := by
        have := hout.length_eq
        rw [hn, List.length_cons] at this
        omega
      obtain ⟨arranged, others, hperm, hforest⟩ := ih hrest hlength
      obtain ⟨below, rest, rfl, hbelow, hrest⟩ := hforest.of_append
      exact ⟨node :: (below ++ rest), others, (hperm.cons node).trans hout.symm,
        .cons node hbelow hrest⟩

end Forest

namespace Snapshot

/-- Numbers that references lead to from the root tree. -/
inductive Reaches (s : Snapshot) : Nat → Prop
  | root {cid : Nat} (h : cid ∈ s.root.refs) : Reaches s cid
  | through {c : Instance} {cid : Nat} (hc : c ∈ s.components) (hreached : Reaches s c.cid)
      (h : cid ∈ c.tree.refs) : Reaches s cid

/-- The components of a snapshot hang on its root as a tree, each under a number and a mount key of
its own. -/
structure IsTree (s : Snapshot) : Prop where
  closed : s.Closed
  once : ∀ c ∈ s.components, s.refs.count c.cid = 1
  reached : ∀ c ∈ s.components, s.Reaches c.cid
  numbered : s.Numbered
  keys : (s.components.map Instance.key).Nodup

section Arranged
variable {s : Snapshot} {nodes : List Instance} (h : Forest s.root.refs nodes)
  (hperm : nodes.Perm s.components)
include hperm

theorem reaches_forest {roots : List Nat} {some : List Instance} (h : Forest roots some)
    (hsub : some ⊆ nodes) (hroots : ∀ cid ∈ roots, s.Reaches cid) :
    ∀ c ∈ some, s.Reaches c.cid := by
  induction h with
  | nil => exact fun c hc => by cases hc
  | @cons node roots below rest _ _ ihbelow ihrest =>
    have hnode := hroots node.cid List.mem_cons_self
    have hin : node ∈ s.components := hperm.subset (hsub List.mem_cons_self)
    have hsub' := (List.cons_subset.mp hsub).2
    refine List.forall_mem_cons.mpr ⟨hnode, List.forall_mem_append.mpr ⟨?_, ?_⟩⟩
    · exact ihbelow (List.Subset.trans (List.subset_append_left below rest) hsub') fun cid hcid =>
        .through hin hnode hcid
    · exact ihrest (List.Subset.trans (List.subset_append_right below rest) hsub') fun cid hcid =>
        hroots cid (List.mem_cons_of_mem _ hcid)

include h

theorem IsTree.of_forest (hnumbered : s.Numbered) (hkeys : (s.components.map Instance.key).Nodup) :
    s.IsTree := by
  have hrefs : s.refs.Perm (s.components.map Instance.cid) := by
    refine .trans ?_ (h.refs_perm.trans (hperm.map Instance.cid))
    exact (hperm.flatMap_right fun c => c.tree.refs).symm.append_left s.root.refs
  refine ⟨fun cid hcid => mem_cids_iff.mp (hrefs.subset hcid), fun c hc => ?_, fun c hc => ?_,
    hnumbered, hkeys⟩
  · rw [hrefs.count_eq]
    exact List.count_eq_one_of_mem hnumbered (List.mem_map_of_mem hc)
  · exact reaches_forest hperm h (List.Subset.refl nodes) (fun cid hcid => .root hcid) c
      (hperm.symm.subset hc)

end Arranged

/-- A tree of components can be arranged. -/
theorem IsTree.exists_forest {s : Snapshot} (h : s.IsTree) :
    ∃ arranged, Forest s.root.refs arranged ∧ arranged.Perm s.components := by
  have hcount : ∀ cid, s.contains cid = true → s.refs.count cid = 1 := by
    intro cid hcid
    obtain ⟨c, hc, rfl⟩ := contains_iff.mp hcid
    exact h.once c hc
  have hrefs : s.refs.Perm (s.components.map Instance.cid) := by
    have hnodup : s.refs.Nodup := List.nodup_iff_count_le_one.mpr fun cid => by
      by_cases hcid : cid ∈ s.refs
      · exact Nat.le_of_eq (hcount cid (h.closed cid hcid))
      · rw [List.count_eq_zero_of_not_mem hcid]
        exact Nat.zero_le 1
    refine (List.perm_ext_iff_of_nodup hnodup h.numbered).mpr fun cid => ?_
    rw [mem_cids_iff]
    refine ⟨h.closed cid, fun hcid => List.count_pos_iff.mp ?_⟩
    rw [hcount cid hcid]
    exact Nat.one_pos
  obtain ⟨arranged, others, hperm, hforest⟩ := Forest.exists_of_refs_perm hrefs
  suffices hnone : others = [] by
    rw [hnone, List.append_nil] at hperm
    exact ⟨arranged, hforest, hperm⟩
  -- references never lead from what is arranged to what is not
  have hapart := (hperm.map Instance.cid).nodup_iff.mpr h.numbered
  rw [List.map_append, List.nodup_append] at hapart
  have harranged : ∀ cid, s.Reaches cid → cid ∈ arranged.map Instance.cid := by
    intro cid hreached
    induction hreached with
    | root hcid => exact hforest.refs_perm.subset (List.mem_append_left _ hcid)
    | @through c cid hc _ hcid ih =>
      obtain ⟨b, hb, hbc⟩ := List.mem_map.mp ih
      have hb' : b ∈ s.components := hperm.subset (List.mem_append_left _ hb)
      cases List.inj_on_of_nodup_map h.numbered hb' hc hbc
      exact hforest.refs_perm.subset
        (List.mem_append_right _ (List.mem_flatMap.mpr ⟨_, hb, hcid⟩))
  refine List.eq_nil_iff_forall_not_mem.mpr fun c hc => ?_
  have hin := harranged c.cid (h.reached c (hperm.subset (List.mem_append_right _ hc)))
  exact hapart.2.2 c.cid hin c.cid (List.mem_map_of_mem hc) rfl

theorem componentHtml_forest {table : Nat → Option Tree} {roots : List Nat} {nodes : List Instance}
    (h : Forest roots nodes) (htable : ∀ c ∈ nodes, table c.cid = some c.tree) :
    ∀ {depth : Nat}, nodes.length < depth → ∀ cid ∈ roots,
      ∃ page, componentHtml table depth cid = .ok page := by
  induction h with
  | nil => exact fun _ cid hcid => by cases hcid
  | @cons node roots below rest _ _ ihbelow ihrest =>
    intro depth hdepth
    rw [List.length_cons, List.length_append] at hdepth
    rw [List.forall_mem_cons, List.forall_mem_append] at htable
    refine List.forall_mem_cons.mpr ⟨?_, ihrest htable.2.2 (by omega)⟩
    obtain ⟨depth, rfl⟩ : ∃ d, depth = d + 1 := ⟨depth - 1, by omega⟩
    rw [componentHtml_some htable.1]
    exact (node.tree.settles _).exists_ok
      (ihbelow htable.2.1 (show below.length < depth by omega))

/-- The page of a tree of components comes out. -/
theorem html_forest {s : Snapshot} {nodes : List Instance} (h : Forest s.root.refs nodes)
    (hperm : nodes.Perm s.components) (hnumbered : s.Numbered) : ∃ page, s.html = .ok page := by
  have htable : ∀ c ∈ nodes, s.table c.cid = some c.tree := by
    intro c hc
    rw [table, (find?_eq_some_iff hnumbered).mpr ⟨hperm.subset hc, rfl⟩]
    rfl
  rw [html_eq]
  refine (s.root.settles _).exists_ok (componentHtml_forest h htable ?_)
  rw [hperm.length_eq]
  exact Nat.lt_succ_self _

/-- Where references stay within a table, nothing else is reached. -/
theorem Closed.contains_of_reaches {s : Snapshot} (h : s.Closed) {more : List Instance}
    (hn : (s.grown more).Numbered) {cid : Nat} (hreached : (s.grown more).Reaches cid) :
    s.contains cid = true := by
  induction hreached with
  | root hcid => exact h _ (List.mem_append_left _ hcid)
  | @through c cid hc _ hcid ih =>
    obtain ⟨b, hb, hbc⟩ := contains_iff.mp ih
    cases List.inj_on_of_nodup_map hn (List.mem_append_left more hb) hc hbc
    exact h _ (List.mem_append_right _ (List.mem_flatMap.mpr ⟨_, hb, hcid⟩))

/-- A tree of components that has grown beyond what hangs on it is a tree no more. -/
theorem IsTree.grown_iff {s : Snapshot} (h : s.IsTree) {more : List Instance}
    (hn : (s.grown more).Numbered) : (s.grown more).IsTree ↔ more = [] := by
  constructor
  · intro hgrown
    refine List.eq_nil_iff_forall_not_mem.mpr fun c hc => ?_
    have hcontains := h.closed.contains_of_reaches hn
      (hgrown.reached c (List.mem_append_right s.components hc))
    obtain ⟨b, hb, hbc⟩ := contains_iff.mp hcontains
    have hdisjoint := hn
    rw [Numbered, grown, List.map_append, List.nodup_append] at hdisjoint
    exact hdisjoint.2.2 b.cid (List.mem_map_of_mem hb) c.cid (List.mem_map_of_mem hc) hbc
  · rintro rfl
    rw [grown, List.append_nil]
    exact h

end Snapshot

end LiveTemplate
