import LiveTemplate.Proofs.Tree.Exactness
import LiveTemplate.Snapshot

/-!
Patches between snapshots are exact: a component is sent when it is new or when its tree differs,
and a number is given up when its component is gone.
-/

namespace LiveTemplate

set_option autoImplicit false

namespace Snapshot

/-- All parts of the trees of a snapshot. -/
def parts (s : Snapshot) : List Part := s.root.parts ++ s.components.flatMap fun c => c.tree.parts

theorem root_parts_subset (s : Snapshot) : s.root.parts ⊆ s.parts := List.subset_append_left _ _

theorem parts_subset {s : Snapshot} {c : Instance} (h : c ∈ s.components) :
    c.tree.parts ⊆ s.parts :=
  fun _ hp => List.mem_append_right _ (List.mem_flatMap.mpr ⟨c, h, hp⟩)

theorem contains_iff {s : Snapshot} {cid : Nat} :
    s.contains cid = true ↔ ∃ c ∈ s.components, c.cid = cid := by
  simp [contains]

/-- Component numbers tell the components of a table apart. -/
def Numbered (s : Snapshot) : Prop := (s.components.map Instance.cid).Nodup

theorem find?_eq_some_iff {s : Snapshot} (hn : s.Numbered) {cid : Nat} {c : Instance} :
    s.find? cid = some c ↔ c ∈ s.components ∧ c.cid = cid := by
  rw [find?]
  constructor
  · intro h
    exact ⟨List.mem_of_find?_eq_some h, by simpa using List.find?_some h⟩
  · rintro ⟨hc, rfl⟩
    obtain ⟨b, hb⟩ : ∃ b, (s.components.find? fun x => x.cid == c.cid) = some b :=
      Option.isSome_iff_exists.mp (List.find?_isSome.mpr ⟨c, hc, by simp⟩)
    have hcid : b.cid = c.cid := by simpa using List.find?_some hb
    rw [hb, List.inj_on_of_nodup_map hn (List.mem_of_find?_eq_some hb) hc hcid]

theorem find?_eq_none_iff {s : Snapshot} {cid : Nat} :
    s.find? cid = none ↔ ¬ s.contains cid = true := by
  simp [find?, contains]

/-- Every reference leads to a component of the table. -/
def Closed (s : Snapshot) : Prop := ∀ cid ∈ s.refs, s.contains cid = true

theorem checkRefs_eq_ok {s : Snapshot} : s.checkRefs = .ok () ↔ s.Closed := by
  unfold checkRefs
  split
  · rename_i cid h
    have hm := List.mem_of_find?_eq_some h
    have hc := List.find?_some h
    simp only [reduceCtorEq, false_iff]
    exact fun hall => by simp [hall cid hm] at hc
  · rename_i h
    rw [List.find?_eq_none] at h
    simpa [Closed] using h

end Snapshot

theorem mapM_eq_ok {ε α β : Type} {f : α → Except ε β} {g : α → β} {xs : List α}
    (h : ∀ x ∈ xs, f x = .ok (g x)) : xs.mapM f = .ok (xs.map g) := by
  induction xs with
  | nil => rfl
  | cons x rest ih =>
    rw [List.mapM_cons, h x List.mem_cons_self, ih fun y hy => h y (List.mem_cons_of_mem x hy)]
    rfl

/-- An exact patch between two snapshots. -/
structure Patch.Exact (patch : Patch) (previous current : Snapshot) : Prop where
  root : TreePatch.ExactFor patch.root previous.root current.root
  /-- No component is listed twice. -/
  once : (patch.components.map Prod.fst).Nodup
  /-- A component is listed when it is new or its tree differs. -/
  sent : ∀ cid, (∃ p, (cid, some p) ∈ patch.components) ↔
    ∃ c ∈ current.components, c.cid = cid ∧
      (previous.contains cid = false ∨ ∃ b ∈ previous.components, b.cid = cid ∧ ¬ b.tree.Same c.tree)
  sent_exact : ∀ cid p, (cid, some p) ∈ patch.components →
    ∃ c ∈ current.components, c.cid = cid ∧
      ((previous.contains cid = false ∧ p = c.tree.full) ∨
        ∃ b ∈ previous.components, b.cid = cid ∧ p.Exact b.tree c.tree)
  /-- A number is given up when its component is there no longer. -/
  gone : ∀ cid, (cid, none) ∈ patch.components ↔
    previous.contains cid = true ∧ current.contains cid = false

/-- What a comparison must send of a component, if anything. -/
def Instance.ExactFor (previous : Snapshot) (c : Instance) (patch : Option TreePatch) : Prop :=
  match previous.find? c.cid with
  | none => patch = some c.tree.full
  | some before => TreePatch.ExactFor patch before.tree c.tree

/-- Components of a patch: those that are sent, and those that are gone. -/
def listed (sent : Instance → Option TreePatch) (previous : Option Snapshot)
    (current : Snapshot) : List (Nat × Option TreePatch) :=
  (current.components.filterMap fun c => (sent c).map fun p => (c.cid, some p)) ++
    (Snapshot.removed previous current).map fun cid => (cid, none)

section Listed
variable {sent : Instance → Option TreePatch} {previous : Option Snapshot} {current : Snapshot}

theorem mem_listed_some {cid : Nat} {p : TreePatch} :
    (cid, some p) ∈ listed sent previous current ↔
      ∃ c ∈ current.components, c.cid = cid ∧ sent c = some p := by
  simp only [listed, List.mem_append, List.mem_filterMap, List.mem_map, Prod.mk.injEq, reduceCtorEq,
    and_false, exists_false, or_false, Option.map_eq_some_iff, Option.some.injEq]
  constructor
  · rintro ⟨c, hc, q, hq, hcid, rfl⟩
    exact ⟨c, hc, hcid, hq⟩
  · rintro ⟨c, hc, hcid, hp⟩
    exact ⟨c, hc, p, hp, hcid, rfl⟩

theorem mem_listed_none {cid : Nat} :
    (cid, none) ∈ listed sent previous current ↔ cid ∈ Snapshot.removed previous current := by
  simp only [listed, List.mem_append, List.mem_filterMap, List.mem_map, Prod.mk.injEq, reduceCtorEq,
    and_false, exists_false, false_or, Option.map_eq_some_iff, and_true, exists_eq_right]

theorem mem_removed {before : Snapshot} {cid : Nat} :
    cid ∈ Snapshot.removed (some before) current ↔
      before.contains cid = true ∧ current.contains cid = false := by
  rw [Snapshot.removed, List.mem_filter, Snapshot.contains_iff, List.mem_map, Bool.not_eq_true']

theorem nodup_removed (hp : ∀ before ∈ previous, before.Numbered) :
    (Snapshot.removed previous current).Nodup := by
  cases previous with
  | none => exact List.nodup_nil
  | some before => exact (hp before rfl).filter _

theorem listed_nodup (hp : ∀ before ∈ previous, before.Numbered) (hc : current.Numbered) :
    ((listed sent previous current).map Prod.fst).Nodup := by
  have hsent : ((current.components.filterMap fun c =>
      (sent c).map fun p => (c.cid, some p)).map Prod.fst).Sublist
        (current.components.map Instance.cid) := by
    induction current.components with
    | nil => exact .slnil
    | cons c rest ih =>
      rw [List.filterMap_cons, List.map_cons]
      cases sent c with
      | none => exact ih.cons _
      | some p => exact ih.cons_cons _
  have hgone : ((Snapshot.removed previous current).map fun cid =>
      ((cid, none) : Nat × Option TreePatch)).map Prod.fst =
        Snapshot.removed previous current := by
    rw [List.map_map]
    exact List.map_id _
  rw [listed, List.map_append, hgone]
  refine List.Nodup.append (hsent.nodup hc) (nodup_removed hp) ?_
  intro cid hs hr
  obtain ⟨c, hm, hcid⟩ := List.mem_map.mp (hsent.subset hs)
  have hcontains : current.contains cid = true := Snapshot.contains_iff.mpr ⟨c, hm, hcid⟩
  cases previous with
  | none => cases hr
  | some before =>
    have hnot := (mem_removed.mp hr).2
    simp [hcontains] at hnot

end Listed

section Comparison
variable {ps : List Part} (hps : Consistent ps) (hroots : RootsAgree ps) (honce : KeyedOnce ps)
include hps hroots honce

theorem Snapshot.diffInstance_exact {previous : Snapshot} {c : Instance}
    (hp : previous.parts ⊆ ps) (hc : c.tree.parts ⊆ ps) :
    ∃ patch, Snapshot.diffInstance (some previous) c =
        .ok (patch.map fun p => (c.cid, some p)) ∧ c.ExactFor previous patch := by
  simp only [Snapshot.diffInstance, Instance.ExactFor, Option.bind_some]
  cases hf : previous.find? c.cid with
  | none => exact ⟨some c.tree.full, rfl, rfl⟩
  | some before =>
    have hb : before.tree.parts ⊆ ps :=
      List.Subset.trans (Snapshot.parts_subset (List.mem_of_find?_eq_some hf)) hp
    have hdiff : Tree.diff (some before.tree) c.tree none = before.tree.diffTo c.tree := by
      simp [Tree.diff]
    obtain ⟨patch, hpatch⟩ := Tree.diffTo_total hps honce c.tree hb hc
    refine ⟨patch, ?_, Tree.exactFor_diffTo hps hroots c.tree hb hc hpatch⟩
    rw [Option.map_some, hdiff, hpatch]
    rfl

/-- The comparison of two snapshots makes an exact patch. -/
theorem Snapshot.diff_exactly {previous current : Snapshot} (hp : previous.parts ⊆ ps)
    (hc : current.parts ⊆ ps) (hpn : previous.Numbered) (hcn : current.Numbered)
    (hclosed : current.Closed) :
    ∃ patch, Snapshot.diff (some previous) current = .ok patch ∧ patch.Exact previous current := by
  have hdiff : Tree.diff (some previous.root) current.root none =
      previous.root.diffTo current.root := by simp [Tree.diff]
  have hpr := List.Subset.trans previous.root_parts_subset hp
  have hcr := List.Subset.trans current.root_parts_subset hc
  obtain ⟨root, hroot⟩ := Tree.diffTo_total hps honce current.root hpr hcr
  have hsent : ∀ c : Instance, ∃ patch, c ∈ current.components →
      Snapshot.diffInstance (some previous) c = .ok (patch.map fun p => (c.cid, some p)) ∧
        c.ExactFor previous patch := by
    intro c
    by_cases hm : c ∈ current.components
    · obtain ⟨patch, hpatch⟩ := Snapshot.diffInstance_exact hps hroots honce hp
        (List.Subset.trans (Snapshot.parts_subset hm) hc)
      exact ⟨patch, fun _ => hpatch⟩
    · exact ⟨none, fun h => absurd h hm⟩
  choose sent hsent using hsent
  have hcomponents := mapM_eq_ok fun c hm => (hsent c hm).1
  refine ⟨⟨root, listed sent (some previous) current⟩, ?_, ?_⟩
  · rw [Snapshot.diff, Snapshot.checkRefs_eq_ok.mpr hclosed, Option.map_some, hdiff, hroot,
      hcomponents]
    simp [bind, Except.bind, listed, List.filterMap_map]
  · have hnew : ∀ c ∈ current.components, previous.contains c.cid = false →
        sent c = some c.tree.full := by
      intro c hm hnot
      have he := (hsent c hm).2
      rw [Instance.ExactFor, Snapshot.find?_eq_none_iff.mpr (by simp [hnot])] at he
      exact he
    have hkept : ∀ c ∈ current.components, ∀ b ∈ previous.components, b.cid = c.cid →
        TreePatch.ExactFor (sent c) b.tree c.tree := by
      intro c hm b hb hcid
      have he := (hsent c hm).2
      rw [Instance.ExactFor, (Snapshot.find?_eq_some_iff hpn).mpr ⟨hb, hcid⟩] at he
      exact he
    refine ⟨Tree.exactFor_diffTo hps hroots current.root hpr hcr hroot,
      listed_nodup (fun b hb => Option.some.inj hb ▸ hpn) hcn, fun cid => ?_, fun cid p hm => ?_,
      fun cid => mem_listed_none.trans mem_removed⟩
    · simp only [mem_listed_some]
      constructor
      · rintro ⟨p, c, hm, rfl, hs⟩
        refine ⟨c, hm, rfl, ?_⟩
        cases hcontains : previous.contains c.cid with
        | false => exact .inl rfl
        | true =>
          obtain ⟨b, hb, hcid⟩ := Snapshot.contains_iff.mp hcontains
          refine .inr ⟨b, hb, hcid, fun hsame => ?_⟩
          rw [(hkept c hm b hb hcid).1.mpr hsame] at hs
          cases hs
      · rintro ⟨c, hm, rfl, hnot | ⟨b, hb, hcid, hdiffer⟩⟩
        · exact ⟨_, c, hm, rfl, hnew c hm hnot⟩
        · cases hs : sent c with
          | none => exact absurd ((hkept c hm b hb hcid).1.mp hs) hdiffer
          | some p => exact ⟨p, c, hm, rfl, hs⟩
    · obtain ⟨c, hmem, rfl, hs⟩ := mem_listed_some.mp hm
      refine ⟨c, hmem, rfl, ?_⟩
      cases hcontains : previous.contains c.cid with
      | false =>
        exact .inl ⟨rfl, Option.some.inj (hs.symm.trans (hnew c hmem hcontains))⟩
      | true =>
        obtain ⟨b, hb, hcid⟩ := Snapshot.contains_iff.mp hcontains
        exact .inr ⟨b, hb, hcid, (hkept c hmem b hb hcid).2 p hs⟩

end Comparison

/-- Patches are exact. Of two trees that go together there is no patch if and only if they have one
fingerprint and the same dynamics, and a patch lists on every level what differs and nothing else.
Of two snapshots of such trees the patch lists the components that are new or differ, and those
that are gone. -/
theorem patches_exact :
    (∀ {previous current : Tree}, Consistent (previous.parts ++ current.parts) →
      RootsAgree (previous.parts ++ current.parts) →
      KeyedOnce (previous.parts ++ current.parts) →
        ∃ patch, Tree.diff (some previous) current none = .ok patch ∧
          (patch = none ↔ previous.fingerprint = current.fingerprint ∧
            Dynamic.AllSame previous.dynamics current.dynamics) ∧
          ∀ p, patch = some p → p.Exact previous current) ∧
    ∀ {previous current : Snapshot}, Consistent (previous.parts ++ current.parts) →
      RootsAgree (previous.parts ++ current.parts) →
      KeyedOnce (previous.parts ++ current.parts) →
      previous.Numbered → current.Numbered → current.Closed →
        ∃ patch, Snapshot.diff (some previous) current = .ok patch ∧
          patch.Exact previous current := by
  constructor
  · intro previous current hc hr hk
    have hp : previous.parts ⊆ previous.parts ++ current.parts := List.subset_append_left _ _
    have hcur : current.parts ⊆ previous.parts ++ current.parts := List.subset_append_right _ _
    have hdiff : Tree.diff (some previous) current none = previous.diffTo current := by
      simp [Tree.diff]
    obtain ⟨patch, hpatch⟩ := Tree.diffTo_total hc hk current hp hcur
    have hexact := Tree.exactFor_diffTo hc hr current hp hcur hpatch
    have hsame := Tree.same_iff_of_consistent hc hr (Tree.mem_parts hp) (Tree.mem_parts hcur)
    exact ⟨patch, hdiff.trans hpatch, hexact.1.trans hsame, hexact.2⟩
  · intro previous current hc hr hk hpn hcn hclosed
    exact Snapshot.diff_exactly hc hr hk (List.subset_append_left _ _)
      (List.subset_append_right _ _) hpn hcn hclosed

/-- A tree with one text. -/
def leaf (id : Identity) (s : String) : Tree :=
  ⟨id, ["<b>", "</b>"], [⟨id + 1, .text s⟩], "leaf", true⟩

/-- A snapshot with a list of components and their trees. -/
def listSnapshot (root : Tree) (leaves : List (Nat × Identity × String)) : Snapshot :=
  ⟨root, leaves.map fun (cid, id, s) => ⟨cid, toString cid, leaf id s, [], []⟩⟩

/-- Two components before: one goes, one stays as it is, one comes. -/
def snapshotBefore : Snapshot :=
  listSnapshot (keyedList 0 [(10, 1, "a"), (20, 2, "b")]) [(1, 30, "x"), (2, 40, "y")]

def snapshotAfter : Snapshot :=
  listSnapshot (keyedList 100 [(20, 2, "b"), (110, 3, "c")]) [(2, 130, "y"), (3, 140, "z")]

theorem snapshots_consistent : Consistent (snapshotBefore.parts ++ snapshotAfter.parts) := by
  refine ⟨⟨⟨?tree_statics, ?loop_statics⟩, ⟨?same_dynamic, ?same_row, ?same_tree⟩⟩, ?tree_fits,
    ?row_fits⟩
  all_goals
    simp only [Snapshot.parts, snapshotBefore, snapshotAfter, listSnapshot, leaf, keyedList,
      Tree.parts, Dynamic.allParts, Dynamic.parts, Content.parts, Row.allParts, Row.parts,
      List.map_cons, List.map_nil, List.flatMap_cons, List.flatMap_nil, List.nil_append,
      List.append_nil, List.cons_append, List.mem_cons, List.not_mem_nil, reduceCtorEq,
      Part.tree.injEq, Part.loop.injEq, Part.dynamic.injEq, Part.row.injEq, or_false, false_or]
  case tree_fits =>
    rintro t (rfl | rfl | rfl | rfl | rfl | rfl) <;> rfl
  case row_fits =>
    rintro f s rows (⟨rfl, rfl, rfl⟩ | ⟨rfl, rfl, rfl⟩) <;> simp
  case tree_statics =>
    rintro t u (rfl | rfl | rfl | rfl | rfl | rfl) (rfl | rfl | rfl | rfl | rfl | rfl) hf <;>
    first | rfl | simp at hf
  case loop_statics =>
    rintro f s rows s' rows' (⟨rfl, rfl, rfl⟩ | ⟨rfl, rfl, rfl⟩) (⟨-, rfl, rfl⟩ | ⟨-, rfl, rfl⟩) <;>
    rfl
  case same_dynamic =>
    rintro d e hd he hid
    rcases hd with rfl | rfl | rfl | rfl | rfl | rfl | rfl | rfl | rfl | rfl | rfl | rfl | rfl |
      rfl <;>
    rcases he with rfl | rfl | rfl | rfl | rfl | rfl | rfl | rfl | rfl | rfl | rfl | rfl | rfl |
      rfl <;>
    first | rfl | simp at hid
  case same_row =>
    rintro r q (rfl | rfl | rfl | rfl) (rfl | rfl | rfl | rfl) hid <;>
    first | rfl | simp at hid
  case same_tree =>
    rintro t u (rfl | rfl | rfl | rfl | rfl | rfl) (rfl | rfl | rfl | rfl | rfl | rfl) hid <;>
    first | rfl | simp at hid

theorem snapshots_rootsAgree : RootsAgree (snapshotBefore.parts ++ snapshotAfter.parts) := by
  intro t u ht hu _
  have hroot : ∀ t, Part.tree t ∈ snapshotBefore.parts ++ snapshotAfter.parts → t.root = true := by
    intro t ht
    simp only [Snapshot.parts, snapshotBefore, snapshotAfter, listSnapshot, leaf, keyedList,
      Tree.parts, Dynamic.allParts, Dynamic.parts, Content.parts, Row.allParts, Row.parts,
      List.map_cons, List.map_nil, List.flatMap_cons, List.flatMap_nil, List.nil_append,
      List.append_nil, List.cons_append, List.mem_cons, List.not_mem_nil, reduceCtorEq,
      Part.tree.injEq, or_false, false_or] at ht
    rcases ht with rfl | rfl | rfl | rfl | rfl | rfl <;> rfl
  rw [hroot t ht, hroot u hu]

theorem snapshots_keyedOnce : KeyedOnce (snapshotBefore.parts ++ snapshotAfter.parts) := by
  intro f s rows h
  simp only [Snapshot.parts, snapshotBefore, snapshotAfter, listSnapshot, leaf, keyedList,
    Tree.parts, Dynamic.allParts, Dynamic.parts, Content.parts, Row.allParts, Row.parts,
    List.map_cons, List.map_nil, List.flatMap_cons, List.flatMap_nil, List.nil_append,
    List.append_nil, List.cons_append, List.mem_cons, List.not_mem_nil, reduceCtorEq,
    Part.loop.injEq, or_false, false_or] at h
  rcases h with ⟨rfl, rfl, rfl⟩ | ⟨rfl, rfl, rfl⟩ <;> decide

/-- The roots and the snapshots of the two lists are such trees and snapshots. -/
theorem snapshots_patches_exact :
    (∃ patch, Tree.diff (some snapshotBefore.root) snapshotAfter.root none = .ok patch ∧
      (patch = none ↔ snapshotBefore.root.fingerprint = snapshotAfter.root.fingerprint ∧
        Dynamic.AllSame snapshotBefore.root.dynamics snapshotAfter.root.dynamics) ∧
      ∀ p, patch = some p → p.Exact snapshotBefore.root snapshotAfter.root) ∧
    ∃ patch, Snapshot.diff (some snapshotBefore) snapshotAfter = .ok patch ∧
      patch.Exact snapshotBefore snapshotAfter := by
  have hsub : snapshotBefore.root.parts ++ snapshotAfter.root.parts ⊆
      snapshotBefore.parts ++ snapshotAfter.parts :=
    List.append_subset.mpr
      ⟨List.Subset.trans snapshotBefore.root_parts_subset (List.subset_append_left _ _),
        List.Subset.trans snapshotAfter.root_parts_subset (List.subset_append_right _ _)⟩
  constructor
  · exact patches_exact.1 (snapshots_consistent.mono hsub) (snapshots_rootsAgree.mono hsub)
      (snapshots_keyedOnce.mono hsub)
  · exact patches_exact.2 snapshots_consistent snapshots_rootsAgree snapshots_keyedOnce
      (by unfold Snapshot.Numbered; decide) (by unfold Snapshot.Numbered; decide) 
      (by unfold Snapshot.Closed; decide)

end LiveTemplate
