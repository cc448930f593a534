import LiveTemplate.Proofs.Client.Updating
import LiveTemplate.Proofs.Snapshot.Exactness
import LiveTemplate.Proofs.Tree.RoundTrip

/-!
A client that shows one snapshot shows the next once it has read the patch between them. The patch
may be made from a snapshot that has come to hold more components than the client was sent: as long
as the next snapshot keeps none of these, the client does not notice.
-/

namespace LiveTemplate

set_option autoImplicit false

theorem map_of_mapM_eq_ok {ε α β : Type} {f : α → Except ε β} {g : α → β}
    (hg : ∀ x y, f x = .ok y → y = g x) {xs : List α} {ys : List β} (h : xs.mapM f = .ok ys) :
    ys = xs.map g ∧ ∀ x ∈ xs, f x = .ok (g x) := by
  induction xs generalizing ys with
  | nil =>
    cases h
    exact ⟨rfl, fun x hx => by cases hx⟩
  | cons x rest ih =>
    rw [List.mapM_cons] at h
    obtain ⟨y, hy, h⟩ := bind_eq_ok.mp h
    obtain ⟨zs, hzs, h⟩ := bind_eq_ok.mp h
    cases Except.ok.inj h
    obtain ⟨rfl, hall⟩ := ih hzs
    cases hg x y hy
    refine ⟨rfl, fun z hz => ?_⟩
    rcases List.mem_cons.mp hz with rfl | hz
    · exact hy
    · exact hall z hz

namespace Snapshot

/-- The tree that a component number had before. -/
def treeBefore (previous : Option Snapshot) (cid : Nat) : Option Tree :=
  (previous.bind (·.find? cid)).map Instance.tree

/-- What a comparison sends of a component. -/
def sent (previous : Option Snapshot) (c : Instance) : Option TreePatch :=
  match Tree.diff (treeBefore previous c.cid) c.tree none with
  | .ok patch => patch
  | .error _ => none

/-- What a patch between snapshots is made of. -/
theorem diff_eq_ok {previous : Option Snapshot} {current : Snapshot} {patch : Patch}
    (h : diff previous current = .ok patch) :
    current.Closed ∧ Tree.diff (previous.map Snapshot.root) current.root none = .ok patch.root ∧
      (∀ c ∈ current.components,
        Tree.diff (treeBefore previous c.cid) c.tree none = .ok (sent previous c)) ∧
      patch.components = listed (sent previous) previous current := by
  rw [diff] at h
  obtain ⟨u, hrefs, h⟩ := bind_eq_ok.mp h
  obtain ⟨root, hroot, h⟩ := bind_eq_ok.mp h
  obtain ⟨components, hcomponents, h⟩ := bind_eq_ok.mp h
  cases Except.ok.inj h
  have hsent : ∀ c q, diffInstance previous c = .ok q →
      q = (sent previous c).map fun p => (c.cid, some p) := by
    intro c q hq
    obtain ⟨patch, hpatch, hq⟩ := bind_eq_ok.mp hq
    change Tree.diff (treeBefore previous c.cid) c.tree none = .ok patch at hpatch
    rw [sent, hpatch]
    exact (Except.ok.inj hq).symm
  obtain ⟨rfl, hall⟩ := map_of_mapM_eq_ok hsent hcomponents
  refine ⟨checkRefs_eq_ok.mp hrefs, hroot, fun c hc => ?_, ?_⟩
  · obtain ⟨patch, hpatch, -⟩ := bind_eq_ok.mp (hall c hc)
    change Tree.diff (treeBefore previous c.cid) c.tree none = .ok patch at hpatch
    rw [sent, hpatch]
  · rw [listed, List.filterMap_map]
    rfl

end Snapshot

theorem Dynamic.diffAll_self (n : Nat) (dynamics : List Dynamic) :
    Dynamic.diffAll n dynamics dynamics = .ok [] := by
  induction dynamics generalizing n with
  | nil => rfl
  | cons d rest ih =>
    have hd : d.diffTo d = .ok none := by rw [Dynamic.diffTo, if_pos rfl]
    rw [Dynamic.diffAll_cons, hd, ih]
    rfl

theorem Tree.diffTo_self (t : Tree) : t.diffTo t = .ok none := by
  rw [Tree.diffTo_eq, if_neg (not_not.mpr rfl), if_neg (not_not.mpr rfl), Dynamic.diffAll_self]
  rfl

/-- The entries of a patch turn one table into the next, if each tree that is sent leads to the next
one from what is held, and what is not sent is held already. -/
theorem receiveComponents_listed (send : Instance → Option TreePatch) (previous : Option Snapshot)
    (table : Assoc Nat HeldTree) {current : Snapshot}
    (hp : ∀ before ∈ previous, before.Numbered) (hc : current.Numbered)
    (ht : (Assoc.keys table).Nodup)
    (hsent : ∀ c ∈ current.components, ∀ p, send c = some p →
      p.apply (Assoc.get? table c.cid) = some c.tree.held)
    (hkept : ∀ c ∈ current.components, send c = none →
      Assoc.get? table c.cid = some c.tree.held)
    (hgone : ∀ cid, current.contains cid = false → cid ∉ Snapshot.removed previous current →
      Assoc.get? table cid = none) :
    ∃ after, Client.receiveComponents (positions componentEntry (listed send previous current))
        table = some after ∧ (Assoc.keys after).Nodup ∧
      ∀ cid, Assoc.get? after cid = (current.find? cid).map fun c => c.tree.held := by
  refine receiveComponents_entries _ (listed_nodup hp hc) ht (fun cid p hm => ?_)
    (fun cid hm => ?_) fun cid hm => ?_
  · obtain ⟨c, hmem, rfl, hs⟩ := mem_listed_some.mp hm
    refine ⟨c.tree.held, hsent c hmem p hs, ?_⟩
    rw [(Snapshot.find?_eq_some_iff hc).mpr ⟨hmem, rfl⟩]
    rfl
  · have hnot : current.contains cid = false := by
      cases previous with
      | none => cases mem_listed_none.mp hm
      | some before => exact (mem_removed.mp (mem_listed_none.mp hm)).2
    rw [Snapshot.find?_eq_none_iff.mpr (by simp [hnot])]
    rfl
  · cases hcontains : current.contains cid with
    | false =>
      rw [Snapshot.find?_eq_none_iff.mpr (by simp [hcontains])]
      refine hgone cid hcontains fun hremoved => hm ?_
      exact List.mem_map.mpr ⟨(cid, none), mem_listed_none.mpr hremoved, rfl⟩
    | true =>
      obtain ⟨c, hmem, rfl⟩ := Snapshot.contains_iff.mp hcontains
      rw [(Snapshot.find?_eq_some_iff hc).mpr ⟨hmem, rfl⟩]
      refine hkept c hmem ?_
      cases hs : send c with
      | none => rfl
      | some p =>
        exact absurd (List.mem_map.mpr ⟨_, mem_listed_some.mpr ⟨c, hmem, rfl, hs⟩, rfl⟩) hm

/-- A client that holds nothing shows the snapshot that it is sent first. -/
theorem Client.shows_first {s : Snapshot} {patch : Patch} (h : Snapshot.diff none s = .ok patch)
    (hs : s.Numbered) : ∃ client, Client.update none patch = some client ∧ client.Shows s := by
  obtain ⟨-, hroot, hsent, hcomponents⟩ := Snapshot.diff_eq_ok h
  have hfull : patch.root = some s.root.full := (Except.ok.inj hroot).symm
  have hall : ∀ c ∈ s.components, Snapshot.sent none c = some c.tree.full :=
    fun c hc => (Except.ok.inj (hsent c hc)).symm
  have hread : Wire.intoTree (.fields (rootFields patch.root)) none = some s.root.held := by
    rw [hfull, ← TreePatch.encode_rootFields]
    exact TreePatch.intoTree_encode _ (Tree.apply_full s.root none)
  obtain ⟨table, htable, honce, hget⟩ := receiveComponents_listed
    (Snapshot.sent none) none [] (fun b hb => by cases hb) hs List.nodup_nil (fun c hc p hp => by
      cases (hall c hc).symm.trans hp
      exact Tree.apply_full c.tree _)
    (fun c hc hn => by
      cases (hall c hc).symm.trans hn)
    fun cid _ _ => rfl
  refine ⟨⟨s.root.held, table⟩, ?_, rfl, honce, hget⟩
  have hsome : patch.isEmpty = false := by
    rw [Patch.isEmpty, hfull]
    rfl
  rw [Client.update, hsome, Client.receive_encode, Option.map_none, hread, hcomponents]
  change Option.map _ (Client.receiveComponents _ []) = _
  rw [htable]
  rfl

/-- The snapshot of a render with components that were mounted into it after it was sent. -/
def Snapshot.grown (s : Snapshot) (more : List Instance) : Snapshot :=
  { s with components := s.components ++ more }

theorem Snapshot.find?_grown (s : Snapshot) (more : List Instance) (cid : Nat) :
    (s.grown more).find? cid = (s.find? cid).or (more.find? fun c => c.cid == cid) := by
  rw [Snapshot.find?, Snapshot.grown, List.find?_append]
  rfl

theorem Snapshot.contains_grown {s : Snapshot} {cid : Nat} (more : List Instance)
    (h : s.contains cid = true) : (s.grown more).contains cid = true := by
  obtain ⟨c, hc, hcid⟩ := Snapshot.contains_iff.mp h
  exact Snapshot.contains_iff.mpr ⟨c, List.mem_append_left more hc, hcid⟩

theorem Snapshot.find?_of_not_contains {s : Snapshot} {cid : Nat} (h : s.contains cid = false) :
    s.find? cid = none :=
  Snapshot.find?_eq_none_iff.mpr (by simp [h])

theorem Tree.diff_some (before after : Tree) :
    Tree.diff (some before) after none = before.diffTo after := by
  simp [Tree.diff]

theorem intoTree_rootFields {patch : Option TreePatch} {held t : HeldTree}
    (h : TreePatch.applyTo patch held = some t) :
    Wire.intoTree (.fields (rootFields patch)) (some held) = some t := by
  cases patch with
  | none =>
    cases Option.some.inj h
    cases held
    simp [rootFields, Wire.intoTree, Wire.treeFrom, Wire.fill]
  | some p =>
    rw [← TreePatch.encode_rootFields]
    exact TreePatch.intoTree_encode p h

/-- Reading the message of a patch that is empty would change nothing. -/
theorem Client.update_some (client : Client) (patch : Patch) :
    Client.update (some client) patch = Client.receive (some client) patch.encode := by
  rw [Client.update]
  split
  · rename_i hempty
    rw [Patch.isEmpty, Bool.and_eq_true, Option.isNone_iff_eq_none, List.isEmpty_iff] at hempty
    have hroot : Wire.intoTree (.fields (rootFields patch.root)) (some client.root) =
        some client.root := intoTree_rootFields (by rw [hempty.1]; rfl)
    rw [Client.receive_encode, Option.map_some, hroot, hempty.2]
    rfl
  · rfl

section Next
variable {shown next : Snapshot} {more : List Instance} {patch : Patch} {client : Client}

/-- The patch from a grown snapshot brings a client up to date that was sent the snapshot before it
grew, unless the next one keeps a component that was never sent. -/
theorem Client.shows_next (hshown : client.Shows shown)
    (hps : Coherent (shown.parts ++ next.parts))
    (h : Snapshot.diff (some (shown.grown more)) next = .ok patch)
    (hbefore : (shown.grown more).Numbered) (hn : next.Numbered)
    (hkeep : ∀ c ∈ next.components, (shown.grown more).contains c.cid = true →
      shown.contains c.cid = true) :
    ∃ after, Client.update (some client) patch = some after ∧ after.Shows next := by
  obtain ⟨-, hroot, hsent, hcomponents⟩ := Snapshot.diff_eq_ok h
  have hleft : shown.parts ⊆ shown.parts ++ next.parts := List.subset_append_left _ _
  have hright : next.parts ⊆ shown.parts ++ next.parts := List.subset_append_right _ _
  have hread : Wire.intoTree (.fields (rootFields patch.root)) (some client.root) =
      some next.root.held := by
    rw [hshown.root]
    rw [Option.map_some, Tree.diff_some] at hroot
    exact intoTree_rootFields (Tree.applyTo_diffTo hps next.root
      (List.Subset.trans shown.root_parts_subset hleft)
      (List.Subset.trans next.root_parts_subset hright) hroot)
  -- what is sent of a component leads from what the client holds of it
  have hkept : ∀ c ∈ next.components, ∀ b, shown.find? c.cid = some b →
      TreePatch.applyTo (Snapshot.sent (some (shown.grown more)) c) b.tree.held =
        some c.tree.held := by
    intro c hc b hb
    have hdiff := hsent c hc
    rw [Snapshot.treeBefore, Option.bind_some, Snapshot.find?_grown, hb] at hdiff
    rw [Option.some_or, Option.map_some, Tree.diff_some] at hdiff
    exact Tree.applyTo_diffTo hps c.tree
      (List.Subset.trans (Snapshot.parts_subset (List.mem_of_find?_eq_some hb)) hleft)
      (List.Subset.trans (Snapshot.parts_subset hc) hright) hdiff
  have hnew : ∀ c ∈ next.components, shown.find? c.cid = none →
      Snapshot.sent (some (shown.grown more)) c = some c.tree.full := by
    intro c hc hb
    have hnot : (shown.grown more).contains c.cid = false := by
      by_contra hcontains
      have hin := hkeep c hc (by simpa using hcontains)
      exact Snapshot.find?_eq_none_iff.mp hb hin
    have hdiff := hsent c hc
    rw [Snapshot.treeBefore, Option.bind_some, Snapshot.find?_of_not_contains hnot] at hdiff
    exact (Except.ok.inj hdiff).symm
  have happly : ∀ c ∈ next.components, ∀ p, Snapshot.sent (some (shown.grown more)) c = some p →
      p.apply (Assoc.get? client.components c.cid) = some c.tree.held := by
    intro c hc p hp
    rw [hshown.components]
    cases hb : shown.find? c.cid with
    | none =>
      cases (hnew c hc hb).symm.trans hp
      exact Tree.apply_full c.tree none
    | some b =>
      have hto := hkept c hc b hb
      rw [hp] at hto
      exact hto
  have hsame : ∀ c ∈ next.components, Snapshot.sent (some (shown.grown more)) c = none →
      Assoc.get? client.components c.cid = some c.tree.held := by
    intro c hc hp
    rw [hshown.components]
    cases hb : shown.find? c.cid with
    | none => cases (hnew c hc hb).symm.trans hp
    | some b =>
      have hto := hkept c hc b hb
      rw [hp] at hto
      exact hto
  have hgone : ∀ cid, next.contains cid = false →
      cid ∉ Snapshot.removed (some (shown.grown more)) next →
        Assoc.get? client.components cid = none := by
    intro cid hcid hremoved
    have hnot : shown.contains cid = false := by
      by_contra hcontains
      refine hremoved (mem_removed.mpr ⟨?_, hcid⟩)
      exact Snapshot.contains_grown more (by simpa using hcontains)
    rw [hshown.components, Snapshot.find?_of_not_contains hnot]
    rfl
  obtain ⟨table, htable, honce, hget⟩ := receiveComponents_listed
    (Snapshot.sent (some (shown.grown more))) (some (shown.grown more)) client.components
    (fun b hb => Option.some.inj hb ▸ hbefore) hn hshown.once happly hsame hgone
  refine ⟨⟨next.root.held, table⟩, ?_, rfl, honce, hget⟩
  rw [Client.update_some, Client.receive_encode, Option.map_some, hread, hcomponents]
  change Option.map _ (Client.receiveComponents _ client.components) = _
  rw [htable]
  rfl

/-- A component that the client was not sent and that is kept as it is never reaches the client. -/
theorem Client.update_lacks {c b : Instance}
    (h : Snapshot.diff (some (shown.grown more)) next = .ok patch) (hn : next.Numbered)
    (hc : c ∈ next.components) (hb : (shown.grown more).find? c.cid = some b)
    (htree : b.tree = c.tree) (hlacks : c.cid ∉ client.cids) {after : Client}
    (hafter : Client.update (some client) patch = some after) : c.cid ∉ after.cids := by
  obtain ⟨-, -, hsent, hcomponents⟩ := Snapshot.diff_eq_ok h
  have hnothing : Snapshot.sent (some (shown.grown more)) c = none := by
    have hdiff := hsent c hc
    rw [Snapshot.treeBefore, Option.bind_some, hb, Option.map_some, htree, Tree.diff_some,
      Tree.diffTo_self] at hdiff
    exact (Except.ok.inj hdiff).symm
  intro hin
  rw [Client.update_some, Client.receive_encode] at hafter
  obtain ⟨root, -, hafter⟩ := Option.bind_eq_some_iff.mp hafter
  obtain ⟨table, htable, rfl⟩ := Option.map_eq_some_iff.mp hafter
  rcases receiveComponents_cids htable hin with hheld | ⟨p, hp⟩
  · exact hlacks hheld
  · rw [hcomponents] at hp
    obtain ⟨d, hd, hcid, hs⟩ := mem_listed_some.mp hp
    cases List.inj_on_of_nodup_map hn hd hc hcid
    rw [hnothing] at hs
    cases hs

end Next

end LiveTemplate
