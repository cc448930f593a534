import LiveTemplate.Proofs.Tree.Comparison
import LiveTemplate.Proofs.Tree.Parts

/-!
Trees that go together can be compared: equal fingerprints mean dynamics of one number, rows of one
loop fit the same statics, and no key repeats.
-/

namespace LiveTemplate

set_option autoImplicit false

theorem rowKeys_total {rows : List Row} (hk : AllKeyed rows)
    (hn : (rows.filterMap Row.key?).Nodup) : rowKeys rows = .ok (keysOf rows) :=
  rowKeys_eq_ok.mpr ⟨rfl, filterMap_key? hk ▸ hn⟩

section Totality
variable {ps : List Part} (hps : Consistent ps) (honce : KeyedOnce ps)
include hps honce

set_option linter.unusedSectionVars false in
mutual

/-- The comparison of two trees comes to an end without an error. -/
theorem Tree.diffTo_total : ∀ (u : Tree) {t : Tree}, t.parts ⊆ ps → u.parts ⊆ ps →
    ∃ patch, t.diffTo u = .ok patch
  | ⟨id, statics, dynamics, fingerprint, root⟩, t, ht, hu => by
    rw [Tree.diffTo_eq]
    split
    · exact ⟨_, rfl⟩
    · rename_i hf
      have hst : t.statics = statics :=
        hps.tree_statics (Tree.mem_parts ht) (Tree.mem_parts hu) (not_not.mp hf)
      have hlt := hps.tree_fits (Tree.mem_parts ht)
      have hlu : statics.length = dynamics.length + 1 := hps.tree_fits (Tree.mem_parts hu)
      have hl : t.dynamics.length = dynamics.length := by
        rw [hst] at hlt
        omega
      obtain ⟨slots, hs⟩ := Dynamic.diffAll_total dynamics 0 hl
        (Tree.dynamics_subset ht) (Tree.dynamics_subset hu)
      rw [if_neg (not_not.mpr hl), hs]
      exact ⟨_, rfl⟩

theorem Dynamic.diffTo_total : ∀ (e : Dynamic) {d : Dynamic}, d.parts ⊆ ps → e.parts ⊆ ps →
    ∃ patch, d.diffTo e = .ok patch
  | ⟨id, content⟩, d, hd, he => by
    rw [Dynamic.parts_eq] at hd he
    rw [Dynamic.diffTo]
    split
    · exact ⟨_, rfl⟩
    · exact Content.diffTo_total content (List.subset_of_cons_subset hd)
        (List.subset_of_cons_subset he)

theorem Content.diffTo_total : ∀ (c : Content) {b : Content}, b.parts ⊆ ps → c.parts ⊆ ps →
    ∃ patch, b.diffTo c = .ok patch
  | .text _, b, _, _ => by
    rw [Content.diffTo_eq]
    cases b <;> exact ⟨_, rfl⟩
  | .component _, b, _, _ => by
    rw [Content.diffTo_eq]
    cases b <;> exact ⟨_, rfl⟩
  | .nested tree', b, hb, hc => by
    rw [Content.diffTo_eq]
    cases b with
    | nested tree =>
      obtain ⟨patch, hp⟩ := Tree.diffTo_total tree' hb hc
      exact ⟨_, map_eq_ok.mpr ⟨patch, hp, rfl⟩⟩
    | _ => exact ⟨_, rfl⟩
  | .list trees', b, hb, hc => by
    rw [Content.diffTo_eq]
    cases b with
    | list trees =>
      dsimp only
      split
      · rename_i hs
        obtain ⟨edits, hd⟩ := Tree.diffAll_total trees' 0 hb hc
        exact ⟨_, map_eq_ok.mpr ⟨edits, hd, rfl⟩⟩
      · exact ⟨_, rfl⟩
    | _ => exact ⟨_, rfl⟩
  | .rows f' s' current, b, hb, hc => by
    rw [Content.diffTo_eq]
    cases b with
    | rows f s previous =>
      dsimp only
      split
      · exact ⟨_, rfl⟩
      · rename_i hf
        cases not_not.mp hf
        have hbm := hb List.mem_cons_self
        have hcm := hc List.mem_cons_self
        cases hps.loop_statics hbm hcm
        have hfit : ∀ r ∈ previous, ∀ q ∈ current, r.dynamics.length = q.dynamics.length := by
          intro r hr q hq
          have hr := hps.row_fits hbm r hr
          have hq := hps.row_fits hcm q hq
          omega
        have hbr := List.subset_of_cons_subset hb
        have hcr := List.subset_of_cons_subset hc
        rw [Row.diffLoop]
        split
        · rename_i hk
          obtain ⟨hp, hcur⟩ := allKeyed_of_areKeyed hk
          obtain ⟨edits, hd⟩ := Row.diffKeyed_total current 0 hfit hbr hcr
          rw [rowKeys_total hp (honce _ _ _ hbm), rowKeys_total hcur (honce _ _ _ hcm), hd]
          exact ⟨_, rfl⟩
        · split
          · exact ⟨_, rfl⟩
          · obtain ⟨edits, hd⟩ := Row.diffAll_total current 0 hfit hbr hcr
            exact ⟨_, map_eq_ok.mpr ⟨edits, hd, rfl⟩⟩
    | _ => exact ⟨_, rfl⟩

theorem Dynamic.diffAll_total : ∀ (current : List Dynamic) {previous : List Dynamic} (n : Nat),
    previous.length = current.length → Dynamic.allParts previous ⊆ ps →
    Dynamic.allParts current ⊆ ps → ∃ edits, Dynamic.diffAll n previous current = .ok edits
  | [], [], _, _, _, _ => ⟨_, rfl⟩
  | e :: current, d :: previous, n, hl, hp, hc => by
    rw [Dynamic.allParts, List.append_subset] at hp hc
    obtain ⟨patch, hpatch⟩ := Dynamic.diffTo_total e hp.1 hc.1
    obtain ⟨rest, hrest⟩ := Dynamic.diffAll_total current (n + 1) (Nat.succ.inj hl) hp.2 hc.2
    rw [Dynamic.diffAll_cons, hpatch, hrest]
    exact ⟨_, rfl⟩

theorem Tree.diffAll_total : ∀ (current : List Tree) {previous : List Tree} (n : Nat),
    Tree.allParts previous ⊆ ps → Tree.allParts current ⊆ ps →
      ∃ edits, Tree.diffAll n previous current = .ok edits
  | [], previous, _, _, _ => by cases previous <;> exact ⟨_, rfl⟩
  | _ :: _, [], _, _, _ => ⟨_, rfl⟩
  | u :: current, t :: previous, n, hp, hc => by
    rw [Tree.allParts, List.append_subset] at hp hc
    have hitem : ∃ patch, t.diffItem u = .ok patch := by
      rw [Tree.diffItem]
      split
      · exact ⟨_, rfl⟩
      · exact Tree.diffTo_total u hp.1 hc.1
    obtain ⟨patch, hpatch⟩ := hitem
    obtain ⟨rest, hrest⟩ := Tree.diffAll_total current (n + 1) hp.2 hc.2
    rw [Tree.diffAll_cons, hpatch, hrest]
    exact ⟨_, rfl⟩

theorem Row.diffTo_total : ∀ (q : Row) {r : Row}, r.dynamics.length = q.dynamics.length →
    r.parts ⊆ ps → q.parts ⊆ ps → ∃ edits, r.diffTo q = .ok edits
  | ⟨id, dynamics⟩, r, hl, hr, hq => by
    rw [Row.parts_eq] at hr hq
    rw [Row.diffTo_eq]
    split
    · exact ⟨_, rfl⟩
    · rw [if_neg (not_not.mpr hl)]
      exact Dynamic.diffAll_total dynamics 0 hl (List.subset_of_cons_subset hr)
        (List.subset_of_cons_subset hq)

theorem Row.diffAll_total : ∀ (current : List Row) {previous : List Row} (n : Nat),
    (∀ r ∈ previous, ∀ q ∈ current, r.dynamics.length = q.dynamics.length) →
    Row.allParts previous ⊆ ps → Row.allParts current ⊆ ps →
      ∃ edits, Row.diffAll n previous current = .ok edits
  | [], previous, _, _, _, _ => by cases previous <;> exact ⟨_, rfl⟩
  | _ :: _, [], _, _, _, _ => ⟨_, rfl⟩
  | q :: current, r :: previous, n, hfit, hp, hc => by
    rw [Row.allParts, List.append_subset] at hp hc
    obtain ⟨edits, he⟩ := Row.diffTo_total q (hfit r List.mem_cons_self q List.mem_cons_self)
      hp.1 hc.1
    have hrest : ∀ r ∈ previous, ∀ q ∈ current, r.dynamics.length = q.dynamics.length :=
      fun a ha b hb => hfit a (List.mem_cons_of_mem r ha) b (List.mem_cons_of_mem q hb)
    obtain ⟨rest, hr⟩ := Row.diffAll_total current (n + 1) hrest hp.2 hc.2
    rw [Row.diffAll, he, hr]
    exact ⟨_, rfl⟩

theorem Row.diffKeyed_total : ∀ (current : List Row) {previous : List Row} (n : Nat),
    (∀ r ∈ previous, ∀ q ∈ current, r.dynamics.length = q.dynamics.length) →
    Row.allParts previous ⊆ ps → Row.allParts current ⊆ ps →
      ∃ edits, Row.diffKeyed n previous current = .ok edits
  | [], _, _, _, _, _ => ⟨_, rfl⟩
  | q :: current, previous, n, hfit, hp, hc => by
    rw [Row.allParts, List.append_subset] at hc
    have hrest : ∀ r ∈ previous, ∀ q ∈ current, r.dynamics.length = q.dynamics.length :=
      fun a ha b hb => hfit a ha b (List.mem_cons_of_mem q hb)
    obtain ⟨rest, hr⟩ := Row.diffKeyed_total current (n + 1) hrest hp hc.2
    rw [Row.diffKeyed_cons, hr]
    cases hf : rowOf? previous q.key? with
    | none => exact ⟨_, rfl⟩
    | some before =>
      have hin := (rowOf?_spec hf).1
      obtain ⟨edits, he⟩ := Row.diffTo_total q (hfit before hin q List.mem_cons_self)
        (List.Subset.trans (Row.parts_subset hin) hp) hc.1
      simp only [he]
      exact ⟨_, rfl⟩

end

end Totality

end LiveTemplate
