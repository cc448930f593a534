import LiveTemplate.Proofs.Tree.Parts
import LiveTemplate.Snapshot.Arena

/-!
Scenes of the renders of a page. Beside the mounts a scene knows the parts of trees that were handed
out, the mount key of each component number, and which render gave out a number since some moment.
A later scene knows more, and its renders have mounted more.
-/

namespace LiveTemplate

set_option autoImplicit false

structure Scene where
  parts : Part → Prop
  /-- The mount keys of component numbers. -/
  names : Nat → String → Prop
  /-- Component numbers and the renders that gave them out, from `base` on. -/
  births : Nat → Nat → Prop
  base : Nat
  mounts : Mounts

namespace Scene

/-- Where a component of a render comes from: its key was live, or the render gave it its number, or
it was kept from the render before. -/
def Origin (g : Scene) (render : Nat) (node : Instance) : Prop :=
  Assoc.get? g.mounts.registry.live node.key = some node.cid ∨ g.births node.cid render ∨
    ∃ earlier, (g.mounts.arena render).previous = some earlier ∧
      node ∈ (g.mounts.arena earlier).nodes

/-- What an arena may come to. -/
structure ArenaLe (g h : Scene) (render : Nat) : Prop where
  previous : (h.mounts.arena render).previous = (g.mounts.arena render).previous
  numbers : ∀ key cid, Assoc.get? (g.mounts.arena render).mounted key = some cid →
    Assoc.get? (h.mounts.arena render).mounted key = some cid
  nodes : ∃ more, (h.mounts.arena render).nodes = (g.mounts.arena render).nodes ++ more ∧
    ∀ node ∈ more, Assoc.contains (g.mounts.arena render).mounted node.key = false ∧
      h.Origin render node

structure Le (g h : Scene) : Prop where
  parts : ∀ p, g.parts p → h.parts p
  names : ∀ cid key, g.names cid key → h.names cid key
  births : ∀ cid render, g.births cid render → h.births cid render
  base : h.base = g.base
  live : h.mounts.registry.live = g.mounts.registry.live
  renders : h.mounts.renders.length = g.mounts.renders.length
  arenas : ∀ render, ArenaLe g h render

instance : LE Scene := ⟨Le⟩

theorem ArenaLe.mounted {g h : Scene} {render : Nat} (hle : ArenaLe g h render) (key : String)
    (hk : Assoc.contains (g.mounts.arena render).mounted key = true) :
    Assoc.contains (h.mounts.arena render).mounted key = true := by
  obtain ⟨cid, hcid⟩ := Option.isSome_iff_exists.mp hk
  exact Option.isSome_iff_exists.mpr ⟨cid, hle.numbers key cid hcid⟩

theorem ArenaLe.mem {g h : Scene} {render : Nat} (hle : ArenaLe g h render) {node : Instance}
    (hn : node ∈ (g.mounts.arena render).nodes) : node ∈ (h.mounts.arena render).nodes := by
  obtain ⟨more, hmore, -⟩ := hle.nodes
  rw [hmore]
  exact List.mem_append_left more hn

theorem Origin.mono {g h : Scene} (hle : g ≤ h) {render : Nat} {node : Instance}
    (ho : g.Origin render node) : h.Origin render node := by
  rcases ho with hlive | hbirth | ⟨earlier, hprevious, hnode⟩
  · exact .inl (hle.live ▸ hlive)
  · exact .inr (.inl (hle.births _ _ hbirth))
  · exact .inr (.inr ⟨earlier, (hle.arenas render).previous.trans hprevious,
      (hle.arenas earlier).mem hnode⟩)

theorem ArenaLe.refl (g : Scene) (render : Nat) : ArenaLe g g render where
  previous := rfl
  numbers _ _ h := h
  nodes := ⟨[], (List.append_nil _).symm, fun node h => by cases h⟩

theorem le_refl (g : Scene) : g ≤ g where
  parts _ h := h
  names _ _ h := h
  births _ _ h := h
  base := rfl
  live := rfl
  renders := rfl
  arenas := ArenaLe.refl g

theorem le_trans {f g h : Scene} (hfg : f ≤ g) (hgh : g ≤ h) : f ≤ h where
  parts p hp := hgh.parts p (hfg.parts p hp)
  names cid key hn := hgh.names cid key (hfg.names cid key hn)
  births cid render hb := hgh.births cid render (hfg.births cid render hb)
  base := hgh.base.trans hfg.base
  live := hgh.live.trans hfg.live
  renders := hgh.renders.trans hfg.renders
  arenas render := by
    refine ⟨(hgh.arenas render).previous.trans (hfg.arenas render).previous,
      fun key cid hk => (hgh.arenas render).numbers key cid ((hfg.arenas render).numbers key cid hk),
      ?_⟩
    obtain ⟨first, hfirst, hf⟩ := (hfg.arenas render).nodes
    obtain ⟨second, hsecond, hs⟩ := (hgh.arenas render).nodes
    refine ⟨first ++ second, by rw [hsecond, hfirst, List.append_assoc], fun node hm => ?_⟩
    rcases List.mem_append.mp hm with hm | hm
    · exact ⟨(hf node hm).1, (hf node hm).2.mono hgh⟩
    · refine ⟨Bool.eq_false_iff.mpr fun hmounted => ?_, (hs node hm).2⟩
      have hlater := (hfg.arenas render).mounted node.key hmounted
      rw [(hs node hm).1] at hlater
      cases hlater

/-- What is known of the nodes and keys of a render. -/
structure FitsArena (g : Scene) (a : Arena) : Prop where
  parts : ∀ node ∈ a.nodes, ∀ p ∈ node.tree.parts, g.parts p
  names : ∀ node ∈ a.nodes, g.names node.cid node.key
  mounted : ∀ key cid, Assoc.get? a.mounted key = some cid → g.names cid key
  numbers : ∀ node ∈ a.nodes, Assoc.get? a.mounted node.key = some node.cid
  once : (a.nodes.map Instance.key).Nodup

theorem FitsArena.keys {g : Scene} {a : Arena} (ha : g.FitsArena a) (node : Instance)
    (hn : node ∈ a.nodes) : Assoc.contains a.mounted node.key = true :=
  Option.isSome_iff_exists.mpr ⟨node.cid, ha.numbers node hn⟩

/-- A scene as it can be: one part for each identity, one key for each number. -/
structure Fits (g : Scene) : Prop where
  part_lt : ∀ {p : Part} {i : Identity}, g.parts p → p.id? = some i → i < g.mounts.nextPart
  part_eq : ∀ {p q : Part} {i : Identity}, g.parts p → g.parts q → p.id? = some i →
    q.id? = some i → p = q
  name_lt : ∀ {cid : Nat} {key : String}, g.names cid key → cid < g.mounts.registry.next
  name_eq : ∀ {cid : Nat} {key other : String}, g.names cid key → g.names cid other → key = other
  birth_ge : ∀ {cid render : Nat}, g.births cid render → g.base ≤ cid
  birth_lt : ∀ {cid render : Nat}, g.births cid render → cid < g.mounts.registry.next
  birth_eq : ∀ {cid render other : Nat}, g.births cid render → g.births cid other → render = other
  birth_new : ∀ {cid render : Nat} {key : String}, g.births cid render → g.names cid key →
    Assoc.contains g.mounts.registry.live key = false
  base_le : g.base ≤ g.mounts.registry.next
  live : ∀ {key : String} {cid : Nat}, Assoc.get? g.mounts.registry.live key = some cid →
    g.names cid key ∧ cid < g.base
  arenas : ∀ render, g.FitsArena (g.mounts.arena render)

def Knows (g : Scene) (parts : List Part) : Prop := ∀ p ∈ parts, g.parts p

theorem Knows.mono {g h : Scene} (hle : g ≤ h) {parts : List Part} (hk : g.Knows parts) :
    h.Knows parts := fun p hp => hle.parts p (hk p hp)

theorem Knows.subset {g : Scene} {ps qs : List Part} (hk : g.Knows qs) (hsub : ps ⊆ qs) :
    g.Knows ps := fun p hp => hk p (hsub hp)

theorem knows_nil (g : Scene) : g.Knows [] := fun p hp => by cases hp

theorem knows_cons {g : Scene} {p : Part} {ps : List Part} :
    g.Knows (p :: ps) ↔ g.parts p ∧ g.Knows ps := List.forall_mem_cons

theorem knows_append {g : Scene} {ps qs : List Part} :
    g.Knows (ps ++ qs) ↔ g.Knows ps ∧ g.Knows qs := List.forall_mem_append

theorem Fits.identified {g : Scene} (hg : g.Fits) {parts : List Part} (hk : g.Knows parts) :
    Identified parts where
  same_dynamic hd he hid := by
    cases hg.part_eq (hk _ hd) (hk _ he) (congrArg some hid) rfl
    rfl
  same_row hr hq hid := by
    cases hg.part_eq (hk _ hr) (hk _ hq) (congrArg some hid) rfl
    rfl
  same_tree ht hu hid := by
    cases hg.part_eq (hk _ ht) (hk _ hu) (congrArg some hid) rfl
    rfl

theorem FitsArena.mono {g h : Scene} {a : Arena} (ha : g.FitsArena a)
    (hp : ∀ p, g.parts p → h.parts p) (hn : ∀ cid key, g.names cid key → h.names cid key) :
    h.FitsArena a where
  parts node hm p hpart := hp p (ha.parts node hm p hpart)
  names node hm := hn _ _ (ha.names node hm)
  mounted key cid hk := hn _ _ (ha.mounted key cid hk)
  numbers := ha.numbers
  once := ha.once

theorem fitsArena_new (g : Scene) (previous : Option Nat) : g.FitsArena { previous } where
  parts node h := by cases h
  names node h := by cases h
  mounted key cid h := by cases h
  numbers node h := by cases h
  once := List.nodup_nil

/-- Numbers tell the components of a render apart. -/
theorem Fits.numbered {g : Scene} (hg : g.Fits) (render : Nat) :
    ((g.mounts.arena render).nodes.map Instance.cid).Nodup := by
  have ha := hg.arenas render
  refine List.pairwise_map.mpr ((List.pairwise_map.mp ha.once).imp_of_mem ?_)
  intro a b hma hmb hkeys hcids
  have hb := ha.names b hmb
  rw [← hcids] at hb
  exact hkeys (hg.name_eq (ha.names a hma) hb)

/-- The components of all keys that were mounted on the way have come to their renders. -/
def Filled (g h : Scene) : Prop :=
  ∀ render key, Assoc.contains (h.mounts.arena render).mounted key = true →
    Assoc.contains (g.mounts.arena render).mounted key = true ∨
      ∃ node ∈ (h.mounts.arena render).nodes, node.key = key

theorem Filled.refl (g : Scene) : g.Filled g := fun _ _ hk => .inl hk

theorem Filled.of_renders {g h : Scene} (hm : h.mounts.renders = g.mounts.renders) :
    g.Filled h := by
  intro render key hk
  rw [Mounts.arena, hm] at hk
  exact .inl hk

theorem Filled.trans {f g h : Scene} (hfg : f.Filled g) (hgh : g.Filled h) (hle : g ≤ h) :
    f.Filled h := by
  intro render key hk
  rcases hgh render key hk with hk | hin
  · rcases hfg render key hk with hk | ⟨node, hn, hkey⟩
    · exact .inl hk
    · exact .inr ⟨node, (hle.arenas render).mem hn, hkey⟩
  · exact .inr hin

/-! ### Steps on one render -/

theorem arena_update (m : Mounts) (render other : Nat) (f : Arena → Arena) :
    (m.update render f).arena other =
      if other = render ∧ render < m.renders.length then f (m.arena render)
      else m.arena other := by
  rw [Mounts.arena, Mounts.update, List.getD_eq_getElem?_getD, List.getElem?_modify]
  by_cases ho : other = render
  · subst ho
    by_cases hr : other < m.renders.length
    · simp [hr, Mounts.arena]
    · simp [hr, Mounts.arena]
  · have hne : ¬ render = other := fun h => ho h.symm
    simp [ho, hne, Mounts.arena]

/-- What a step on one render does not change of it is unchanged of all. -/
theorem field_update {α : Type} {field : Arena → α} {f : Arena → Arena}
    (hf : ∀ a, field (f a) = field a) (m : Mounts) (render other : Nat) :
    field ((m.update render f).arena other) = field (m.arena other) := by
  rw [arena_update]
  split
  · rename_i h
    rw [hf, h.1]
  · rfl

theorem arena_of_length_le {m : Mounts} {render : Nat} (h : m.renders.length ≤ render) :
    m.arena render = {} := by
  rw [Mounts.arena, List.getD_eq_getElem?_getD, List.getElem?_eq_none h]
  rfl

section Update
variable {g h : Scene} {render : Nat} {f : Arena → Arena}

theorem ArenaLe.of_eq {other : Nat} (he : h.mounts.arena other = g.mounts.arena other) :
    ArenaLe g h other where
  previous := by rw [he]
  numbers key cid hk := by rw [he]; exact hk
  nodes := ⟨[], by rw [he, List.append_nil], fun node hm => by cases hm⟩

theorem arena_of_renders (hm : h.mounts.renders = (g.mounts.update render f).renders)
    (other : Nat) : h.mounts.arena other = (g.mounts.update render f).arena other := by
  rw [Mounts.arena, Mounts.arena, hm]

/-- A step that changes one render leaves it to that render to show that it has come further. -/
theorem ArenaLe.of_update (hm : h.mounts.renders = (g.mounts.update render f).renders)
    (hr : render < g.mounts.renders.length → h.mounts.arena render = f (g.mounts.arena render) →
      ArenaLe g h render) (other : Nat) : ArenaLe g h other := by
  have harena := arena_of_renders hm other
  rw [arena_update] at harena
  by_cases ho : other = render ∧ render < g.mounts.renders.length
  · rw [if_pos ho] at harena
    obtain ⟨rfl, hlt⟩ := ho
    exact hr hlt harena
  · rw [if_neg ho] at harena
    exact ArenaLe.of_eq harena

theorem length_of_update (hm : h.mounts.renders = (g.mounts.update render f).renders) :
    h.mounts.renders.length = g.mounts.renders.length := by
  rw [hm, Mounts.update, List.length_modify]

theorem fitsArena_of_update (hg : g.Fits) (hp : ∀ p, g.parts p → h.parts p)
    (hn : ∀ cid key, g.names cid key → h.names cid key)
    (hm : h.mounts.renders = (g.mounts.update render f).renders)
    (hr : h.FitsArena (f (g.mounts.arena render))) (other : Nat) :
    h.FitsArena (h.mounts.arena other) := by
  rw [arena_of_renders hm other, arena_update]
  split
  · exact hr
  · exact (hg.arenas other).mono hp hn

end Update

end Scene

end LiveTemplate
