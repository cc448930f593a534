import LiveTemplate.Proofs.Render.Mounting
import LiveTemplate.Proofs.Snapshot.Forest

/-!
What it comes to that a render keeps components of the render before. It keeps a forest of them, as
they were and each of them once; and every forest whose components it has not mounted yet can be kept.
-/

namespace LiveTemplate

set_option autoImplicit false

theorem Dynamic.allRefs_eq (dynamics : List Dynamic) :
    Dynamic.allRefs dynamics = dynamics.flatMap Dynamic.refs := by
  induction dynamics with
  | nil => rfl
  | cons d rest ih => rw [Dynamic.allRefs, ih, List.flatMap_cons]

namespace Arena

/-- A component that a render has not mounted yet, neither under its number nor under its key. -/
def Lacks (a : Arena) (node : Instance) : Prop :=
  (a.find? node.cid).isSome = false ∧ Assoc.contains a.mounted node.key = false

/-- Components that a render can keep in turn. -/
def Admits : Arena → List Instance → Prop
  | _, [] => True
  | a, node :: rest => a.Lacks node ∧ (a.keep node).Admits rest

variable {a : Arena} {nodes more : List Instance}

theorem admits_append : a.Admits (nodes ++ more) ↔
    a.Admits nodes ∧ (nodes.foldl keep a).Admits more := by
  induction nodes generalizing a with
  | nil => exact (and_iff_right trivial).symm
  | cons node rest ih =>
    change a.Lacks node ∧ (a.keep node).Admits (rest ++ more) ↔
      (a.Lacks node ∧ (a.keep node).Admits rest) ∧ (rest.foldl keep (a.keep node)).Admits more
    rw [ih, and_assoc]

theorem Lacks.keep {node other : Instance} (h : a.Lacks other) (hcid : node.cid ≠ other.cid)
    (hkey : node.key ≠ other.key) : (a.keep node).Lacks other := by
  constructor
  · rw [find?, Option.isSome_eq_false_iff, Option.isNone_iff_eq_none, List.find?_eq_none]
    have hold := h.1
    rw [find?, Option.isSome_eq_false_iff, Option.isNone_iff_eq_none, List.find?_eq_none] at hold
    intro n hn
    rcases List.mem_append.mp hn with hn | hn
    · exact hold n hn
    · rw [List.mem_singleton.mp hn, beq_iff_eq]
      exact hcid
  · rw [Assoc.contains]
    change (Assoc.get? (Assoc.set a.mounted node.key node.cid) other.key).isSome = false
    rw [Assoc.get?_set_of_ne _ _ hkey]
    exact h.2

/-- Components under numbers and keys of their own can be kept. -/
theorem admits_of_lacks (hlacks : ∀ node ∈ nodes, a.Lacks node)
    (hcids : (nodes.map Instance.cid).Nodup) (hkeys : (nodes.map Instance.key).Nodup) :
    a.Admits nodes := by
  induction nodes generalizing a with
  | nil => trivial
  | cons node rest ih =>
    rw [List.forall_mem_cons] at hlacks
    rw [List.map_cons, List.nodup_cons] at hcids hkeys
    refine ⟨hlacks.1, ih (fun other hother => ?_) hcids.2 hkeys.2⟩
    refine (hlacks.2 other hother).keep (fun hcid => hcids.1 ?_) fun hkey => hkeys.1 ?_
    · rw [hcid]
      exact List.mem_map_of_mem hother
    · rw [hkey]
      exact List.mem_map_of_mem hother

theorem nodup_of_admits (h : a.Admits nodes) : (nodes.map Instance.cid).Nodup := by
  suffices hall : (nodes.map Instance.cid).Nodup ∧ ∀ node ∈ nodes, (a.find? node.cid).isSome = false
    from hall.1
  induction nodes generalizing a with
  | nil => exact ⟨.nil, List.forall_mem_nil _⟩
  | cons node rest ih =>
    obtain ⟨hnodup, hrest⟩ := ih h.2
    -- what is lacking after a component was kept is another one, and was lacking before
    have hlater : ∀ other ∈ rest, node.cid ≠ other.cid ∧ (a.find? other.cid).isSome = false := by
      intro other hother
      have hfind := hrest other hother
      rw [find?, Option.isSome_eq_false_iff, Option.isNone_iff_eq_none, List.find?_eq_none] at hfind ⊢
      change ∀ n ∈ a.nodes ++ [node], _ at hfind
      rw [List.forall_mem_append, List.forall_mem_singleton, beq_iff_eq] at hfind
      exact ⟨hfind.2, hfind.1⟩
    rw [List.map_cons, List.nodup_cons]
    refine ⟨⟨fun hin => ?_, hnodup⟩, List.forall_mem_cons.mpr ⟨h.1.1, fun n hn => (hlater n hn).2⟩⟩
    obtain ⟨other, hother, hcid⟩ := List.mem_map.mp hin
    exact (hlater other hother).1 hcid.symm

theorem admits_new (previous : Option Nat) (hcids : (nodes.map Instance.cid).Nodup)
    (hkeys : (nodes.map Instance.key).Nodup) : ({ previous } : Arena).Admits nodes :=
  admits_of_lacks (fun _ _ => ⟨rfl, rfl⟩) hcids hkeys

section Kept
variable (a nodes)

theorem foldl_keep_previous : (nodes.foldl keep a).previous = a.previous := by
  induction nodes generalizing a with
  | nil => rfl
  | cons node rest ih => exact ih (a.keep node)

theorem foldl_keep_nodes : (nodes.foldl keep a).nodes = a.nodes ++ nodes := by
  induction nodes generalizing a with
  | nil => exact (List.append_nil _).symm
  | cons node rest ih => exact (ih (a.keep node)).trans (List.append_assoc _ [node] rest)

end Kept

end Arena

namespace Mounts

/-- The mounts once a render has kept components in turn. -/
def keepAll (m : Mounts) (render : Nat) (nodes : List Instance) : Mounts :=
  m.update render fun a => nodes.foldl Arena.keep a

variable {m n : Mounts} {render earlier depth : Nat}

theorem keepAll_nil (m : Mounts) (render : Nat) : m.keepAll render [] = m := by
  change { m with renders := m.renders.modify render id } = m
  rw [List.modify_id]

theorem keepAll_append (m : Mounts) (render : Nat) (nodes more : List Instance) :
    m.keepAll render (nodes ++ more) = (m.keepAll render nodes).keepAll render more := by
  change { m with renders := _ } = { m with renders := (m.renders.modify render _).modify render _ }
  rw [List.modify_modify_eq]
  simp only [List.foldl_append]
  rfl

theorem arena_keepAll_of_ne (m : Mounts) {render other : Nat} (h : other ≠ render)
    (nodes : List Instance) : (m.keepAll render nodes).arena other = m.arena other := by
  rw [keepAll, Scene.arena_update, if_neg fun hr => h hr.1]

theorem arena_keepAll (hrender : render < m.renders.length) (nodes : List Instance) :
    (m.keepAll render nodes).arena render = nodes.foldl Arena.keep (m.arena render) := by
  rw [keepAll, Scene.arena_update, if_pos ⟨rfl, hrender⟩]

/-- A render that came after another one. -/
structure Follows (m : Mounts) (render earlier : Nat) : Prop where
  previous : (m.arena render).previous = some earlier
  ne : earlier ≠ render

theorem Follows.begun (h : m.Follows render earlier) : render < m.renders.length := by
  refine Nat.lt_of_not_le fun hnone => ?_
  have hprevious := h.previous
  rw [Scene.arena_of_length_le hnone] at hprevious
  cases hprevious

theorem Follows.keepAll (h : m.Follows render earlier) (nodes : List Instance) :
    (m.keepAll render nodes).Follows render earlier := by
  refine ⟨?_, h.ne⟩
  rw [arena_keepAll h.begun, Arena.foldl_keep_previous]
  exact h.previous

theorem Follows.before? (h : m.Follows render earlier) (cid : Nat) :
    m.before? render cid = (m.arena earlier).find? cid := by
  rw [Mounts.before?, h.previous]
  rfl

/-- What is kept are components of the render before, under numbers that were not kept yet. -/
structure Keeps (m n : Mounts) (render earlier : Nat) (kept : List Instance) : Prop where
  eq : n = m.keepAll render kept
  admits : (m.arena render).Admits kept
  before : ∀ node ∈ kept, (m.arena earlier).find? node.cid = some node

theorem Keeps.nil (m : Mounts) (render earlier : Nat) : m.Keeps m render earlier [] :=
  ⟨(keepAll_nil m render).symm, trivial, List.forall_mem_nil _⟩

theorem Keeps.append {between : Mounts} {kept more : List Instance} (hm : m.Follows render earlier)
    (h : m.Keeps between render earlier kept) (h' : between.Keeps n render earlier more) :
    m.Keeps n render earlier (kept ++ more) := by
  obtain ⟨rfl, hadmits, hbefore⟩ := h
  obtain ⟨rfl, hadmits', hbefore'⟩ := h'
  rw [arena_keepAll hm.begun] at hadmits'
  rw [arena_keepAll_of_ne m hm.ne] at hbefore'
  exact ⟨(keepAll_append m render kept more).symm, Arena.admits_append.mpr ⟨hadmits, hadmits'⟩,
    List.forall_mem_append.mpr ⟨hbefore, hbefore'⟩⟩

theorem Keeps.split {kept more : List Instance} (hm : m.Follows render earlier)
    (h : m.Keeps n render earlier (kept ++ more)) :
    m.Keeps (m.keepAll render kept) render earlier kept ∧
      (m.keepAll render kept).Keeps n render earlier more := by
  obtain ⟨rfl, hadmits, hbefore⟩ := h
  rw [Arena.admits_append] at hadmits
  rw [List.forall_mem_append] at hbefore
  refine ⟨⟨rfl, hadmits.1, hbefore.1⟩, keepAll_append m render kept more, ?_, ?_⟩
  · rw [arena_keepAll hm.begun]
    exact hadmits.2
  · rw [arena_keepAll_of_ne m hm.ne]
    exact hbefore.2

theorem run_retainComponent (m : Mounts) (render depth cid : Nat) :
    (retainComponent render (depth + 1) cid).run.run m = match m.before? render cid with
      | none => (.error (.notMountedBefore cid), m)
      | some node =>
        if ((m.arena render).find? cid).isSome || Assoc.contains (m.arena render).mounted node.key
        then (.error (.mountedTwice node.key), m)
        else (node.tree.refs.forM (retainComponent render depth)).run.run
          (m.keepAll render [node]) := by
  have hget : (get : Mounting Mounts).run.run m = (.ok m, m) := rfl
  rw [retainComponent, Sound.run_bind, hget]
  cases hbefore : m.before? render cid with
  | none =>
    simp only [hbefore]
    rfl
  | some node =>
    simp only [hbefore]
    split <;> rfl

/-- The components that a step keeps form a forest under given numbers. -/
def KeepsForest (m n : Mounts) (render earlier : Nat) (roots : List Nat) : Prop :=
  ∃ kept, m.Keeps n render earlier kept ∧ Forest roots kept

theorem keepsForest_nil (m : Mounts) (render earlier : Nat) :
    m.KeepsForest m render earlier [] := ⟨[], .nil m render earlier, .nil⟩

section Run
variable (hm : m.Follows render earlier)
include hm

theorem KeepsForest.append {between : Mounts} {roots tops : List Nat}
    (h : m.KeepsForest between render earlier roots)
    (h' : between.KeepsForest n render earlier tops) :
    m.KeepsForest n render earlier (roots ++ tops) := by
  obtain ⟨kept, hkept, hforest⟩ := h
  obtain ⟨more, hmore, hforest'⟩ := h'
  exact ⟨kept ++ more, hkept.append hm hmore, hforest.append hforest'⟩

theorem KeepsForest.follows {roots : List Nat} (h : m.KeepsForest n render earlier roots) :
    n.Follows render earlier := by
  obtain ⟨kept, ⟨rfl, -, -⟩, -⟩ := h
  exact hm.keepAll kept

/-- Steps that keep a forest each, one after the other. -/
theorem forM_keepsForest {α : Type} {f : α → Mounting PUnit} (refs : α → List Nat)
    (hf : ∀ x {m n : Mounts}, m.Follows render earlier → (f x).run.run m = (.ok ⟨⟩, n) →
      m.KeepsForest n render earlier (refs x)) {xs : List α}
    (hrun : (xs.forM f).run.run m = (.ok ⟨⟩, n)) :
    m.KeepsForest n render earlier (xs.flatMap refs) := by
  induction xs generalizing m with
  | nil =>
    cases hrun
    exact keepsForest_nil _ render earlier
  | cons x rest ih =>
    change (f x >>= fun _ => rest.forM f).run.run m = _ at hrun
    rw [Sound.run_bind] at hrun
    cases hfirst : (f x).run.run m with
    | mk result between =>
      rw [hfirst] at hrun
      cases result with
      | error e => cases hrun
      | ok _ =>
        have h := hf x hm hfirst
        rw [List.flatMap_cons]
        exact h.append hm (ih (h.follows hm) hrun)

/-- A component that is kept is kept with all that hangs on it. -/
theorem retainComponent_keepsForest {cid : Nat}
    (hrun : (retainComponent render depth cid).run.run m = (.ok ⟨⟩, n)) :
    m.KeepsForest n render earlier [cid] := by
  induction depth generalizing m n cid with
  | zero => cases hrun
  | succ depth ih =>
    rw [run_retainComponent, hm.before?] at hrun
    cases hbefore : (m.arena earlier).find? cid with
    | none =>
      rw [hbefore] at hrun
      cases hrun
    | some node =>
      obtain rfl : node.cid = cid := by simpa using List.find?_some hbefore
      rw [hbefore] at hrun
      dsimp only at hrun
      split at hrun
      · cases hrun
      · rename_i hlacks
        rw [Bool.not_eq_true, Bool.or_eq_false_iff] at hlacks
        have hfirst : m.Keeps (m.keepAll render [node]) render earlier [node] :=
          ⟨rfl, ⟨hlacks, trivial⟩, List.forall_mem_singleton.mpr hbefore⟩
        obtain ⟨below, hbelow, hforest⟩ :=
          forM_keepsForest (hm.keepAll [node]) (fun cid => [cid])
            (fun cid _ _ hm hrun => ih hm hrun) hrun
        rw [List.flatMap_singleton'] at hforest
        exact ⟨node :: below, hfirst.append hm hbelow, hforest.single⟩

/-- A forest that can be kept is kept. -/
theorem run_retainComponents {roots : List Nat} {kept : List Instance} (hforest : Forest roots kept)
    (hkept : m.Keeps n render earlier kept) (hdepth : kept.length ≤ depth) :
    (roots.forM (retainComponent render depth)).run.run m = (.ok ⟨⟩, n) := by
  induction hforest generalizing m n depth with
  | nil =>
    rw [hkept.eq, keepAll_nil]
    rfl
  | @cons node roots below rest _ _ ihbelow ihrest =>
    rw [List.length_cons, List.length_append] at hdepth
    obtain ⟨depth, rfl⟩ : ∃ d, depth = d + 1 := ⟨depth - 1, by omega⟩
    have hkept' : m.Keeps n render earlier ([node] ++ (below ++ rest)) := hkept
    obtain ⟨⟨-, hlacks, -⟩, hothers⟩ := hkept'.split hm
    have hnode := hm.keepAll [node]
    obtain ⟨hbelow, hrest⟩ := hothers.split hnode
    have hbefore := hkept.before node List.mem_cons_self
    change (retainComponent render (depth + 1) node.cid >>= fun _ =>
      roots.forM (retainComponent render (depth + 1))).run.run m = _
    rw [Sound.run_bind, run_retainComponent, hm.before?, hbefore]
    dsimp only
    rw [if_neg (by rw [hlacks.1.1, hlacks.1.2]; exact Bool.false_ne_true),
      ihbelow hnode hbelow (by omega)]
    exact ihrest (hnode.keepAll below) hrest (by omega)

end Run

section Retain
variable (hm : m.Follows render earlier)

theorem Keeps.length_le {kept : List Instance} (h : m.Keeps n render earlier kept) :
    kept.length ≤ (m.arena earlier).nodes.length :=
  (List.subperm_of_subset (List.Nodup.of_map Instance.cid (Arena.nodup_of_admits h.admits))
    fun node hnode => List.mem_of_find?_eq_some (h.before node hnode)).length_le

include hm

theorem run_retain (dynamic : Dynamic) : (retain render dynamic).run.run m =
    (dynamic.refs.forM (retainComponent render ((m.arena earlier).nodes.length + 1))).run.run m := by
  have hget : (get : Mounting Mounts).run.run m = (.ok m, m) := rfl
  rw [retain, Sound.run_bind, hget]
  dsimp only
  rw [hm.previous]
  rfl

/-- To keep what some dynamics refer to succeeds if and only if that is a forest of components that
can be kept. -/
theorem run_retain_iff {dynamics : List Dynamic} :
    (dynamics.forM (retain render)).run.run m = (.ok ⟨⟩, n) ↔
      m.KeepsForest n render earlier (Dynamic.allRefs dynamics) := by
  rw [Dynamic.allRefs_eq]
  constructor
  · intro hrun
    refine forM_keepsForest hm Dynamic.refs (fun dynamic _ _ hm hrun => ?_) hrun
    rw [run_retain hm] at hrun
    have h := forM_keepsForest hm (fun cid => [cid])
      (fun cid _ _ hm hrun => retainComponent_keepsForest hm hrun) hrun
    rwa [List.flatMap_singleton'] at h
  · rintro ⟨kept, hkept, hforest⟩
    induction dynamics generalizing m n kept with
    | nil =>
      cases hforest
      rw [hkept.eq, keepAll_nil]
      rfl
    | cons dynamic rest ih =>
      rw [List.flatMap_cons] at hforest
      obtain ⟨first, second, rfl, hfirst, hsecond⟩ := hforest.of_append
      obtain ⟨hkfirst, hksecond⟩ := hkept.split hm
      change (retain render dynamic >>= fun _ => rest.forM (retain render)).run.run m = _
      rw [Sound.run_bind, run_retain hm,
        run_retainComponents hm hfirst hkfirst (Nat.le_succ_of_le hkfirst.length_le)]
      exact ih (hm.keepAll first) second hksecond hsecond

end Retain

end Mounts

end LiveTemplate
