import LiveTemplate.Proofs.Assigns.Restating
import LiveTemplate.Proofs.Render.Unchanged
import LiveTemplate.Proofs.Session.Orderly

/-!
A session that renders again with nothing changed has nothing to say. The template hands back all its
dynamics, as long as none of its holes reads a local, and the components that these refer to are
kept. That goes through, and keeps all of them, exactly if they hang on the root as a tree.
-/

namespace LiveTemplate

set_option autoImplicit false

namespace Session

/-- Sessions that calls lead to which set bindings to what they hold, be the calls successful or
not. -/
inductive Restated (P : Value → Prop) (s : Session) : Session → Prop
  | refl : Restated P s s
  | called {t : Session} (h : Restated P s t) {call : Assigns.Call}
      (hcall : call.Restates P t.assigns) (journal : Journal) :
      Restated P s (((onAssigns call.run).run.run t).run journal).1.2

theorem Restated.eq {P : Value → Prop} (hP : Value.Stock P) {s t : Session}
    (hwithin : s.assigns.Within P) (h : s.Restated P t) : t = s := by
  induction h with
  | refl => rfl
  | @called t h call hcall journal ih =>
    subst ih
    have hleaves : call.run.Leaves t.assigns ((call.run.run.run t.assigns).run journal.nextId).1.1
        ((call.run.run.run t.assigns).run journal.nextId).1.2 := ⟨journal.nextId, _, rfl⟩
    have hassigns := Assigns.call_restated hP hwithin hcall hleaves
    exact congrArg (fun assigns => { t with assigns }) hassigns

/-- A tree that counts has the shape of its template. -/
theorem rendered_ofFragment {s : Session} {resolve : Resolver} {journal : Journal} {shown : Shown}
    {patch : Patch} {done : RenderState}
    (hrun : s.rendered resolve journal = (.ok (shown, patch), done)) :
    shown.root.OfFragment s.template.fragment :=
  (yields_ofFragment ⟨resolve, renderWithin resolve 999⟩ s.frame s.template.fragment
    (s.shown.map Shown.root)).of_run trivial (congrArg Prod.fst (rendered_tree hrun))

/-- Nothing was assigned since the render that is on show, and the template would notice. -/
structure Unchanged (s : Session) (top : Shown) : Prop where
  shown : s.shown = some top
  changes : s.assigns.changes = []
  shape : top.root.OfFragment s.template.fragment
  locals : ∀ plan ∈ s.template.fragment.plans, plan.reads.locals = []

section Unchanged
variable {s : Session} {top : Shown} (h : s.Unchanged top)
include h

/-- All that the next render does is to keep what the tree refers to. -/
theorem Unchanged.run_template (resolve : Resolver) (journal : Journal) :
    ∃ last, (s.template.render resolve s.frame (s.shown.map Shown.root)).run.run
      ⟨s.mounts.start (s.shown.map Shown.render), journal⟩ =
      match (top.root.dynamics.forM (Mounts.retain s.mounts.renders.length)).run.run
          (s.mounts.start (some top.render)) with
      | (.ok _, n) =>
        (.ok (top.root.renewed n.nextPart), ⟨{ n with nextPart := n.nextPart + 1 }, last⟩)
      | (.error e, n) => (.error (.tree e), ⟨n, last⟩) := by
  have hchanged : s.frame.changed = some [] := by
    change (if s.isMounted then some s.assigns.changes else none) = _
    rw [isMounted, h.shown, h.changes]
    rfl
  rw [h.shown]
  exact run_fragment_unchanged ⟨resolve, renderWithin resolve 999⟩ hchanged h.shape h.locals _
    journal

variable {g : Scene} {table : List Instance} (hs : s.Shows g top table [])
include hs

omit h in
theorem Shows.follows :
    (s.mounts.start (some top.render)).Follows s.mounts.renders.length top.render := by
  refine ⟨?_, Nat.ne_of_lt ?_⟩
  · rw [arena_start_own]
  · rw [← hs.mounts]
    exact hs.lt top hs.shown

omit h in
theorem Shows.arena_start (previous : Option Nat) :
    ((s.mounts.start previous).arena top.render).nodes = table := by
  have hlt := hs.lt top hs.shown
  rw [hs.mounts] at hlt
  have hnodes := hs.nodes
  rw [hs.mounts, List.append_nil] at hnodes
  rw [LiveTemplate.arena_start, if_neg (Nat.ne_of_lt hlt), hnodes]

/-- If the components hang on the root as a tree, they are kept, all of them. -/
theorem Unchanged.silent (htree : Snapshot.IsTree ⟨top.root, table⟩) (resolve : Resolver)
    (journal : Journal) : ∃ after last,
      ((Session.render resolve).run.run s).run journal = ((.ok ⟨none, []⟩, after), last) ∧
        after.page = s.page ∧ (after.nodes after.shown).Perm (s.nodes s.shown) := by
  obtain ⟨arranged, hforest, hperm⟩ := htree.exists_forest
  let m := s.mounts.start (some top.render)
  let n := m.keepAll s.mounts.renders.length arranged
  have hkept : m.Keeps n s.mounts.renders.length top.render arranged := by
    refine ⟨rfl, ?_, fun node hnode => ?_⟩
    · rw [show m.arena s.mounts.renders.length = _ from arena_start_own _ _]
      exact Arena.admits_new _ ((hperm.map Instance.cid).nodup_iff.mpr htree.numbered)
        ((hperm.map Instance.key).nodup_iff.mpr htree.keys)
    · have hfind := (Snapshot.find?_eq_some_iff htree.numbered).mpr ⟨hperm.subset hnode, rfl⟩
      rw [Arena.find?, show (m.arena top.render).nodes = table from hs.arena_start _]
      exact hfind
  have hrun : (top.root.dynamics.forM (Mounts.retain s.mounts.renders.length)).run.run m =
      (.ok ⟨⟩, n) := by
    refine (Mounts.run_retain_iff hs.follows).mpr ⟨arranged, hkept, ?_⟩
    rw [← Tree.refs_eq]
    exact hforest
  obtain ⟨last, hrender⟩ := h.run_template resolve journal
  rw [hrun] at hrender
  let root := top.root.renewed n.nextPart
  let done : RenderState := ⟨{ n with nextPart := n.nextPart + 1 }, last⟩
  have hafter : (done.mounts.arena s.mounts.renders.length).nodes = arranged := by
    change ((m.keepAll _ _).arena _).nodes = _
    rw [Mounts.arena_keepAll hs.follows.begun, Arena.foldl_keep_nodes, arena_start_own]
    rfl
  have hbefore : (done.mounts.arena top.render).nodes = table := by
    change ((m.keepAll _ _).arena _).nodes = _
    rw [Mounts.arena_keepAll_of_ne m hs.follows.ne]
    exact hs.arena_start _
  have hrendered : s.rendered resolve journal =
      (.ok (⟨root, s.mounts.renders.length⟩, ⟨none, []⟩), done) := by
    rw [rendered, next_eq, Sound.run_bind, hrender]
    dsimp only
    rw [run_patchTo, h.shown, Option.map_some, Mounts.snapshot, Mounts.snapshot, hbefore, hafter]
    have hdiff := Snapshot.diff_rearranged (s := ⟨top.root, table⟩) hperm n.nextPart htree.numbered
      htree.closed
    rw [Snapshot.rearranged] at hdiff
    rw [hdiff]
    rfl
  obtain ⟨next, hsession⟩ := run_render resolve s journal
  rw [hrendered] at hsession
  refine ⟨_, next, hsession, ?_, ?_⟩
  · have hcurrent : (s.turned ⟨root, s.mounts.renders.length⟩ done).current =
        some (Snapshot.rearranged ⟨top.root, table⟩ n.nextPart arranged) := by
      change some (Snapshot.mk root (done.mounts.arena s.mounts.renders.length).nodes) = _
      rw [hafter]
      rfl
    rw [page_eq, page_eq, hcurrent, hs.current, List.append_nil]
    dsimp only
    rw [Snapshot.html_rearranged hperm n.nextPart htree.numbered]
  · rw [hs.nodes_eq, List.append_nil]
    change ((done.mounts.arena s.mounts.renders.length).nodes).Perm table
    rw [hafter]
    exact hperm

/-- If the render comes to the same components, they hang on the root as a tree. -/
theorem Unchanged.isTree {resolve : Resolver} {journal last : Journal} {patch : Patch}
    {after : Session}
    (hrun : ((Session.render resolve).run.run s).run journal = ((.ok patch, after), last))
    (hperm : (after.nodes after.shown).Perm (s.nodes s.shown)) :
    Snapshot.IsTree ⟨top.root, table⟩ := by
  obtain ⟨shown, done, hrendered, rfl⟩ := render_ok hrun
  have htree := rendered_tree hrendered
  obtain ⟨next, hrender⟩ := h.run_template resolve journal
  rw [hrender] at htree
  have hshown : shown.render = s.mounts.renders.length := by
    obtain ⟨u, -, -, -, hok⟩ := hs.toInScene.leads hrendered
    rw [(hok shown patch rfl).1, hs.mounts]
  cases hretain : (top.root.dynamics.forM (Mounts.retain s.mounts.renders.length)).run.run
      (s.mounts.start (some top.render)) with
  | mk result n =>
    rw [hretain] at htree
    cases result with
    | error e => cases htree
    | ok _ =>
      obtain ⟨kept, hkept, hforest⟩ := (Mounts.run_retain_iff hs.follows).mp hretain
      obtain ⟨-, rfl⟩ := Prod.mk.inj htree
      rw [← Tree.refs_eq] at hforest
      have hafter : (n.arena s.mounts.renders.length).nodes = kept := by
        rw [hkept.eq, Mounts.arena_keepAll hs.follows.begun, Arena.foldl_keep_nodes,
          arena_start_own]
        rfl
      have hkeptperm : kept.Perm table := by
        rw [hs.nodes_eq, List.append_nil] at hperm
        change ((n.arena shown.render).nodes).Perm table at hperm
        rwa [hshown, hafter] at hperm
      have hnumbered := hs.numbered
      have hkeyed := hs.keyed
      rw [List.append_nil] at hnumbered hkeyed
      exact .of_forest hforest hkeptperm hnumbered hkeyed

end Unchanged

/-- A render with nothing changed since the last one, or with nothing set but what was held, says
nothing, and leaves the page and the components as they were, exactly if the components on show hang
on the root as a tree. That is so where no hole of the template itself reads a local: such a hole is
evaluated each time. -/
theorem unchanged_render_silent_iff {template : Template} {label : String} {s : Session}
    (h : s.Reachable template label) {resolve : Resolver} {journal last : Journal} {patch : Patch}
    {shown : Session}
    (hrun : ((Session.render resolve).run.run s).run journal = ((.ok patch, shown), last))
    {P : Value → Prop} (hP : Value.Stock P) (hwithin : shown.assigns.Within P) {held : Session}
    (hheld : shown.Restated P held)
    (hlocals : ∀ plan ∈ s.template.fragment.plans, plan.reads.locals = [])
    (again : Resolver) (start : Journal) :
    (∃ after next, ((Session.render again).run.run held).run start = ((.ok ⟨none, []⟩, after), next) ∧
      after.page = held.page ∧ (after.nodes after.shown).Perm (held.nodes held.shown)) ↔
        ∀ snapshot ∈ held.current, snapshot.IsTree := by
  rw [hheld.eq hP hwithin]
  obtain ⟨top, done, hrendered, rfl⟩ := render_ok hrun
  obtain ⟨g, hg, -⟩ := h.stands
  obtain ⟨u, hle, hu, hmounts, hok⟩ := hg.leads hrendered
  obtain ⟨hrender, hroot, -⟩ := hok top patch rfl
  have hs : (s.turned top done).Shows (u.committed top.render) top
      (u.mounts.arena top.render).nodes [] := by
    refine hg.turned hle hu ?_ rfl hrender hroot
    rw [← hmounts]
    rfl
  have hshape : top.root.OfFragment s.template.fragment := rendered_ofFragment hrendered
  have hunchanged : (s.turned top done).Unchanged top := ⟨rfl, rfl, hshape, hlocals⟩
  rw [hs.current, List.append_nil]
  simp only [Option.mem_def, Option.some.injEq, forall_eq']
  constructor
  · rintro ⟨after, next, hsilent, -, hperm⟩
    exact hunchanged.isTree hs hsilent hperm
  · intro htree
    exact hunchanged.silent hs htree again start

end Session

/-- The session that is to show the content of the host from the start. -/
def hostedStarting : (Except SessionError Unit × Session) × Journal :=
  ((Session.onAssigns (Assigns.assignAll [("show", .flag true)])).run.run
    { template := hostedTemplate, label := "page" }).run {}

/-- The content of the host is shown, and is to be shown once more. -/
theorem hosted_render_silent : ∃ patch shown last held after next,
    ((Session.render hostedResolver).run.run hostedStarting.1.2).run hostedStarting.2 =
      ((.ok patch, shown), last) ∧
    shown.Restated Assigns.IsVisitor held ∧
    ((Session.render hostedResolver).run.run held).run last = ((.ok ⟨none, []⟩, after), next) ∧
    after.page = held.page ∧ (after.nodes after.shown).Perm (held.nodes held.shown) := by
  have hfacts : (hostedStarting.1.2.rendered hostedResolver hostedStarting.2).1.isOk = true ∧
      hostedStarting.1.2.KeepsToItself hostedResolver hostedStarting.2 := by
    decide +kernel
  obtain ⟨hok, hself⟩ := hfacts
  have hlocals : ∀ plan ∈ hostedStarting.1.2.template.fragment.plans, plan.reads.locals = [] := by
    decide +kernel
  have hvalues : hostedStarting.1.2.assigns.values = [("show", .flag true)] := rfl
  have hreached : hostedStarting.1.2.Reachable hostedTemplate "page" :=
    Session.Reached.created.assigned _ _
  cases hrendered : hostedStarting.1.2.rendered hostedResolver hostedStarting.2 with
  | mk result done =>
    rw [hrendered] at hok
    cases result with
    | error e => cases hok
    | ok r =>
      obtain ⟨top, patch⟩ := r
      obtain ⟨last, hrun⟩ :=
        Session.run_render hostedResolver hostedStarting.1.2 hostedStarting.2
      rw [hrendered] at hrun
      have hwithin : (hostedStarting.1.2.turned top done).assigns.Within Assigns.IsVisitor := by
        intro key v hv
        obtain ⟨-, rfl⟩ := Prod.mk.inj
          (List.mem_singleton.mp (hvalues ▸ Assoc.mem_of_get? hv : (key, v) ∈ _))
        exact .inl rfl
      have hcall : (Assigns.Call.assign [("show", .flag true)]).Restates Assigns.IsVisitor
          (hostedStarting.1.2.turned top done).assigns := by
        refine List.forall_mem_singleton.mpr ⟨.inl rfl, .flag true, ?_, rfl⟩
        change Assoc.get? hostedStarting.1.2.assigns.values "show" = _
        rw [hvalues]
        rfl
      have hheld := Session.Restated.called .refl hcall last
      obtain ⟨g, hg, -⟩ := hreached.stands
      obtain ⟨after, next, hsilent, hpage, hperm⟩ :=
        (Session.unchanged_render_silent_iff hreached hrun Assigns.isVisitor_stock hwithin hheld
          hlocals hostedResolver last).mpr (by
            rw [hheld.eq Assigns.isVisitor_stock hwithin]
            intro snapshot hsnapshot
            cases hsnapshot
            exact (hg.tree hself hrendered).1)
      exact ⟨patch, _, last, _, after, next, hrun, hheld, hsilent, hpage, hperm⟩

end LiveTemplate
