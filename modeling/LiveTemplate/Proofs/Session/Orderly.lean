import LiveTemplate.Proofs.Render.Nesting
import LiveTemplate.Proofs.Session.Failure

/-!
The components of a page hang on its root as a tree, as long as every render that counts keeps to
itself: as long as none of them shows slot content of an earlier render, whose components would go to
the table of that render.
-/

namespace LiveTemplate

set_option autoImplicit false

namespace Session

/-- If the next render counts, it puts what it mounts and keeps into a table of its own: no earlier
table has grown, and each mount that was reported is found in its table beside what was kept. -/
def KeepsToItself (s : Session) (resolve : Resolver) (journal : Journal) : Prop :=
  let (result, done) := s.rendered resolve journal
  let own := done.mounts.arena s.mounts.nextRender
  result.isOk = true → (∀ earlier < s.mounts.nextRender,
    (done.mounts.arena earlier).nodes.length = (s.mounts.arena earlier).nodes.length) ∧
      done.journal.mounts + own.retained.length = journal.mounts + own.nodes.length

instance (s : Session) (resolve : Resolver) (journal : Journal) :
    Decidable (s.KeepsToItself resolve journal) :=
  inferInstanceAs (Decidable (_ → _ ∧ _))

/-- The tree that counts is that of the template, which builds all that there is. -/
theorem rendered_builds {s : Session} {resolve : Resolver} {journal : Journal} {shown : Shown}
    {patch : Patch} {done : RenderState}
    (hrun : s.rendered resolve journal = (.ok (shown, patch), done)) :
    RenderState.Builds s.mounts.renders.length
      ⟨s.mounts.start (s.shown.map Shown.render), journal⟩ done shown.root.refs := by
  have hbegun : s.mounts.renders.length <
      (s.mounts.start (s.shown.map Shown.render)).renders.length := by
    rw [Mounts.start, List.length_append]
    exact Nat.lt_succ_self _
  exact building_renderWithin s.mounts.renders.length resolve renderDepth s.template.fragment
    s.frame (s.shown.map Shown.root) _ _ shown.root done (.refl hbegun) (rendered_tree hrun)

/-- A render that keeps to itself leaves a tree of components, whose page comes out. -/
theorem InScene.tree {s : Session} {g : Scene} (h : s.InScene g) {resolve : Resolver}
    {journal : Journal} (hself : s.KeepsToItself resolve journal) {shown : Shown} {patch : Patch}
    {done : RenderState} (hrun : s.rendered resolve journal = (.ok (shown, patch), done)) :
    (done.mounts.snapshot shown.render shown.root).IsTree ∧
      ∃ page, (done.mounts.snapshot shown.render shown.root).html = .ok page := by
  obtain ⟨u, hle, hu, hmounts, hok⟩ := h.leads hrun
  obtain ⟨hrender, -, -⟩ := hok shown patch rfl
  rw [h.mounts] at hrender
  have hbuilds := rendered_builds hrun
  have hnew := arena_start_own s.mounts
  have hlength : done.mounts.renders.length = s.mounts.renders.length + 1 := by
    rw [hmounts, hle.renders, Scene.length_started, h.mounts]
  rw [KeepsToItself, hrun] at hself
  obtain ⟨hearlier, hcounted⟩ := hself rfl
  have hapart : RenderState.Apart s.mounts.renders.length
      ⟨s.mounts.start (s.shown.map Shown.render), journal⟩ done := by
    refine ⟨fun other hother => ?_, ?_⟩
    · change _ = ((s.mounts.start _).arena other).nodes.length
      rw [arena_start, if_neg hother]
      by_cases hlt : other < s.mounts.renders.length
      · exact hearlier other hlt
      · rw [Scene.arena_of_length_le (by omega), Scene.arena_of_length_le (by omega)]
    · change (done.journal.mounts : Int) + (done.mounts.arena s.mounts.nextRender).retained.length -
        (done.mounts.arena s.mounts.nextRender).nodes.length = _
      rw [RenderState.missing, hnew]
      dsimp only [List.length_nil]
      omega
  obtain ⟨new, arranged, hnodes, hperm, hforest⟩ := hbuilds.forest hapart
  change _ = ((s.mounts.start _).arena s.mounts.renders.length).nodes ++ new at hnodes
  rw [hnew, List.nil_append, ← hrender] at hnodes
  rw [← hnodes] at hperm
  have hnumbered : (done.mounts.snapshot shown.render shown.root).Numbered := by
    rw [hmounts]
    exact hu.numbered shown.render
  have hkeys : ((done.mounts.snapshot shown.render shown.root).components.map
      Instance.key).Nodup := by
    rw [hmounts]
    exact (hu.arenas shown.render).once
  exact ⟨.of_forest hforest hperm hnumbered hkeys, Snapshot.html_forest hforest hperm hnumbered⟩

/-- As long as every render that counts keeps to itself, the components that a session has on show
hang on the root as a tree, all under numbers and mount keys of their own, and the page comes out.
Only what renders that failed have mounted there stands beside the tree. -/
theorem components_form_tree {template : Template} {label : String} {s : Session}
    (h : Reached KeepsToItself template label s) {snapshot : Snapshot}
    (hcurrent : s.current = some snapshot) :
    ∃ table late, snapshot.components = table ++ late ∧
      Snapshot.IsTree ⟨snapshot.root, table⟩ ∧ snapshot.Numbered ∧
        (snapshot.components.map Instance.key).Nodup ∧ (∃ page, s.page = .ok page) ∧
          (snapshot.IsTree ↔ late = []) := by
  obtain ⟨g, -, hshows⟩ := Reached.stands
    (P := fun made => made.IsTree ∧ ∃ page, made.html = .ok page)
    (fun hg hself hrun => hg.tree hself hrun) h
  obtain ⟨top, htop, rfl⟩ := Option.map_eq_some_iff.mp hcurrent
  obtain ⟨table, late, hs, htree, page, hpage⟩ := hshows top htop
  have hnodes : (s.mounts.snapshot top.render top.root).components = table ++ late := by
    rw [← hs.nodes, hs.mounts]
    rfl
  have hgrown : s.mounts.snapshot top.render top.root = Snapshot.grown ⟨top.root, table⟩ late :=
    congrArg (Snapshot.mk top.root) hnodes
  rw [hgrown]
  refine ⟨table, late, rfl, htree, hs.numbered, hs.keyed, ⟨page, ?_⟩, htree.grown_iff hs.numbered⟩
  rw [hs.page_eq htree.closed, hpage]
  rfl

end Session

/-- The session that shows the content of the host from the start. -/
def hostedShown : Session :=
  (((Session.mount hostedResolver [("show", .flag true)]).run.run
    { template := hostedTemplate, label := "page" }).run {}).1.2

/-- The content of the host is mounted by the render that made it. -/
theorem hosted_components_form_tree : ∃ snapshot table late, hostedShown.current = some snapshot ∧
    snapshot.components.map Instance.cid = [3, 2, 1] ∧ snapshot.components = table ++ late ∧
      Snapshot.IsTree ⟨snapshot.root, table⟩ ∧ ∃ page, hostedShown.page = .ok page := by
  let assigned := ((Session.onAssigns (Assigns.assignAll [("show", .flag true)])).run.run
    { template := hostedTemplate, label := "page" }).run {}
  have hfacts : hostedShown.current.map (fun snapshot => snapshot.components.map Instance.cid) =
      some [3, 2, 1] ∧ assigned.1.2.KeepsToItself hostedResolver assigned.2 := by
    decide +kernel
  obtain ⟨hcids, hself⟩ := hfacts
  obtain ⟨snapshot, hcurrent, hcids⟩ := Option.map_eq_some_iff.mp hcids
  have hreached := Session.Reached.created.mount hostedResolver _ _ fun s next hrun => by
    have hs : assigned = ((.ok (), s), next) := hrun
    rw [hs] at hself
    exact hself
  obtain ⟨table, late, hcomponents, htree, -, -, hpage, -⟩ :=
    Session.components_form_tree hreached hcurrent
  exact ⟨snapshot, table, late, hcurrent, hcids, hcomponents, htree, hpage⟩

end LiveTemplate
