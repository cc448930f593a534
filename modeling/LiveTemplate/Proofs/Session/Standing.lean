import LiveTemplate.Proofs.Session.Between
import LiveTemplate.Proofs.Session.Steps
import LiveTemplate.Proofs.Snapshot.Page

/-!
What calls on a session can come to. Between two calls its mounts are those of a scene at rest; the
last render that counts has left a table, and what was mounted there since has keys of its own.
-/

namespace LiveTemplate

set_option autoImplicit false

namespace Session

/-- A session between two calls, in the scene of its mounts. -/
structure InScene (s : Session) (g : Scene) : Prop where
  rests : g.Rests
  mounts : g.mounts = s.mounts
  root : ∀ top ∈ s.shown, g.Knows top.root.parts
  lt : ∀ top ∈ s.shown, top.render < g.mounts.renders.length

/-- The last render that counts has left a table on show; `more` came to be mounted there since. -/
structure Shows (s : Session) (g : Scene) (top : Shown) (table more : List Instance) : Prop
    extends s.InScene g where
  shown : s.shown = some top
  nodes : (g.mounts.arena top.render).nodes = table ++ more
  mounted : ∀ key, Assoc.contains g.mounts.registry.live key = true →
    Assoc.contains (g.mounts.arena top.render).mounted key = true
  late : ∀ node ∈ more, Assoc.contains g.mounts.registry.live node.key = false

/-- The tree that counts came out of the template. -/
theorem rendered_tree {s : Session} {resolve : Resolver} {journal : Journal} {shown : Shown}
    {patch : Patch} {done : RenderState}
    (hrun : s.rendered resolve journal = (.ok (shown, patch), done)) :
    (s.template.render resolve s.frame (s.shown.map Shown.root)).run.run
      ⟨s.mounts.start (s.shown.map Shown.render), journal⟩ = (.ok shown.root, done) := by
  rw [rendered, next_eq, Sound.run_bind] at hrun
  cases hrender : (s.template.render resolve s.frame (s.shown.map Shown.root)).run.run
      ⟨s.mounts.start (s.shown.map Shown.render), journal⟩ with
  | mk result st =>
    rw [hrender] at hrun
    cases result with
    | error e => cases hrun
    | ok root =>
      dsimp only at hrun
      rw [run_patchTo] at hrun
      obtain ⟨hresult, rfl⟩ := Prod.mk.inj hrun
      cases hdiff : Snapshot.diff
          (s.shown.map fun before => st.mounts.snapshot before.render before.root)
          (st.mounts.snapshot s.mounts.renders.length root) with
      | error e =>
        rw [hdiff] at hresult
        cases hresult
      | ok p =>
        rw [hdiff] at hresult
        cases hresult
        rfl

/-- A session that has not rendered yet. -/
theorem inScene_created (template : Template) (label : String) (assigns : Assigns) :
    ({ template, label, assigns } : Session).InScene Scene.blank where
  rests := Scene.blank_rests
  mounts := rfl
  root top htop := by cases htop
  lt top htop := by cases htop

section InScene
variable {s : Session} {g : Scene} (h : s.InScene g)
include h

theorem InScene.before_lt : ∀ earlier ∈ s.shown.map Shown.render,
    earlier < g.mounts.renders.length := by
  intro earlier hearlier
  obtain ⟨top, htop, rfl⟩ := Option.map_eq_some_iff.mp hearlier
  exact h.lt top htop

/-- The next render leads to a later scene; if it counts, the components of all keys that it mounted
are there, and its patch is that to its snapshot. -/
theorem InScene.leads_filled {resolve : Resolver} {journal : Journal}
    {result : Except RenderError (Shown × Patch)} {done : RenderState}
    (hrun : s.rendered resolve journal = (result, done)) :
    ∃ u, g.started (s.shown.map Shown.render) ≤ u ∧ u.Fits ∧ done.mounts = u.mounts ∧
      ∀ shown patch, result = .ok (shown, patch) →
        (g.started (s.shown.map Shown.render)).Filled u ∧
        shown.render = g.mounts.renders.length ∧ u.Knows shown.root.parts ∧
          Snapshot.diff (s.shown.map fun before => u.mounts.snapshot before.render before.root)
            (u.mounts.snapshot shown.render shown.root) = .ok patch := by
  obtain ⟨u, hle, hu, hmounts, hok⟩ := next_leads h.rests h.mounts h.root resolve journal hrun
  refine ⟨u, hle, hu, hmounts, fun shown patch hresult => ?_⟩
  obtain ⟨hfill, hrender, hroot, hdiff⟩ := hok shown patch hresult
  rw [hrender]
  exact ⟨hfill, by rw [h.mounts], hroot, hdiff⟩

theorem InScene.leads {resolve : Resolver} {journal : Journal}
    {result : Except RenderError (Shown × Patch)} {done : RenderState}
    (hrun : s.rendered resolve journal = (result, done)) :
    ∃ u, g.started (s.shown.map Shown.render) ≤ u ∧ u.Fits ∧ done.mounts = u.mounts ∧
      ∀ shown patch, result = .ok (shown, patch) →
        shown.render = g.mounts.renders.length ∧ u.Knows shown.root.parts ∧
          Snapshot.diff (s.shown.map fun before => u.mounts.snapshot before.render before.root)
            (u.mounts.snapshot shown.render shown.root) = .ok patch := by
  obtain ⟨u, hle, hu, hmounts, hok⟩ := h.leads_filled hrun
  exact ⟨u, hle, hu, hmounts, fun shown patch hresult => (hok shown patch hresult).2⟩

variable {u : Scene} (hle : g.started (s.shown.map Shown.render) ≤ u) (hu : u.Fits)
include hle hu

theorem InScene.failed {done : RenderState} (hmounts : done.mounts = u.mounts) :
    { s with mounts := done.mounts }.InScene u.rested where
  rests := Scene.rests_rested h.rests h.before_lt hle hu
  mounts := hmounts.symm
  root top htop p hp := hle.parts p (h.root top htop p hp)
  lt top htop := by
    change top.render < u.mounts.renders.length
    rw [hle.renders, Scene.length_started]
    exact Nat.lt_succ_of_lt (h.lt top htop)

theorem InScene.turned {after : Session} {shown : Shown}
    (hmounts : after.mounts = u.mounts.commit shown.render) (hshown : after.shown = some shown)
    (hrender : shown.render = g.mounts.renders.length) (hroot : u.Knows shown.root.parts) :
    after.Shows (u.committed shown.render) shown (u.mounts.arena shown.render).nodes [] where
  rests := Scene.rests_committed h.rests h.before_lt hle hu shown.render
  mounts := hmounts.symm
  root top htop := by
    rw [hshown] at htop
    cases htop
    exact hroot
  lt top htop := by
    rw [hshown] at htop
    cases htop
    change shown.render < u.mounts.renders.length
    rw [hle.renders, Scene.length_started, hrender]
    exact Nat.lt_succ_self _
  shown := hshown
  nodes := (List.append_nil _).symm
  mounted _ hkey := hkey
  late node hnode := by cases hnode

end InScene

section Shows
variable {s : Session} {g : Scene} {top : Shown} {table more : List Instance}
  (h : s.Shows g top table more)
include h

theorem Shows.current : s.current = some ⟨top.root, table ++ more⟩ := by
  rw [Session.current, h.shown, Option.map_some, Mounts.snapshot, ← h.mounts, h.nodes]

theorem Shows.nodes_eq : s.nodes s.shown = table ++ more := by
  rw [h.shown, ← h.nodes, h.mounts]
  rfl

theorem Shows.numbered : ((table ++ more).map Instance.cid).Nodup := by
  rw [← h.nodes]
  exact h.rests.fits.numbered top.render

theorem Shows.keyed : ((table ++ more).map Instance.key).Nodup := by
  rw [← h.nodes]
  exact (h.rests.fits.arenas top.render).once

variable {u : Scene} (hle : g.started (some top.render) ≤ u)
include hle

/-- What a render mounts into the render on show has keys that are not live. -/
theorem Shows.grown : ∃ new, (u.mounts.arena top.render).nodes = table ++ (more ++ new) ∧
    ∀ node ∈ new, Assoc.contains g.mounts.registry.live node.key = false := by
  have hstarted := Scene.arena_started (some top.render) (h.lt top h.shown)
  obtain ⟨new, hnew, hall⟩ := (hle.arenas top.render).nodes
  rw [hstarted, h.nodes, List.append_assoc] at hnew
  refine ⟨new, hnew, fun node hnode => Bool.eq_false_iff.mpr fun hlive => ?_⟩
  have hmounted := (hall node hnode).1
  rw [hstarted, h.mounted node.key hlive] at hmounted
  cases hmounted

theorem Shows.failed (hu : u.Fits) {done : RenderState} (hmounts : done.mounts = u.mounts)
    {new : List Instance} (hnodes : (u.mounts.arena top.render).nodes = table ++ (more ++ new))
    (hnew : ∀ node ∈ new, Assoc.contains g.mounts.registry.live node.key = false) :
    { s with mounts := done.mounts }.Shows u.rested top table (more ++ new) := by
  have hlive : u.mounts.registry.live = g.mounts.registry.live := hle.live
  refine ⟨h.toInScene.failed (by rw [h.shown]; exact hle) hu hmounts,
    h.shown, hnodes, fun key hkey => ?_, fun node hnode => ?_⟩
  · refine (hle.arenas top.render).mounted key ?_
    rw [Scene.arena_started _ (h.lt top h.shown)]
    exact h.mounted key (hlive ▸ hkey)
  · change Assoc.contains u.mounts.registry.live node.key = false
    rw [hlive]
    rcases List.mem_append.mp hnode with hnode | hnode
    · exact h.late node hnode
    · exact hnew node hnode

end Shows

/-! ### Reachable sessions -/

section Reached
variable (may : Session → Resolver → Journal → Prop) (template : Template) (label : String)

/-- Sessions that assignments and renders lead to, be they successful or not; of the renders only
such as may take place. -/
inductive Reached : Session → Prop
  | created : Reached { template, label }
  | assigned {s : Session} (h : Reached s) (change : Assigning Unit) (journal : Journal) :
      Reached (((onAssigns change).run.run s).run journal).1.2
  | rendered {s : Session} (h : Reached s) (resolve : Resolver) (journal : Journal)
      (hmay : may s resolve journal) : Reached (((render resolve).run.run s).run journal).1.2

variable {may template label}

/-- To mount a session is to assign and to render. -/
theorem Reached.mount {s : Session} (h : Reached may template label s) (resolve : Resolver)
    (bindings : Record Value) (journal : Journal)
    (hmay : ∀ assigned next, ((onAssigns (Assigns.assignAll bindings)).run.run s).run journal =
      ((.ok (), assigned), next) → may assigned resolve next) :
    Reached may template label (((Session.mount resolve bindings).run.run s).run journal).1.2 := by
  rcases s.mount_after resolve bindings journal with
    hsame | ⟨result, assigned, next, hassign, hsame⟩
  · rw [hsame]
    exact h
  · have hassigned := h.assigned (Assigns.assignAll bindings) journal
    rw [hassign] at hassigned
    rcases hsame with hsame | ⟨rfl, hsame⟩
    · rw [hsame]
      exact hassigned
    · rw [hsame]
      exact hassigned.rendered resolve next (hmay assigned next hassign)

/-- What holds of each snapshot that a render leaves holds of what is on show, but for what came to
be mounted there since. -/
theorem Reached.stands {P : Snapshot → Prop}
    (hP : ∀ {s : Session} {g : Scene} {resolve : Resolver} {journal : Journal} {shown : Shown}
      {patch : Patch} {done : RenderState}, s.InScene g → may s resolve journal →
        s.rendered resolve journal = (.ok (shown, patch), done) →
          P (done.mounts.snapshot shown.render shown.root))
    {s : Session} (h : Reached may template label s) :
    ∃ g, s.InScene g ∧
      ∀ top ∈ s.shown, ∃ table more, s.Shows g top table more ∧ P ⟨top.root, table⟩ := by
  induction h with
  | created => exact ⟨Scene.blank, inScene_created template label {}, fun top htop => by cases htop⟩
  | @assigned s h change journal ih =>
    obtain ⟨g, hg, hshows⟩ := ih
    obtain ⟨result, assigns, next, hrun⟩ := run_onAssigns change s journal
    rw [hrun]
    refine ⟨g, ⟨hg.rests, hg.mounts, hg.root, hg.lt⟩, fun top htop => ?_⟩
    obtain ⟨table, more, hs, hp⟩ := hshows top htop
    exact ⟨table, more, ⟨⟨hg.rests, hg.mounts, hg.root, hg.lt⟩, hs.shown, hs.nodes, hs.mounted,
      hs.late⟩, hp⟩
  | @rendered s h resolve journal hmay ih =>
    obtain ⟨g, hg, hshows⟩ := ih
    obtain ⟨next, hrun⟩ := run_render resolve s journal
    rw [hrun]
    cases hrendered : s.rendered resolve journal with
    | mk result done =>
      obtain ⟨u, hle, hu, hmounts, hok⟩ := hg.leads hrendered
      cases result with
      | error e =>
        refine ⟨u.rested, hg.failed hle hu hmounts, fun top htop => ?_⟩
        obtain ⟨table, more, hs, hp⟩ := hshows top htop
        rw [hs.shown, Option.map_some] at hle
        obtain ⟨new, hnodes, hnew⟩ := hs.grown hle
        exact ⟨table, more ++ new, hs.failed hle hu hmounts hnodes hnew, hp⟩
      | ok r =>
        obtain ⟨shown, patch⟩ := r
        obtain ⟨hrender, hroot, -⟩ := hok shown patch rfl
        have hs : (s.turned shown done).Shows (u.committed shown.render) shown
            (u.mounts.arena shown.render).nodes [] := by
          refine hg.turned hle hu ?_ rfl hrender hroot
          rw [← hmounts]
          rfl
        refine ⟨_, hs.toInScene, fun top htop => ?_⟩
        cases htop
        refine ⟨_, [], hs, ?_⟩
        have hp := hP hg hmay hrendered
        rw [hmounts] at hp
        exact hp

end Reached

end Session

end LiveTemplate
