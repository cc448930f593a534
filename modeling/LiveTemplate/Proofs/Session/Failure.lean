import LiveTemplate.Proofs.Session.Standing
import LiveTemplate.Proofs.Session.Sync

/-!
A render that fails leaves a session as it was, whatever led to the session and wherever the render
fails, but for components that slot content of the render on show has mounted there meanwhile. They
stay in its table, where nothing refers to them.
-/

namespace LiveTemplate

set_option autoImplicit false

namespace Session

/-- Sessions that any assignments and renders lead to. -/
abbrev Reachable (template : Template) (label : String) : Session → Prop :=
  Reached (fun _ _ _ => True) template label

/-- What a session gives as its page. -/
def page (s : Session) : Except SessionError String := ((Session.html.run.run s).run {}).1.1

theorem page_eq (s : Session) : s.page = match s.current with
    | none => .error (.notMounted s.label)
    | some snapshot => snapshot.html.mapError fun e => .render (.tree e) := by
  rewrite [page, run_html]
  rfl

/-- A session that is as it was, but for components that came late to the table of what is on show:
they have mount keys and numbers of their own. -/
structure Keeps (before after : Session) (late : List Instance) : Prop where
  template : after.template = before.template
  label : after.label = before.label
  assigns : after.assigns = before.assigns
  shown : after.shown = before.shown
  live : after.mounts.registry.live = before.mounts.registry.live
  page : after.page = before.page
  nodes : after.nodes after.shown = before.nodes before.shown ++ late
  keys : ∀ node ∈ late, Assoc.contains before.mounts.registry.live node.key = false
  once : ((before.nodes before.shown ++ late).map Instance.key).Nodup ∧
    ((before.nodes before.shown ++ late).map Instance.cid).Nodup

theorem Keeps.current_iff {before after : Session} {late : List Instance}
    (h : before.Keeps after late) : after.current = before.current ↔ late = [] := by
  have hcurrent : ∀ s : Session, s.current = s.shown.map fun top => ⟨top.root, s.nodes s.shown⟩ := by
    intro s
    rw [current]
    cases s.shown <;> rfl
  have hnodes := h.nodes
  rw [hcurrent, hcurrent, h.shown]
  rw [h.shown] at hnodes
  cases hshown : before.shown with
  | none =>
    rw [hshown] at hnodes
    exact iff_of_true rfl (List.nil_eq_append_iff.mp hnodes).2
  | some top =>
    rw [hshown] at hnodes
    rw [Option.map_some, Option.map_some, hnodes, Option.some.injEq, Snapshot.mk.injEq,
      List.append_right_eq_self]
    exact and_iff_right rfl

/-- The table that a render leaves is closed, since its patch could be made. -/
theorem Reachable.stands {template : Template} {label : String} {s : Session}
    (h : s.Reachable template label) : ∃ g, s.InScene g ∧ ∀ top ∈ s.shown,
      ∃ table more, s.Shows g top table more ∧ Snapshot.Closed ⟨top.root, table⟩ := by
  refine Reached.stands ?_ h
  intro s g resolve journal shown patch done hg _ hrun
  obtain ⟨u, -, -, hmounts, hok⟩ := hg.leads hrun
  obtain ⟨-, -, hdiff⟩ := hok shown patch rfl
  rw [hmounts]
  exact (Snapshot.diff_eq_ok hdiff).1

theorem Shows.page_eq {s : Session} {g : Scene} {top : Shown} {table more : List Instance}
    (h : s.Shows g top table more) (hclosed : Snapshot.Closed ⟨top.root, table⟩) :
    s.page = (Snapshot.html ⟨top.root, table⟩).mapError fun e => .render (.tree e) := by
  rw [Session.page_eq, h.current]
  exact congrArg (Except.mapError _) (Snapshot.html_grown hclosed more)

section Failed
variable {s : Session} {g u : Scene} {done : RenderState}
  (hle : g.started (s.shown.map Shown.render) ≤ u) (hmounts : done.mounts = u.mounts)
include hle hmounts

theorem InScene.live_eq (h : s.InScene g) :
    done.mounts.registry.live = s.mounts.registry.live := by
  rw [hmounts, hle.live, ← h.mounts]
  rfl

theorem InScene.keeps_hidden (h : s.InScene g) (hshown : s.shown = none) :
    s.Keeps { s with mounts := done.mounts } [] where
  template := rfl
  label := rfl
  assigns := rfl
  shown := rfl
  live := h.live_eq hle hmounts
  page := by
    rw [page_eq, page_eq, current, current, hshown]
    rfl
  nodes := by
    rw [hshown]
    rfl
  keys node hnode := by cases hnode
  once := by
    rw [hshown]
    exact ⟨.nil, .nil⟩

theorem Shows.keeps {top : Shown} {table more : List Instance} (h : s.Shows g top table more)
    (hclosed : Snapshot.Closed ⟨top.root, table⟩) (hu : u.Fits) :
    ∃ late, s.Keeps { s with mounts := done.mounts } late := by
  have hlive := h.toInScene.live_eq hle hmounts
  rw [h.shown, Option.map_some] at hle
  obtain ⟨new, hnodes, hnew⟩ := h.grown hle
  have hafter := h.failed hle hu hmounts hnodes hnew
  have hheld : s.nodes s.shown ++ new = table ++ (more ++ new) := by
    rw [h.nodes_eq, List.append_assoc]
  refine ⟨new, rfl, rfl, rfl, rfl, hlive, ?_, ?_, ?_, ?_⟩
  · rw [hafter.page_eq hclosed, h.page_eq hclosed]
  · rw [hafter.nodes_eq, hheld]
  · rw [← h.mounts]
    exact hnew
  · rw [hheld]
    exact ⟨hafter.keyed, hafter.numbered⟩

end Failed

end Session

/-- The session on which the content of the host is hidden, and then is to be shown. -/
def hostedShowing : Session :=
  let hidden := (((Session.mount hostedResolver [("show", .flag false)]).run.run
    { template := hostedTemplate, label := "page" }).run {}).1.2
  (((Session.onAssigns (Assigns.assign "show" (.flag true))).run.run hidden).run {}).1.2

def hostedFailing : (Except SessionError Patch × Session) × Journal :=
  ((Session.render hostedResolver).run.run hostedShowing).run {}

end LiveTemplate
