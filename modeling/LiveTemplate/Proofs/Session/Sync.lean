import LiveTemplate.Proofs.Session.Live
import LiveTemplate.Proofs.Session.Standing
import LiveTemplate.Proofs.Snapshot.RoundTrip
import LiveTemplate.TemplateUnit

/-!
A client follows its session exactly as long as the page is undisturbed. What disturbs a page is slot
content of an earlier render: a render that shows it mounts its components into that earlier one, and
if the render fails they stay there.
-/

namespace LiveTemplate

set_option autoImplicit false

namespace Live

/-- What a client that is up to date shows. -/
def snapshot (live : Live) (top : Shown) : Snapshot := ⟨top.root, live.table⟩

theorem parts_eq {live : Live} {top : Shown} (h : live.session.shown = some top) :
    live.parts = (live.snapshot top).parts := by
  rw [parts, h]
  rfl

/-- A page whose client is up to date with what the last render left on show; `more` came to be
mounted there since. -/
structure Ready (live : Live) (g : Scene) (top : Shown) (more : List Instance) : Prop
    extends live.session.Shows g top live.table more where
  strays : live.strays = []
  client : ∃ client, live.client = some client ∧ client.Shows (live.snapshot top)

namespace Ready

variable {live : Live} {g : Scene} {top : Shown} {more : List Instance}
  (h : live.Ready g top more)
include h

theorem undisturbed_iff : live.Undisturbed ↔ more = [] := by
  rw [Undisturbed, h.nodes_eq, List.map_append, List.append_right_eq_self, List.map_eq_nil_iff]
  exact and_iff_left h.strays

/-- A client that is up to date is in sync unless more was mounted. -/
theorem inSync_iff : live.InSync ↔ live.Undisturbed := by
  obtain ⟨client, hclient, hshows⟩ := h.client
  have hn := h.numbered
  constructor
  · rintro ⟨other, snapshot, hother, hsnapshot, -, hcids⟩
    rw [hclient] at hother
    rw [h.current] at hsnapshot
    cases hother
    cases hsnapshot
    cases more with
    | nil => exact h.undisturbed_iff.mpr rfl
    | cons node rest =>
      -- its number would have to be that of a component the client was sent
      have hin : node.cid ∈ client.cids := by
        rw [hcids]
        exact List.mem_map_of_mem (List.mem_append_right _ List.mem_cons_self)
      rw [hshows.mem_cids_iff, Snapshot.contains_iff] at hin
      obtain ⟨c, hc, hcid⟩ := hin
      rw [List.map_append, List.nodup_append] at hn
      exact absurd hcid (hn.2.2 c.cid (List.mem_map_of_mem hc) node.cid
        (List.mem_map_of_mem List.mem_cons_self))
  · intro hundisturbed
    cases h.undisturbed_iff.mp hundisturbed
    have hcurrent := h.current
    rw [List.append_nil] at hn hcurrent
    refine ⟨client, live.snapshot top, hclient, hcurrent, ?_, fun cid => ?_⟩
    · rw [page, Session.run_html, hcurrent, hshows.html_eq hn]
      rfl
    · rw [hshows.mem_cids_iff, Snapshot.contains_iff, List.mem_map]

/-- A render that fails leaves on show what was on show, and maybe more. -/
theorem failed {resolve : Resolver} {e : RenderError} {done : RenderState} (journal : Journal)
    (hrun : live.rendered resolve = (.error e, done)) : ∃ g' late,
      Ready { live with session := { live.session with mounts := done.mounts }, journal }
        g' top late := by
  obtain ⟨u, hle, hu, hmounts, -⟩ := h.toInScene.leads hrun
  rw [h.shown, Option.map_some] at hle
  obtain ⟨new, hnodes, hnew⟩ := h.grown hle
  exact ⟨u.rested, more ++ new, h.toShows.failed hle hu hmounts hnodes hnew, h.strays, h.client⟩

theorem assigned (assigns : Assigns) (journal : Journal) :
    Ready { live with session := { live.session with assigns }, journal } g top more :=
  ⟨⟨⟨h.rests, h.mounts, h.root, h.lt⟩, h.shown, h.nodes, h.mounted, h.late⟩, h.strays, h.client⟩

end Ready

/-- What a render that counts comes to: the scene that it ends in, and what the render that was on
show holds there beyond what it left. -/
structure Turns (live : Live) (g : Scene) (top shown : Shown) (patch : Patch) (next : Live)
    (u : Scene) (late : List Instance) : Prop where
  le : g.started (some top.render) ≤ u
  fits : u.Fits
  mounts : next.session.mounts = u.mounts.commit shown.render
  on_show : next.session.shown = some shown
  render : shown.render = g.mounts.renders.length
  root : u.Knows shown.root.parts
  held : (u.mounts.arena top.render).nodes = live.table ++ late
  come_late : ∀ node ∈ late, Assoc.contains g.mounts.registry.live node.key = false
  table : next.table = (u.mounts.arena shown.render).nodes
  strays : next.strays = straysOf live.table (live.table ++ late) next.table
  client : next.client = Client.update live.client patch
  diff : Snapshot.diff (some ((live.snapshot top).grown late)) (next.snapshot shown) = .ok patch

theorem Ready.turns {live : Live} {g : Scene} {top : Shown} {more : List Instance}
    (h : live.Ready g top more) {resolve : Resolver} {shown : Shown} {patch : Patch}
    {done : RenderState} (hrun : live.rendered resolve = (.ok (shown, patch), done))
    (journal : Journal) :
    ∃ u late, Turns live g top shown patch (live.turned shown patch done journal) u late := by
  obtain ⟨u, hle, hu, hmounts, hok⟩ := h.toInScene.leads hrun
  obtain ⟨hrender, hroot, hdiff⟩ := hok shown patch rfl
  rw [h.shown, Option.map_some] at hle hdiff
  obtain ⟨new, hnodes, hnew⟩ := h.grown hle
  have hlate : ∀ node ∈ more ++ new,
      Assoc.contains g.mounts.registry.live node.key = false :=
    List.forall_mem_append.mpr ⟨h.late, hnew⟩
  have htable : (live.turned shown patch done journal).table =
      (u.mounts.arena shown.render).nodes := by
    rw [← hmounts]
    rfl
  refine ⟨u, more ++ new, hle, hu, ?_, rfl, hrender, hroot, hnodes, hlate, htable, ?_, rfl, ?_⟩
  · rw [← hmounts]
    rfl
  · rw [← hnodes, ← hmounts]
    change straysOf _ (Session.nodes _ live.session.shown) _ = _
    rw [h.shown]
    rfl
  · change Snapshot.diff _ ⟨shown.root, (live.turned shown patch done journal).table⟩ = _
    rw [htable]
    change Snapshot.diff (some ⟨top.root, (u.mounts.arena top.render).nodes⟩) _ = _ at hdiff
    rw [hnodes] at hdiff
    exact hdiff

section Turns
variable {live next : Live} {g u : Scene} {top shown : Shown} {more late : List Instance}
  {patch : Patch} (h : live.Ready g top more) (ht : live.Turns g top shown patch next u late)

include ht in
theorem Turns.numbered : (next.snapshot shown).Numbered := by
  change (next.table.map Instance.cid).Nodup
  rw [ht.table]
  exact ht.fits.numbered shown.render

include ht in
theorem Turns.held_numbered : ((live.snapshot top).grown late).Numbered := by
  change ((live.table ++ late).map Instance.cid).Nodup
  rw [← ht.held]
  exact ht.fits.numbered top.render

include ht in
theorem Turns.current : next.session.current = some (next.snapshot shown) := by
  rw [Session.current, ht.on_show, Option.map_some, ht.mounts, snapshot, ht.table]
  rfl

include h ht

/-- What was on show and what is on show now is told apart by its identities. -/
theorem Turns.identified : Identified (live.parts ++ next.parts) := by
  have hknown : ∀ {s : Snapshot} (render : Nat), u.Knows s.root.parts →
      (∀ c ∈ s.components, c ∈ (u.mounts.arena render).nodes) → u.Knows s.parts := by
    intro s render hroot hall p hp
    rcases List.mem_append.mp hp with hp | hp
    · exact hroot p hp
    · obtain ⟨c, hc, hp⟩ := List.mem_flatMap.mp hp
      exact (ht.fits.arenas render).parts c (hall c hc) p hp
  refine ht.fits.identified (Scene.knows_append.mpr ⟨?_, ?_⟩)
  · rw [parts_eq h.shown]
    refine hknown top.render (fun p hp => ht.le.parts p (h.root top h.shown p hp)) fun c hc => ?_
    rw [ht.held]
    exact List.mem_append_left late hc
  · rw [parts_eq ht.on_show]
    refine hknown shown.render ht.root fun c hc => ?_
    rw [← ht.table]
    exact hc

/-- A page without strays is up to date once the client has read the patch. -/
theorem Turns.ready (hagree : StaticsAgree (live.parts ++ next.parts)) (hs : next.strays = []) :
    next.Ready (u.committed shown.render) shown [] := by
  have hcoherent : Coherent ((live.snapshot top).parts ++ (next.snapshot shown).parts) := by
    rw [← parts_eq h.shown, ← parts_eq ht.on_show]
    exact ⟨hagree, ht.identified h⟩
  have hkeep : ∀ c ∈ (next.snapshot shown).components,
      ((live.snapshot top).grown late).contains c.cid = true →
        (live.snapshot top).contains c.cid = true := by
    intro c hc hcontains
    rw [ht.strays, straysOf, List.filter_eq_nil_iff] at hs
    refine Bool.of_not_eq_false fun hnot => hs c.cid (List.mem_map_of_mem hc) ?_
    rw [Snapshot.contains] at hcontains hnot
    rw [Bool.and_eq_true, Bool.not_eq_true']
    exact ⟨hcontains, hnot⟩
  obtain ⟨client, hclient, hshows⟩ := h.client
  obtain ⟨after, hafter, hshows⟩ := Client.shows_next hshows hcoherent ht.diff ht.held_numbered
    ht.numbered hkeep
  have hs' : next.session.Shows (u.committed shown.render) shown next.table [] := by
    rw [ht.table]
    refine h.toInScene.turned ?_ ht.fits ht.mounts ht.on_show ht.render ht.root
    rw [h.shown]
    exact ht.le
  refine ⟨hs', hs, after, ?_, hshows⟩
  rw [ht.client, hclient, hafter]

/-- A stray never reaches the client. -/
theorem Turns.lost (hs : next.strays ≠ []) : ¬ next.InSync := by
  have hbefore := h.before_lt
  rw [h.shown, Option.map_some] at hbefore
  obtain ⟨cid, hcid⟩ := List.exists_mem_of_ne_nil _ hs
  rw [ht.strays, straysOf, List.mem_filter, Bool.and_eq_true, Bool.not_eq_true'] at hcid
  obtain ⟨hcid, hheld, hnot⟩ := hcid
  change (live.snapshot top).contains cid = false at hnot
  obtain ⟨c, hc, rfl⟩ := List.mem_map.mp hcid
  obtain ⟨e, he, hecid⟩ := Snapshot.contains_iff (s := (live.snapshot top).grown late).mp hheld
  have hlate : e ∈ late := by
    rcases List.mem_append.mp he with hold | hlate
    · rw [Snapshot.contains_iff.mpr ⟨e, hold, hecid⟩] at hnot
      cases hnot
    · exact hlate
  -- the render has kept the stray as it was, so nothing is sent of it
  have hkept : e = c := by
    rw [ht.table, ht.render] at hc
    have he' : e ∈ (u.mounts.arena top.render).nodes := by
      rw [ht.held]
      exact he
    exact Scene.eq_of_late h.rests hbefore rfl ht.le ht.fits hc he' hecid (ht.come_late e hlate)
  subst hkept
  have hfind := (Snapshot.find?_eq_some_iff ht.held_numbered).mpr ⟨he, rfl⟩
  obtain ⟨client, hclient, hshows⟩ := h.client
  have hlacks : e.cid ∉ client.cids := by
    rw [hshows.mem_cids_iff, hnot]
    exact Bool.false_ne_true
  rintro ⟨after, snapshot, hafter, hsnapshot, -, hcids⟩
  rw [ht.client, hclient] at hafter
  rw [ht.current] at hsnapshot
  cases hsnapshot
  refine Client.update_lacks ht.diff ht.numbered hc hfind rfl hlacks hafter ?_
  rw [hcids]
  exact hcid

end Turns

/-- What a call does to a page that is up to date: it stays so, or the client loses track. -/
theorem Ready.step {live : Live} {g : Scene} {top : Shown} {more : List Instance}
    (h : live.Ready g top more) (call : SessionCall)
    (hagree : live.succeeds call = true → StaticsAgree (live.parts ++ (live.after call).parts)) :
    (∃ g' top' more', (live.after call).Ready g' top' more' ∧
      (live.succeeds call = false → (live.after call).parts = live.parts)) ∨
    (live.succeeds call = true ∧ ¬ (live.after call).InSync ∧ ¬ (live.after call).Undisturbed) := by
  cases call with
  | assign change =>
    obtain ⟨assigns, journal, hafter⟩ := live.after_assign change
    rw [hafter]
    exact .inl ⟨g, top, more, h.assigned assigns journal, fun _ => rfl⟩
  | render resolve =>
    cases hrun : live.rendered resolve with
    | mk result done =>
      cases result with
      | error e =>
        obtain ⟨-, journal, hafter⟩ := after_render_error hrun
        obtain ⟨g', late, hready⟩ := h.failed journal hrun
        rw [hafter]
        exact .inl ⟨g', top, late, hready, fun _ => rfl⟩
      | ok r =>
        obtain ⟨hok, journal, hafter⟩ := after_render_ok hrun
        obtain ⟨u, late, ht⟩ := h.turns hrun journal
        rw [hafter] at hagree ⊢
        by_cases hs : (live.turned r.1 r.2 done journal).strays = []
        · refine .inl ⟨_, _, _, ht.ready h (hagree hok) hs, fun hfails => ?_⟩
          rw [hok] at hfails
          cases hfails
        · exact .inr ⟨hok, ht.lost h hs, fun hu => hs hu.2⟩

/-- Over a run that starts up to date, a client is in sync exactly as long as nothing disturbs. -/
theorem Ready.moments_iff {live : Live} {g : Scene} {top : Shown} {more : List Instance}
    (h : live.Ready g top more) (calls : List SessionCall)
    (hagree : StaticsAgree ((live :: live.moments calls).flatMap parts)) :
    (∀ m ∈ live.moments calls, m.InSync) ↔ ∀ m ∈ live.moments calls, m.Undisturbed := by
  -- calls that fail are no moments, but may leave more mounted; so the scene goes along
  induction calls generalizing live g top more with
  | nil => exact iff_of_true (List.forall_mem_nil _) (List.forall_mem_nil _)
  | cons call rest ih =>
    rw [moments] at hagree ⊢
    cases hok : live.succeeds call with
    | false =>
      rw [hok, if_neg Bool.false_ne_true] at hagree
      rw [if_neg Bool.false_ne_true]
      have hnever : live.succeeds call = true → StaticsAgree (live.parts ++ (live.after call).parts) :=
        fun hyes => by cases hok.symm.trans hyes
      rcases h.step call hnever with
        ⟨g', top', more', hready, hparts⟩ | ⟨hyes, -⟩
      · refine ih hready ?_
        rw [List.flatMap_cons, hparts hok, ← List.flatMap_cons]
        exact hagree
      · rw [hok] at hyes
        cases hyes
    | true =>
      rw [hok, if_pos rfl, List.flatMap_cons] at hagree
      rw [if_pos rfl, List.forall_mem_cons, List.forall_mem_cons]
      have hpair : StaticsAgree (live.parts ++ (live.after call).parts) :=
        hagree.mono (by
          rw [List.flatMap_cons, ← List.append_assoc]
          exact List.subset_append_left _ _)
      rcases h.step call fun _ => hpair with ⟨g', top', more', hready, -⟩ | ⟨-, hlost, hdisturbed⟩
      · exact and_congr hready.inSync_iff
          (ih hready (hagree.mono (List.subset_append_right _ _)))
      · exact iff_of_false (fun hall => hlost hall.1) fun hall => hdisturbed hall.1

/-- A client starts up to date. -/
theorem ready_mounted {template : Template} {label : String} {resolve : Resolver}
    {bindings : Record Value} {journal : Journal} {live : Live}
    (h : mounted? template label resolve bindings journal = some live) :
    ∃ g top, live.Ready g top [] := by
  rw [mounted?] at h
  split at h
  · rename_i page patch session last hmount
    cases h
    obtain ⟨assigns, next, shown, done, hrun, rfl⟩ := Session.mount_ok hmount
    have hg := Session.inScene_created template label assigns
    obtain ⟨u, hle, hu, hmounts, hok⟩ := hg.leads hrun
    obtain ⟨hrender, hroot, hdiff⟩ := hok shown patch rfl
    obtain ⟨mounts, journal⟩ := done
    subst hmounts
    obtain ⟨client, hclient, hshows⟩ := Client.shows_first hdiff (hu.numbered shown.render)
    exact ⟨u.committed shown.render, shown, hg.turned hle hu rfl rfl hrender hroot, rfl, client,
      hclient, hshows⟩
  · cases h

/-- The client of a session shows its page and holds its components after every call that succeeds,
exactly if at all those times no component was mounted into a render that was already on show, and
none was shown that was mounted so before. -/
theorem in_sync_iff_undisturbed {template : Template} {label : String} {resolve : Resolver}
    {bindings : Record Value} {journal : Journal} {live : Live}
    (h : mounted? template label resolve bindings journal = some live) (calls : List SessionCall)
    (hagree : StaticsAgree ((live :: live.moments calls).flatMap parts)) :
    (∀ m ∈ live :: live.moments calls, m.InSync) ↔
      ∀ m ∈ live :: live.moments calls, m.Undisturbed := by
  obtain ⟨g, top, hready⟩ := ready_mounted h
  rw [List.forall_mem_cons, List.forall_mem_cons]
  exact and_congr hready.inSync_iff (hready.moments_iff calls hagree)

end Live

/-- A host that shows the content it is handed only while `show` is set. -/
def hosting : UnitStep Template := do
  TemplateUnit.define "leaf" [.template "<i>x</i>"]
  TemplateUnit.define "host" [.attr ⟨"content", .any, {}⟩, .attr ⟨"show", .any, {}⟩,
    .template "<%= if show %>{renderSlot(content)}<% end %>"]
  TemplateUnit.define "outer" [.attr ⟨"show", .any, {}⟩, .slot ⟨"inner_block", false, none, []⟩,
    .template "<.host content={inner_block} show={show}/>"]
  TemplateUnit.compile "<.outer show={show}><.leaf/></.outer>" none

def hosted : Except UnitError Template × TemplateUnit :=
  ((hosting.run.run { number := 0, name := "Ui", file := "Ui", helpers := [] }).run {}).1

def hostedTemplate : Template := hosted.1.toOption.get (by decide +kernel)

def hostedResolver : Resolver := Library.resolver [(0, hosted.2)]

def hostedPage (flag : Bool) : Option Live :=
  Live.mounted? hostedTemplate "page" hostedResolver [("show", .flag flag)] {}

theorem hostedPage_isSome (flag : Bool) : (hostedPage flag).isSome = true := by
  cases flag with
  | false => decide +kernel
  | true => decide +kernel

def hostedLive (flag : Bool) : Live := (hostedPage flag).get (hostedPage_isSome flag)

def hostedCalls (flag : Bool) : List SessionCall :=
  [.assign (Assigns.assign "show" (.flag flag)), .render hostedResolver]

/-- Content that is shown from the start can go, and its client follows. Content that is first shown
later is of an earlier render: the render that shows it fails, but its component stays. -/
theorem hosted_in_sync :
    hostedPage true = some (hostedLive true) ∧ hostedPage false = some (hostedLive false) ∧
      (∀ m ∈ hostedLive true :: (hostedLive true).moments (hostedCalls false), m.InSync) ∧
      ¬ ∀ m ∈ hostedLive false ::
        (hostedLive false).moments (hostedCalls true ++ hostedCalls false), m.InSync := by
  have hshown : hostedPage true = some (hostedLive true) := (Option.some_get _).symm
  have hhidden : hostedPage false = some (hostedLive false) := (Option.some_get _).symm
  have hearly : StaticsAgree ((hostedLive true :: (hostedLive true).moments
        (hostedCalls false)).flatMap Live.parts) ∧
      ∀ m ∈ hostedLive true :: (hostedLive true).moments (hostedCalls false),
        m.Undisturbed := by
    decide +kernel
  have hlate : StaticsAgree ((hostedLive false :: (hostedLive false).moments
        (hostedCalls true ++ hostedCalls false)).flatMap Live.parts) ∧
      ¬ ∀ m ∈ hostedLive false ::
        (hostedLive false).moments (hostedCalls true ++ hostedCalls false), m.Undisturbed := by
    decide +kernel
  refine ⟨hshown, hhidden, ?_, fun hall => ?_⟩
  · exact (Live.in_sync_iff_undisturbed hshown _ hearly.1).mpr hearly.2
  · exact hlate.2 ((Live.in_sync_iff_undisturbed hhidden _ hlate.1).mp hall)

end LiveTemplate
