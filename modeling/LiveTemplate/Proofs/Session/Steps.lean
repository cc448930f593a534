import LiveTemplate.Proofs.Result
import LiveTemplate.Session

/-!
What the steps of a session come to: an assignment changes the bindings only, a render ends in a new
snapshot or in a fault, and reading the page changes nothing.
-/

namespace LiveTemplate

set_option autoImplicit false

/-- The components that a render has mounted by now. -/
def Session.nodes (s : Session) (shown : Option Shown) : List Instance :=
  ((shown.map fun shown => (s.mounts.arena shown.render).nodes).getD [])

/-- The next render of a session and what it leaves behind. -/
def Session.rendered (s : Session) (resolve : Resolver) (journal : Journal) :
    Except RenderError (Shown × Patch) × RenderState :=
  (s.next resolve).run.run ⟨s.mounts.start (s.shown.map Shown.render), journal⟩

/-- The session after a render that counts. -/
def Session.turned (s : Session) (shown : Shown) (done : RenderState) : Session :=
  { s with
    assigns := s.assigns.reset
    mounts := done.mounts.commit shown.render
    shown := some shown }

theorem Session.run_onAssigns (change : Assigning Unit) (s : Session) (journal : Journal) :
    ∃ result assigns next, ((Session.onAssigns change).run.run s).run journal =
      ((result, { s with assigns }), next) :=
  ⟨_, _, _, rfl⟩

theorem Session.run_render (resolve : Resolver) (s : Session) (journal : Journal) :
    ∃ next, ((Session.render resolve).run.run s).run journal =
      match s.rendered resolve journal with
      | (.error e, done) => ((.error (.render e), { s with mounts := done.mounts }), next)
      | (.ok (shown, patch), done) => ((.ok patch, s.turned shown done), next) := by
  have hget : ∀ f : Session → SessionStep Patch,
      ((get >>= f : SessionStep Patch).run.run s).run journal =
        ((f s).run.run s).run journal := fun _ => rfl
  have hjournal : ∀ f : Journal → SessionStep Patch,
      ((getThe Journal >>= f : SessionStep Patch).run.run s).run journal =
        ((f journal).run.run s).run journal := fun _ => rfl
  rw [Session.render, hget, hjournal, Session.rendered]
  cases h : (s.next resolve).run.run ⟨s.mounts.start (s.shown.map Shown.render), journal⟩ with
  | mk result done =>
    cases result with
    | error e =>
      dsimp only
      rw [h]
      exact ⟨done.journal, rfl⟩
    | ok r =>
      dsimp only
      rw [h]
      exact ⟨_, rfl⟩

theorem Session.run_html (s : Session) (journal : Journal) :
    (Session.html.run.run s).run journal = ((match s.current with
      | none => .error (.notMounted s.label)
      | some snapshot => snapshot.html.mapError (fun e => .render (.tree e)), s), journal) := by
  have hget : ∀ f : Session → SessionStep String,
      ((get >>= f : SessionStep String).run.run s).run journal =
        ((f s).run.run s).run journal := fun _ => rfl
  rw [Session.html, hget]
  cases s.current with
  | none => rfl
  | some snapshot =>
    dsimp only
    cases snapshot.html <;> rfl

theorem Session.bind_ok {α β : Type} {x : SessionStep α} {f : α → SessionStep β}
    {s after : Session} {journal last : Journal} {b : β}
    (h : ((x >>= f).run.run s).run journal = ((.ok b, after), last)) :
    ∃ a between next, (x.run.run s).run journal = ((.ok a, between), next) ∧
      ((f a).run.run between).run next = ((.ok b, after), last) := by
  rw [run_bind] at h
  split at h
  · rename_i a between next hx
    exact ⟨a, between, next, hx, h⟩
  · cases h

theorem Session.render_ok {s after : Session} {resolve : Resolver} {patch : Patch}
    {journal last : Journal}
    (h : ((Session.render resolve).run.run s).run journal = ((.ok patch, after), last)) :
    ∃ shown done, s.rendered resolve journal = (.ok (shown, patch), done) ∧
      after = s.turned shown done := by
  obtain ⟨next, hrun⟩ := Session.run_render resolve s journal
  rw [hrun] at h
  split at h
  · cases h
  · rename_i shown sent done hnext
    cases h
    exact ⟨shown, done, hnext, rfl⟩

theorem Session.render_error {s after : Session} {resolve : Resolver} {e : SessionError}
    {journal last : Journal}
    (h : ((Session.render resolve).run.run s).run journal = ((.error e, after), last)) :
    ∃ cause done, s.rendered resolve journal = (.error cause, done) ∧
      after = { s with mounts := done.mounts } := by
  obtain ⟨next, hrun⟩ := Session.run_render resolve s journal
  rw [hrun] at h
  split at h
  · rename_i cause done hnext
    cases h
    exact ⟨cause, done, hnext, rfl⟩
  · cases h

/-- A session that is mounted has rendered once. -/
theorem Session.mount_ok {s after : Session} {resolve : Resolver} {bindings : Record Value}
    {journal last : Journal} {page : String} {patch : Patch}
    (h : ((Session.mount resolve bindings).run.run s).run journal =
      ((.ok (page, patch), after), last)) :
    ∃ assigns next shown done,
      ({ s with assigns } : Session).rendered resolve next = (.ok (shown, patch), done) ∧
      after = ({ s with assigns } : Session).turned shown done := by
  have hget : ∀ f : Session → SessionStep (String × Patch),
      ((get >>= f : SessionStep (String × Patch)).run.run s).run journal =
        ((f s).run.run s).run journal := fun _ => rfl
  rw [Session.mount, hget] at h
  dsimp only at h
  split at h
  · cases h
  · obtain ⟨u, mid, next, hassigns, h⟩ := Session.bind_ok h
    obtain ⟨sent, done, last', hrender, h⟩ := Session.bind_ok h
    obtain ⟨text, same, last'', hhtml, h⟩ := Session.bind_ok h
    cases h
    obtain ⟨result, assigns, next', hrun⟩ :=
      Session.run_onAssigns (Assigns.assignAll bindings) s journal
    cases hassigns.symm.trans hrun
    obtain ⟨shown, done, hnext, rfl⟩ := Session.render_ok hrender
    rw [Session.run_html] at hhtml
    cases (congrArg (fun r => r.1.2) hhtml : _ = after)
    exact ⟨assigns, next, shown, done, hnext, rfl⟩

/-- To mount a session is to assign and then to render, as far as it gets. -/
theorem Session.mount_after (s : Session) (resolve : Resolver) (bindings : Record Value)
    (journal : Journal) :
    let after := (((Session.mount resolve bindings).run.run s).run journal).1.2
    after = s ∨ ∃ result assigned next,
      ((Session.onAssigns (Assigns.assignAll bindings)).run.run s).run journal =
        ((result, assigned), next) ∧
      (after = assigned ∨ result = .ok () ∧
        after = (((Session.render resolve).run.run assigned).run next).1.2) := by
  have hget : ∀ f : Session → SessionStep (String × Patch),
      ((get >>= f : SessionStep (String × Patch)).run.run s).run journal =
        ((f s).run.run s).run journal := fun _ => rfl
  rw [Session.mount, hget]
  dsimp only
  split
  · exact .inl rfl
  · right
    cases hassign : ((onAssigns (Assigns.assignAll bindings)).run.run s).run journal with
    | mk result next =>
      obtain ⟨result, assigned⟩ := result
      refine ⟨result, assigned, next, rfl, ?_⟩
      rw [run_bind, hassign]
      cases result with
      | error e => exact .inl rfl
      | ok u =>
        refine .inr ⟨rfl, ?_⟩
        dsimp only
        rw [run_bind]
        cases hrender : ((render resolve).run.run assigned).run next with
        | mk result last =>
          obtain ⟨result, after⟩ := result
          cases result with
          | error e => rfl
          | ok patch =>
            dsimp only
            rw [run_bind, run_html]
            cases after.current with
            | none => rfl
            | some snapshot =>
              dsimp only
              cases snapshot.html <;> rfl

end LiveTemplate
