import LiveTemplate.Proofs.Client.View
import LiveTemplate.Proofs.Session.Steps
import LiveTemplate.Proofs.Tree.Parts

/-!
A live page: a session together with the client that reads its patches. The page keeps besides which
components the last render left on show, since a table may come to hold more of them afterwards.
-/

namespace LiveTemplate

set_option autoImplicit false

/-- A call on a mounted session. -/
inductive SessionCall where
  | assign (change : Assigning Unit)
  | render (resolve : Resolver)

/-- Makes a call; a render gives a patch. -/
def SessionCall.run : SessionCall → SessionStep (Option Patch)
  | assign change => do
    Session.onAssigns change
    return none
  | render resolve => do return some (← Session.render resolve)

structure Live where
  session : Session
  journal : Journal
  client : Option Client
  /-- The components on show as the last render that counts left them. -/
  table : List Instance
  /-- Those of them that the render before had come to hold without leaving them on show. -/
  strays : List Nat

namespace Live

def reply (live : Live) (call : SessionCall) :
    (Except SessionError (Option Patch) × Session) × Journal :=
  (call.run.run.run live.session).run live.journal

/-- The components of a table that an earlier render holds, but did not leave on show. -/
def straysOf (shown : List Instance) (held table : List Instance) : List Nat :=
  (table.map Instance.cid).filter fun cid =>
    (held.any fun c => c.cid == cid) && !(shown.any fun c => c.cid == cid)

/-- The page after a call. -/
def after (live : Live) (call : SessionCall) : Live :=
  let ((result, session), journal) := live.reply call
  match result with
  | .ok (some patch) =>
    let table := session.nodes session.shown
    { session, journal, table
      client := Client.update live.client patch
      strays := straysOf live.table (session.nodes live.session.shown) table }
  | _ => { live with session, journal }

def succeeds (live : Live) (call : SessionCall) : Bool := (live.reply call).1.1.isOk

/-- The page after each call that succeeds. -/
def moments (live : Live) : List SessionCall → List Live
  | [] => []
  | call :: rest =>
    if live.succeeds call then live.after call :: moments (live.after call) rest
    else moments (live.after call) rest

/-- The page that a session is mounted on, if that succeeds. -/
def mounted? (template : Template) (label : String) (resolve : Resolver)
    (bindings : Record Value) (journal : Journal) : Option Live :=
  match ((Session.mount resolve bindings).run.run { template, label }).run journal with
  | ((.ok (_, patch), session), journal) =>
    some ⟨session, journal, Client.update none patch, session.nodes session.shown, []⟩
  | _ => none

/-- What the session gives as its page. -/
def page (live : Live) : Except SessionError String :=
  ((Session.html.run.run live.session).run live.journal).1.1

/-- The client shows the page of the session and has the components of its snapshot. -/
def InSync (live : Live) : Prop :=
  ∃ client snapshot, live.client = some client ∧ live.session.current = some snapshot ∧
    live.page = client.html.mapError (fun e => .render (.tree e)) ∧
    ∀ cid, cid ∈ client.cids ↔ cid ∈ snapshot.components.map Instance.cid

/-- No component was mounted into what is on show, and no component is on show that was mounted into
what was on show before. -/
def Undisturbed (live : Live) : Prop :=
  (live.session.nodes live.session.shown).map Instance.cid = live.table.map Instance.cid ∧
    live.strays = []

instance (live : Live) : Decidable live.Undisturbed :=
  inferInstanceAs (Decidable (_ ∧ _))

/-- The parts of all trees on show. -/
def parts (live : Live) : List Part :=
  ((live.session.shown.map fun shown => shown.root.parts).getD []) ++
    live.table.flatMap fun c => c.tree.parts

end Live

namespace Live

theorem reply_assign (live : Live) (change : Assigning Unit) :
    ∃ result assigns next, live.reply (.assign change) =
      ((result, { live.session with assigns }), next) ∧ ∀ patch, result ≠ .ok (some patch) := by
  obtain ⟨result, assigns, next, hrun⟩ :=
    Session.run_onAssigns change live.session live.journal
  rw [reply, SessionCall.run, run_bind, hrun]
  cases result with
  | ok u => exact ⟨.ok none, assigns, next, rfl, fun _ h => by cases h⟩
  | error e => exact ⟨.error e, assigns, next, rfl, fun _ h => by cases h⟩

/-- An assignment changes neither what is on show nor what the client holds. -/
theorem after_assign (live : Live) (change : Assigning Unit) :
    ∃ assigns journal, live.after (.assign change) =
      { live with session := { live.session with assigns }, journal } := by
  obtain ⟨result, assigns, next, hreply, hnone⟩ := live.reply_assign change
  refine ⟨assigns, next, ?_⟩
  rw [after, hreply]
  match result, hnone with
  | .error e, _ => rfl
  | .ok none, _ => rfl
  | .ok (some patch), hnone => exact absurd rfl (hnone patch)

def rendered (live : Live) (resolve : Resolver) :
    Except RenderError (Shown × Patch) × RenderState :=
  live.session.rendered resolve live.journal

theorem after_render_error {live : Live} {resolve : Resolver} {e : RenderError}
    {done : RenderState} (h : live.rendered resolve = (.error e, done)) :
    live.succeeds (.render resolve) = false ∧ ∃ journal, live.after (.render resolve) =
      { live with session := { live.session with mounts := done.mounts }, journal } := by
  obtain ⟨next, hrun⟩ := Session.run_render resolve live.session live.journal
  rw [← rendered, h] at hrun
  have hreply : live.reply (.render resolve) =
      ((.error (.render e), { live.session with mounts := done.mounts }), next) := by
    rw [reply, SessionCall.run, run_bind, hrun]
  rw [succeeds, after, hreply]
  exact ⟨rfl, next, rfl⟩

/-- The page after a render that counts. -/
def turned (live : Live) (shown : Shown) (patch : Patch) (done : RenderState)
    (journal : Journal) : Live :=
  let session := live.session.turned shown done
  let table := session.nodes session.shown
  { session, journal, table
    client := Client.update live.client patch
    strays := straysOf live.table (session.nodes live.session.shown) table }

theorem after_render_ok {live : Live} {resolve : Resolver} {shown : Shown} {patch : Patch}
    {done : RenderState} (h : live.rendered resolve = (.ok (shown, patch), done)) :
    live.succeeds (.render resolve) = true ∧
      ∃ journal, live.after (.render resolve) = live.turned shown patch done journal := by
  obtain ⟨next, hrun⟩ := Session.run_render resolve live.session live.journal
  rw [← rendered, h] at hrun
  have hreply : live.reply (.render resolve) =
      ((.ok (some patch), live.session.turned shown done), next) := by
    rw [reply, SessionCall.run, run_bind, hrun]
    rfl
  rw [succeeds, after, hreply]
  exact ⟨rfl, next, rfl⟩

end Live

end LiveTemplate
