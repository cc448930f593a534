import LiveTemplate.Proofs.Eval.Yields
import LiveTemplate.Proofs.Render.Keeping
import LiveTemplate.Proofs.Render.Soundness
import LiveTemplate.Proofs.Snapshot.Forest
import LiveTemplate.Proofs.Tree.Parts

/-!
Renders of a fragment where nothing has changed. A tree that came out of the fragment has a dynamic
for each of its plans; as long as the plans read no locals all of these are handed back, and all that
the render does is to keep what they refer to. Snapshots that differ in the order of their components
only, and in the identity of the root, have the same page, and there is nothing to send between them.
-/

namespace LiveTemplate

set_option autoImplicit false

namespace Tree

/-- A tree with an identity of its own. -/
def renewed (t : Tree) (i : Identity) : Tree := { t with id := i }

variable (t : Tree) (i : Identity)

theorem refs_renewed : (t.renewed i).refs = t.refs := by
  cases t
  rfl

theorem htmlWith_renewed (component : Nat → Except TreeError String) :
    (t.renewed i).htmlWith component = t.htmlWith component := by
  cases t
  rfl

/-- Dynamics that were handed back have not changed, whatever they hold. -/
theorem diff_renewed : Tree.diff (some t) (t.renewed i) none = .ok none := by
  have hfingerprint : (t.renewed i).fingerprint = t.fingerprint := rfl
  have hdynamics : (t.renewed i).dynamics = t.dynamics := rfl
  rw [diff_some, diffTo_eq, hfingerprint, hdynamics, if_neg (not_not.mpr rfl),
    if_neg (not_not.mpr rfl), Dynamic.diffAll_self]
  rfl

end Tree

namespace Snapshot

/-- The snapshot with its components in another order, and with a root of another identity. -/
def rearranged (s : Snapshot) (i : Identity) (components : List Instance) : Snapshot :=
  ⟨s.root.renewed i, components⟩

section Rearranged
variable {s : Snapshot} {components : List Instance} (hperm : components.Perm s.components)
  (i : Identity)
include hperm

theorem contains_rearranged (cid : Nat) :
    (s.rearranged i components).contains cid = s.contains cid := by
  rw [Bool.eq_iff_iff, contains_iff, contains_iff]
  exact exists_congr fun c => and_congr_left fun _ => hperm.mem_iff

theorem closed_rearranged (h : s.Closed) : (s.rearranged i components).Closed := by
  have hrefs : (s.rearranged i components).refs.Perm s.refs := by
    rw [refs, refs, rearranged, Tree.refs_renewed]
    exact (hperm.flatMap_right fun c => c.tree.refs).append_left s.root.refs
  intro cid hcid
  rw [contains_rearranged hperm]
  exact h cid (hrefs.subset hcid)

variable (hn : s.Numbered)
include hn

theorem find?_rearranged (cid : Nat) : (s.rearranged i components).find? cid = s.find? cid := by
  have hn' : (s.rearranged i components).Numbered := (hperm.map Instance.cid).nodup_iff.mpr hn
  refine Option.ext fun c => ?_
  rw [find?_eq_some_iff hn, find?_eq_some_iff hn']
  exact and_congr_left fun _ => hperm.mem_iff

theorem html_rearranged : (s.rearranged i components).html = s.html := by
  have htable : (s.rearranged i components).table = s.table :=
    funext fun cid => congrArg (Option.map Instance.tree) (find?_rearranged hperm i hn cid)
  have hlength : (s.rearranged i components).components.length = s.components.length :=
    hperm.length_eq
  rw [html_eq, html_eq, htable, hlength, rearranged, Tree.htmlWith_renewed]

/-- Nothing is to be sent. -/
theorem diff_rearranged (hclosed : s.Closed) :
    diff (some s) (s.rearranged i components) = .ok ⟨none, []⟩ := by
  have hinstance : ∀ c ∈ (s.rearranged i components).components,
      diffInstance (some s) c = .ok none := by
    intro c hc
    rw [diffInstance, Option.bind_some, (find?_eq_some_iff hn).mpr ⟨hperm.subset hc, rfl⟩,
      Option.map_some, Tree.diff_some, Tree.diffTo_self]
    rfl
  have hremoved : removed (some s) (s.rearranged i components) = [] := by
    refine List.eq_nil_iff_forall_not_mem.mpr fun cid hcid => ?_
    rw [mem_removed, contains_rearranged hperm] at hcid
    rw [hcid.1] at hcid
    exact Bool.false_ne_true hcid.2.symm
  have hnone : (components.map fun _ => (none : Option (Nat × Option TreePatch))).filterMap id =
      [] := by
    rw [List.filterMap_map, List.filterMap_eq_nil_iff]
    exact fun _ _ => rfl
  have hroot : Tree.diff (some s.root) (s.rearranged i components).root none = .ok none :=
    s.root.diff_renewed i
  rw [diff, checkRefs_eq_ok.mpr (closed_rearranged hperm i hclosed), Option.map_some, hroot,
    mapM_eq_ok hinstance, hremoved]
  change Except.ok (Patch.mk none ((components.map fun _ => none).filterMap id ++ [])) = _
  rw [hnone]
  rfl

end Rearranged

end Snapshot

/-- A tree of the shape of a fragment. -/
structure Tree.OfFragment (t : Tree) (f : Fragment) : Prop where
  statics : t.statics = f.statics
  fingerprint : t.fingerprint = f.fingerprint
  root : t.root = f.root
  length : t.dynamics.length = f.plans.length
  fits : t.statics.length = t.dynamics.length + 1

section Shape
variable (around : Surroundings) (frame : Frame)

theorem yields_length (plans : List Plan) (index : Nat) (previous : List Dynamic) :
    Yields (fun _ => True) (fun dynamics => dynamics.length = plans.length)
      (Plan.renderAll around frame index previous plans) := by
  induction plans generalizing index previous with
  | nil =>
    rw [Plan.renderAll]
    exact .pure rfl
  | cons plan rest ih =>
    rw [Plan.renderAll]
    have hrest : ∀ d : Dynamic, Yields (fun _ : RenderState => True)
        (fun dynamics => dynamics.length = (plan :: rest).length) (do
          let dynamics ← Plan.renderAll around frame (index + 1) previous.tail rest
          return d :: dynamics) :=
      fun d => (ih (index + 1) previous.tail).bind fun dynamics hlength =>
        .pure (congrArg (· + 1) hlength)
    cases reusable? frame plan.reads previous.head? with
    | some before =>
      exact (Yields.unseen _).bind fun _ _ => (Yields.unseen _).bind fun _ _ => hrest before
    | none => exact (Yields.unseen _).bind fun d _ => hrest d

theorem yields_ofFragment (fragment : Fragment) (previous : Option Tree) :
    Yields (fun _ => True) (fun t => t.OfFragment fragment)
      (fragment.render around frame previous) := by
  obtain ⟨statics, plans, fingerprint, root, reads⟩ := fragment
  rw [Fragment.render]
  refine (yields_length around frame plans 0 _).bind fun dynamics hlength => ?_
  refine (Yields.unseen _).bind fun id _ => ?_
  intro s _
  refine ⟨?_, trivial⟩
  rw [Tree.create]
  split
  · rename_i hfits
    exact ⟨rfl, rfl, rfl, hlength, hfits⟩
  · trivial

end Shape

theorem Reads.isAffected_nil {reads : Reads} (h : reads.locals = []) :
    reads.isAffected (some []) = false := by
  have hkeys : (reads.keys.any fun r => ChangedSet.reaches (some []) r.key r.path) = false := by
    rw [List.any_eq_false]
    intro r _
    rw [ChangedSet.reaches, Assoc.get?_nil, Mark.reaches]
    exact Bool.false_ne_true
  rw [Reads.isAffected, h, hkeys]
  cases reads.all <;> rfl

section Unchanged
variable (around : Surroundings) {frame : Frame} (hchanged : frame.changed = some [])
include hchanged

theorem reusable?_of_unchanged {reads : Reads} (h : reads.locals = [])
    (previous : Option Dynamic) : reusable? frame reads previous = previous := by
  rw [reusable?, hchanged, Reads.isAffected_nil h]
  rfl

/-- All dynamics are handed back if what they refer to can be kept. -/
theorem run_renderAll_unchanged {plans : List Plan} (hlocals : ∀ p ∈ plans, p.reads.locals = [])
    {dynamics : List Dynamic} (hlength : dynamics.length = plans.length) (index : Nat) (m : Mounts)
    (journal : Journal) :
    ∃ last, (Plan.renderAll around frame index dynamics plans).run.run ⟨m, journal⟩ =
      match (dynamics.forM (Mounts.retain frame.render)).run.run m with
      | (.ok _, n) => (.ok dynamics, ⟨n, last⟩)
      | (.error e, n) => (.error (.tree e), ⟨n, last⟩) := by
  induction plans generalizing dynamics index m journal with
  | nil =>
    obtain rfl := List.length_eq_zero_iff.mp hlength
    rw [Plan.renderAll]
    exact ⟨journal, rfl⟩
  | cons plan rest ih =>
    obtain _ | ⟨d, dynamics⟩ := dynamics
    · cases hlength
    rw [List.forall_mem_cons] at hlocals
    rw [Plan.renderAll, List.head?_cons, reusable?_of_unchanged hchanged hlocals.1]
    have hforM : ((d :: dynamics).forM (Mounts.retain frame.render)).run.run m =
        (Mounts.retain frame.render d >>= fun _ =>
          dynamics.forM (Mounts.retain frame.render)).run.run m := rfl
    have hrun : (Render.ofMounting (Mounts.retain frame.render d)).run.run ⟨m, journal⟩ =
        (((Mounts.retain frame.render d).run.run m).1.mapError .tree,
          ⟨((Mounts.retain frame.render d).run.run m).2, journal⟩) := rfl
    rw [hforM, Sound.run_bind]
    dsimp only
    rw [Sound.run_bind, hrun]
    cases (Mounts.retain frame.render d).run.run m with
    | mk result n =>
      cases result with
      | error e => exact ⟨journal, rfl⟩
      | ok _ =>
        let skipped : Journal :=
          { journal with log := .skip (frame.position ++ "/" ++ toString index) plan.kind ::
              journal.log }
        obtain ⟨last, hrest⟩ := ih hlocals.2 (Nat.succ.inj hlength) (index + 1) n skipped
        refine ⟨last, ?_⟩
        have hemit : ∀ f : Unit → Render (List Dynamic),
            (Render.emit (.skip (frame.position ++ "/" ++ toString index) plan.kind) >>= f).run.run
              ⟨n, journal⟩ = (f ()).run.run ⟨n, skipped⟩ := fun _ => rfl
        dsimp only [Except.mapError]
        rw [hemit, pure_bind, Sound.run_bind, List.tail_cons, hrest]
        cases (dynamics.forM (Mounts.retain frame.render)).run.run n with
        | mk result m => cases result <;> rfl

/-- The tree is as it was, with an identity of its own, if what it refers to can be kept. -/
theorem run_fragment_unchanged {fragment : Fragment} {tree : Tree} (htree : tree.OfFragment fragment)
    (hlocals : ∀ p ∈ fragment.plans, p.reads.locals = []) (m : Mounts) (journal : Journal) :
    ∃ last, (fragment.render around frame (some tree)).run.run ⟨m, journal⟩ =
      match (tree.dynamics.forM (Mounts.retain frame.render)).run.run m with
      | (.ok _, n) =>
        (.ok (tree.renewed n.nextPart), ⟨{ n with nextPart := n.nextPart + 1 }, last⟩)
      | (.error e, n) => (.error (.tree e), ⟨n, last⟩) := by
  obtain ⟨statics, plans, fingerprint, root, reads⟩ := fragment
  obtain ⟨id, _, dynamics, _, _⟩ := tree
  obtain ⟨rfl, rfl, rfl, hlength, hfits⟩ := htree
  dsimp only at hlocals hlength hfits ⊢
  rw [Fragment.render, earlierDynamics, if_pos rfl, Sound.run_bind]
  obtain ⟨last, hrun⟩ := run_renderAll_unchanged around hchanged hlocals hlength 0 m journal
  refine ⟨last, ?_⟩
  rw [hrun]
  cases (dynamics.forM (Mounts.retain frame.render)).run.run m with
  | mk result n =>
    cases result with
    | error e => rfl
    | ok _ =>
      have hpart : ∀ f : Identity → Render Tree, (Render.newPart >>= f).run.run ⟨n, last⟩ =
          (f n.nextPart).run.run ⟨{ n with nextPart := n.nextPart + 1 }, last⟩ := fun _ => rfl
      dsimp only
      rw [hpart, Tree.create, if_pos hfits]
      rfl

end Unchanged

end LiveTemplate
