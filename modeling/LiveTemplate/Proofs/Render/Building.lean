import LiveTemplate.Proofs.Render.Soundness
import LiveTemplate.Proofs.Snapshot.Forest

/-!
What a render builds in a table. Each component that it mounts is reported, and each that it keeps is
noted; so it can be told by counting whether it has put all of them into one table. If it has, they
form a forest there, on whose tops the outcome of the render is.
-/

namespace LiveTemplate

set_option autoImplicit false

def Event.isMount : Event → Bool
  | .mount _ _ _ => true
  | _ => false

/-- How many mounts were reported. -/
def Journal.mounts (journal : Journal) : Nat := journal.log.countP Event.isMount

namespace RenderState

/-- The mounts that were reported, less those that are found in a table. -/
def missing (render : Nat) (s : RenderState) : Int :=
  (s.journal.mounts : Int) + (s.mounts.arena render).retained.length -
    (s.mounts.arena render).nodes.length

/-- All that was mounted and kept on the way went to one table. -/
structure Apart (render : Nat) (s t : RenderState) : Prop where
  elsewhere : ∀ other, other ≠ render →
    (t.mounts.arena other).nodes.length = (s.mounts.arena other).nodes.length
  missing : t.missing render = s.missing render

/-- What was built on the way from one state to another: if it all went to one table, it is a forest
under the given numbers. -/
structure Builds (render : Nat) (s t : RenderState) (refs : List Nat) : Prop where
  begun : render < t.mounts.renders.length
  elsewhere : ∀ other, other ≠ render →
    (s.mounts.arena other).nodes.length ≤ (t.mounts.arena other).nodes.length
  missing : s.missing render ≤ t.missing render
  forest : Apart render s t → ∃ new arranged,
    (t.mounts.arena render).nodes = (s.mounts.arena render).nodes ++ new ∧
      arranged.Perm new ∧ Forest refs arranged

/-- Nothing was mounted, and nothing kept. -/
structure Still (s t : RenderState) : Prop where
  renders : t.mounts.renders.length = s.mounts.renders.length
  nodes : ∀ other, (t.mounts.arena other).nodes = (s.mounts.arena other).nodes
  retained : ∀ other, (t.mounts.arena other).retained = (s.mounts.arena other).retained
  reported : t.journal.mounts = s.journal.mounts

variable {render : Nat} {q s t : RenderState} {refs more : List Nat}

theorem Builds.refl (h : render < s.mounts.renders.length) : Builds render s s [] where
  begun := h
  elsewhere _ _ := Nat.le_refl _
  missing := Int.le_refl _
  forest _ := ⟨[], [], (List.append_nil _).symm, .nil, .nil⟩

theorem Builds.trans (h : Builds render q s refs) (h' : Builds render s t more) :
    Builds render q t (refs ++ more) where
  begun := h'.begun
  elsewhere other hother := Nat.le_trans (h.elsewhere other hother) (h'.elsewhere other hother)
  missing := Int.le_trans h.missing h'.missing
  forest hapart := by
    -- neither way can have put anything elsewhere, since the other takes nothing back
    have hfirst : Apart render q s := ⟨fun other hother => by
        have := hapart.elsewhere other hother
        have := h.elsewhere other hother
        have := h'.elsewhere other hother
        omega, by
        have := hapart.missing
        have := h.missing
        have := h'.missing
        omega⟩
    have hsecond : Apart render s t := ⟨fun other hother =>
        (hapart.elsewhere other hother).trans (hfirst.elsewhere other hother).symm,
      hapart.missing.trans hfirst.missing.symm⟩
    obtain ⟨new, arranged, hnew, hperm, hforest⟩ := h.forest hfirst
    obtain ⟨new', arranged', hnew', hperm', hforest'⟩ := h'.forest hsecond
    exact ⟨new ++ new', arranged ++ arranged', by rw [hnew', hnew, List.append_assoc],
      hperm.append hperm', hforest.append hforest'⟩

theorem Still.missing (h : Still s t) (render : Nat) : t.missing render = s.missing render := by
  rw [RenderState.missing, RenderState.missing, h.reported, h.retained, h.nodes]

theorem Builds.still (h : Builds render q s refs) (hst : Still s t) : Builds render q t refs where
  begun := hst.renders ▸ h.begun
  elsewhere other hother := hst.nodes other ▸ h.elsewhere other hother
  missing := hst.missing render ▸ h.missing
  forest hapart := by
    rw [hst.nodes]
    exact h.forest ⟨fun other hother => hst.nodes other ▸ hapart.elsewhere other hother,
      hst.missing render ▸ hapart.missing⟩

end RenderState

open RenderState (Builds Still)

/-! ### Steps that build -/

/-- A step that succeeds has built on what was built before. -/
def Building {α : Type} (render : Nat) (before : List Nat) (x : Render α)
    (after : α → List Nat) : Prop :=
  ∀ (q s : RenderState) (a : α) (t : RenderState), Builds render q s before →
    x.run.run s = (.ok a, t) → Builds render q t (after a)

namespace Building

variable {α β : Type} {render : Nat} {before : List Nat} {x : Render α} {f : α → Render β}
  {between : α → List Nat} {after : β → List Nat}

theorem still (hx : ∀ s a t, x.run.run s = (.ok a, t) → Still s t) :
    Building render before x fun _ => before :=
  fun _ s a t hs hrun => hs.still (hx s a t hrun)

theorem pure {after : α → List Nat} {a : α} (h : before = after a) :
    Building render before (Pure.pure a) after := by
  intro q s b t hs hrun
  cases hrun
  exact h ▸ hs

theorem throw (e : RenderError) (after : α → List Nat) :
    Building render before (MonadExcept.throw e : Render α) after :=
  fun _ _ _ _ _ hrun => by cases hrun

theorem bind (hx : Building render before x between)
    (hf : ∀ a, Building render (between a) (f a) after) : Building render before (x >>= f) after := by
  intro q s b t hs hrun
  rw [Sound.run_bind] at hrun
  cases hx' : x.run.run s with
  | mk result u =>
    rw [hx'] at hrun
    cases result with
    | error e => cases hrun
    | ok a => exact hf a q u b t (hx q s a u hs hx') hrun

theorem map {k : α → β} (hx : Building render before x fun a => after (k a)) :
    Building render before (k <$> x) after := by
  rw [← bind_pure_comp]
  exact hx.bind fun a => pure rfl

/-- What was built before stays beside what a step builds. -/
theorem beside (hx : Building render [] x between) :
    Building render before x fun a => before ++ between a :=
  fun _ s a t hs hrun => hs.trans (hx s s a t (.refl hs.begun) hrun)

theorem mapM {refs : β → List Nat} {f : α → Render β} (hf : ∀ a, Building render [] (f a) refs)
    (xs : List α) : Building render [] (xs.mapM f) fun ys => ys.flatMap refs := by
  induction xs with
  | nil => exact pure rfl
  | cons a rest ih =>
    rw [List.mapM_cons]
    refine (hf a).bind fun b => ?_
    have hrest : Building render (refs b) (rest.mapM f) fun ys => refs b ++ ys.flatMap refs :=
      ih.beside
    exact hrest.bind fun ys => pure List.flatMap_cons.symm

end Building

section Steps
variable {render : Nat} {before : List Nat}

theorem still_of_log {s t : RenderState} (hmounts : t.mounts = s.mounts)
    (hreported : t.journal.mounts = s.journal.mounts) : Still s t :=
  ⟨by rw [hmounts], fun _ => by rw [hmounts], fun _ => by rw [hmounts], hreported⟩

theorem building_ofEval {α : Type} (x : Eval α) :
    Building render before (Render.ofEval x) fun _ => before := by
  refine Building.still fun s a t hrun => ?_
  have ht := congrArg Prod.snd hrun
  exact still_of_log (congrArg RenderState.mounts ht).symm
    (congrArg (fun u : RenderState => u.journal.mounts) ht).symm

theorem building_fail {α : Type} (cause : EvalCause) (span : Span) (after : α → List Nat) :
    Building render before (Render.ofEval (Eval.fail cause span)) after :=
  fun _ _ _ _ _ hrun => by cases congrArg Prod.fst hrun

theorem building_value (frame : Frame) (e : Expr) :
    Building render before (Render.value frame e) fun _ => before := building_ofEval _

theorem building_newId : Building render before Render.newId fun _ => before := building_ofEval _

theorem building_emit {event : Event} (h : event.isMount = false) :
    Building render before (Render.emit event) fun _ => before := by
  refine Building.still fun s a t hrun => ?_
  obtain rfl := congrArg Prod.snd hrun
  refine still_of_log rfl ?_
  change (event :: s.journal.log).countP Event.isMount = _
  rw [List.countP_cons_of_neg (by rw [h]; exact Bool.false_ne_true)]
  rfl

theorem building_ofTree {α : Type} {x : Except TreeError α} {after : α → List Nat}
    (h : ∀ a, x = .ok a → before = after a) :
    Building render before (Render.ofTree x) after := by
  cases x with
  | error e => exact Building.throw _ after
  | ok a => exact Building.pure (h a rfl)

theorem building_newPart : Building render before Render.newPart fun _ => before := by
  refine Building.still fun s a t hrun => ?_
  obtain rfl := congrArg Prod.snd hrun
  exact ⟨rfl, fun _ => rfl, fun _ => rfl, rfl⟩

theorem building_newDynamic (content : Content) :
    Building render content.refs (Render.newDynamic content) Dynamic.refs :=
  building_newPart.bind fun id => Building.pure (by rw [Dynamic.refs])

theorem building_placing {α : Type} {x : Render α} {after : α → List Nat} (source : Source)
    (hx : Building render before x after) :
    Building render before (Render.placing source x) after := by
  intro q s a t hs hrun
  rcases run_placing source x s with ⟨e, e', s', -, hplaced⟩ | hplaced
  · rw [hplaced] at hrun
    cases hrun
  · rw [hplaced] at hrun
    exact hx q s a t hs hrun

/-- To open a mount adds nothing to a table yet. -/
theorem building_enter (other : Nat) (key : String) :
    Building render before (Render.ofMounting (Mounts.enter other key)) fun _ => before := by
  have hnoted : ∀ (m n : Mounts) (journal : Journal) (cid : Nat),
      n.renders = (m.update other fun a => a.note key cid).renders →
        Still ⟨m, journal⟩ ⟨n, journal⟩ := by
    intro m n journal cid hn
    have harena : ∀ k, n.arena k = (m.update other fun a => a.note key cid).arena k := by
      intro k
      rw [Mounts.arena, Mounts.arena, hn]
    let note (a : Arena) : Arena := a.note key cid
    have hnodes : ∀ k, ((m.update other note).arena k).nodes = (m.arena k).nodes :=
      Scene.field_update (f := note) (fun _ => rfl) m other
    have hretained : ∀ k, ((m.update other note).arena k).retained = (m.arena k).retained :=
      Scene.field_update (f := note) (fun _ => rfl) m other
    refine ⟨?_, fun k => ?_, fun k => ?_, rfl⟩
    · change n.renders.length = m.renders.length
      rw [hn, Mounts.update, List.length_modify]
    · change (n.arena k).nodes = (m.arena k).nodes
      rw [harena]
      exact hnodes k
    · change (n.arena k).retained = (m.arena k).retained
      rw [harena]
      exact hretained k
  refine Building.still fun s a t hrun => ?_
  obtain ⟨m, journal⟩ := s
  have ht := congrArg Prod.snd hrun
  change (⟨((Mounts.enter other key).run.run m).2, journal⟩ : RenderState) = t at ht
  have hok := congrArg Prod.fst hrun
  change ((Mounts.enter other key).run.run m).1.mapError RenderError.tree = .ok a at hok
  subst ht
  rw [run_enter] at hok ⊢
  split at hok
  · cases hok
  · rename_i hnew
    rw [if_neg hnew]
    split
    · exact hnoted m _ journal _ rfl
    · exact hnoted m _ journal _ rfl

end Steps

/-! ### Keeping -/

/-- Steps that succeed only if they keep the components of given numbers, each with what it refers
to. -/
def Keeping (render : Nat) (x : Mounting PUnit) (refs : List Nat) : Prop :=
  ∀ (m n : Mounts) (journal : Journal), render < m.renders.length →
    x.run.run m = (.ok ⟨⟩, n) → Builds render ⟨m, journal⟩ ⟨n, journal⟩ refs

/-- A component came to a table, either reported or noted as kept. -/
structure Adds (other : Nat) (node : Instance) (s t : RenderState) : Prop where
  renders : t.mounts.renders.length = s.mounts.renders.length
  nodes : (t.mounts.arena other).nodes = (s.mounts.arena other).nodes ++ [node]
  counted : t.journal.mounts + (t.mounts.arena other).retained.length =
    s.journal.mounts + (s.mounts.arena other).retained.length + 1
  reported : s.journal.mounts ≤ t.journal.mounts
  elsewhere : ∀ k, k ≠ other → t.mounts.arena k = s.mounts.arena k

namespace Adds

variable {other render : Nat} {node : Instance} {s t : RenderState} (h : Adds other node s t)
include h

theorem length : (t.mounts.arena other).nodes.length = (s.mounts.arena other).nodes.length + 1 := by
  rw [h.nodes, List.length_append, List.length_singleton]

theorem length_le (k : Nat) :
    (s.mounts.arena k).nodes.length ≤ (t.mounts.arena k).nodes.length := by
  by_cases hk : k = other
  · rw [hk, h.length]
    exact Nat.le_succ _
  · exact Nat.le_of_eq (by rw [h.elsewhere k hk])

theorem missing : t.missing other = s.missing other := by
  have := h.counted
  rw [RenderState.missing, RenderState.missing, h.length]
  omega

theorem missing_le (render : Nat) : s.missing render ≤ t.missing render := by
  by_cases hr : render = other
  · exact Int.le_of_eq (by rw [hr, h.missing])
  · have := h.reported
    rw [RenderState.missing, RenderState.missing, h.elsewhere render hr]
    omega

end Adds

theorem adds_of_update {other : Nat} {node : Instance} {s : RenderState} {f : Arena → Arena}
    {journal : Journal} (hother : other < s.mounts.renders.length)
    (hnodes : (f (s.mounts.arena other)).nodes = (s.mounts.arena other).nodes ++ [node])
    (hcounted : journal.mounts + (f (s.mounts.arena other)).retained.length =
      s.journal.mounts + (s.mounts.arena other).retained.length + 1)
    (hreported : s.journal.mounts ≤ journal.mounts) :
    Adds other node s ⟨s.mounts.update other f, journal⟩ := by
  have harena : (s.mounts.update other f).arena other = f (s.mounts.arena other) := by
    rw [Scene.arena_update, if_pos ⟨rfl, hother⟩]
  refine ⟨List.length_modify _ _ _, (congrArg Arena.nodes harena).trans hnodes, ?_, hreported,
    fun k hk => ?_⟩
  · change journal.mounts + ((s.mounts.update other f).arena other).retained.length = _
    rw [harena, hcounted]
  · change (s.mounts.update other f).arena k = _
    rw [Scene.arena_update, if_neg fun h => hk h.1]

theorem adds_keep {m : Mounts} {other : Nat} (hother : other < m.renders.length) (node : Instance)
    (journal : Journal) :
    Adds other node ⟨m, journal⟩ ⟨m.update other fun a => a.keep node, journal⟩ :=
  adds_of_update hother rfl
    (congrArg (journal.mounts + ·) (@List.length_append Nat _ [node.cid])) (Nat.le_refl _)

/-- A component that is kept stands before all that is kept for it. -/
theorem builds_keep {render other : Nat} {node : Instance} {s u t : RenderState}
    (hadds : Adds other node s u) (h : Builds render u t node.tree.refs) :
    Builds render s t [node.cid] := by
  refine ⟨h.begun, fun k hk => Nat.le_trans (hadds.length_le k) (h.elsewhere k hk),
    Int.le_trans (hadds.missing_le render) h.missing, fun hapart => ?_⟩
  by_cases hr : render = other
  · subst hr
    have hrest : RenderState.Apart render u t :=
      ⟨fun k hk => by rw [hadds.elsewhere k hk]; exact hapart.elsewhere k hk,
        hapart.missing.trans hadds.missing.symm⟩
    obtain ⟨new, arranged, hnew, hperm, hforest⟩ := h.forest hrest
    refine ⟨node :: new, node :: arranged, ?_, hperm.cons node, hforest.single⟩
    rw [hnew, hadds.nodes, List.append_assoc]
    rfl
  · have hthere := hapart.elsewhere other fun he => hr he.symm
    have hmore := h.elsewhere other fun he => hr he.symm
    have := hadds.length
    omega

theorem keeping_forM {render : Nat} {f : Nat → Mounting PUnit}
    (hf : ∀ cid, Keeping render (f cid) [cid]) (cids : List Nat) :
    Keeping render (cids.forM f) cids := by
  induction cids with
  | nil =>
    intro m n journal hr hrun
    cases hrun
    exact .refl hr
  | cons cid rest ih =>
    intro m n journal hr hrun
    change (f cid >>= fun _ => rest.forM f).run.run m = _ at hrun
    rw [Sound.run_bind] at hrun
    cases hfirst : (f cid).run.run m with
    | mk result u =>
      rw [hfirst] at hrun
      cases result with
      | error e => cases hrun
      | ok _ =>
        have h := hf cid m u journal hr hfirst
        exact h.trans (ih u n journal h.begun hrun)

theorem keeping_retainComponent (render other depth cid : Nat) :
    Keeping render (Mounts.retainComponent other depth cid) [cid] := by
  induction depth generalizing cid with
  | zero =>
    intro m n journal hr hrun
    cases hrun
  | succ depth ih =>
    intro m n journal hr hrun
    have hget : (get : Mounting Mounts).run.run m = (.ok m, m) := rfl
    rw [Mounts.retainComponent, Sound.run_bind, hget] at hrun
    cases hbefore : m.before? other cid with
    | none =>
      simp only [hbefore] at hrun
      cases hrun
    | some node =>
      obtain ⟨earlier, hprevious, -, rfl⟩ := before?_spec hbefore
      have hother : other < m.renders.length := by
        by_contra hnone
        rw [Scene.arena_of_length_le (Nat.le_of_not_lt hnone)] at hprevious
        cases hprevious
      by_cases hmounted : ((m.arena other).find? node.cid).isSome ||
          Assoc.contains (m.arena other).mounted node.key
      · simp only [hbefore, hmounted, if_true] at hrun
        cases hrun
      · simp only [hbefore, hmounted, Bool.false_eq_true, if_false] at hrun
        have hlength : render < (m.update other fun a => a.keep node).renders.length := by
          rw [Mounts.update, List.length_modify]
          exact hr
        exact builds_keep (adds_keep hother node journal)
          (keeping_forM ih node.tree.refs _ n journal hlength hrun)

theorem building_retain (render other : Nat) (dynamic : Dynamic) :
    Building render [] (Render.ofMounting (Mounts.retain other dynamic)) fun _ => dynamic.refs := by
  intro q s a t hs hrun
  obtain ⟨m, journal⟩ := s
  have ht := congrArg Prod.snd hrun
  change (⟨((Mounts.retain other dynamic).run.run m).2, journal⟩ : RenderState) = t at ht
  have hok := congrArg Prod.fst hrun
  change ((Mounts.retain other dynamic).run.run m).1.mapError RenderError.tree = .ok a at hok
  cases hretain : (Mounts.retain other dynamic).run.run m with
  | mk result n =>
    rw [hretain] at ht hok
    subst ht
    cases result with
    | error e => cases hok
    | ok u =>
      have hget : (get : Mounting Mounts).run.run m = (.ok m, m) := rfl
      rw [Mounts.retain, Sound.run_bind, hget] at hretain
      exact hs.trans (keeping_forM (fun cid => keeping_retainComponent render other _ cid)
        dynamic.refs m n journal hs.begun hretain)

/-! ### Mounting -/

theorem leave_retained (a : Arena) (cid : Nat) (key : String) (before : Option Instance)
    (tree : Tree) (assigns : Record Value) (owner : Option SlotOwner) :
    (a.leave cid key before tree assigns owner).retained = a.retained := by
  cases owner <;> rfl

/-- A component that is mounted stands under what has come to hang on it. -/
theorem builds_mount {render other : Nat} {node : Instance} {q s t : RenderState}
    (h : Builds render q s node.tree.refs) (hadds : Adds other node s t) :
    Builds render q t [node.cid] := by
  refine ⟨hadds.renders ▸ h.begun,
    fun k hk => Nat.le_trans (h.elsewhere k hk) (hadds.length_le k),
    Int.le_trans h.missing (hadds.missing_le render), fun hapart => ?_⟩
  by_cases hr : render = other
  · subst hr
    have hfirst : RenderState.Apart render q s :=
      ⟨fun k hk => by rw [← hadds.elsewhere k hk]; exact hapart.elsewhere k hk,
        hadds.missing.symm.trans hapart.missing⟩
    obtain ⟨new, arranged, hnew, hperm, hforest⟩ := h.forest hfirst
    refine ⟨new ++ [node], node :: arranged, ?_, ?_, hforest.single⟩
    · rw [hadds.nodes, hnew, List.append_assoc]
    · exact (hperm.cons node).trans (List.perm_append_singleton node new).symm
  · have hthere := hapart.elsewhere other fun he => hr he.symm
    have hmore := h.elsewhere other fun he => hr he.symm
    have := hadds.length
    omega

/-- A mount into a render that has not begun is reported, but found nowhere. -/
theorem builds_nowhere {render : Nat} {q s t : RenderState} {refs : List Nat}
    (h : Builds render q s refs) (hrenders : t.mounts.renders.length = s.mounts.renders.length)
    (harenas : ∀ k, t.mounts.arena k = s.mounts.arena k)
    (hreported : t.journal.mounts = s.journal.mounts + 1) (more : List Nat) :
    Builds render q t more := by
  have hmissing : t.missing render = s.missing render + 1 := by
    rw [RenderState.missing, RenderState.missing, hreported, harenas]
    omega
  have hbefore := h.missing
  refine ⟨hrenders ▸ h.begun, fun k hk => harenas k ▸ h.elsewhere k hk, by omega, fun hapart => ?_⟩
  have := hapart.missing
  omega

/-- To leave a mount is to put its component into a table and to report it. -/
theorem building_leave {render other cid : Nat} {key : String} {before : Option Instance}
    {tree : Tree} {assigns : Record Value} {owner : Option SlotOwner} {fresh : Bool} :
    Building render tree.refs (do
      modify fun s : RenderState => { s with
        mounts := s.mounts.update other fun a => a.leave cid key before tree assigns owner }
      Render.emit (.mount cid key fresh)
      return .component cid) Content.refs := by
  intro q s c t hs hrun
  have hc : Content.component cid = c := by
    cases congrArg Prod.fst hrun
    rfl
  obtain rfl := congrArg Prod.snd hrun
  subst hc
  rw [Content.refs]
  have hreported : Journal.mounts { s.journal with log := .mount cid key fresh :: s.journal.log } =
      s.journal.mounts + 1 := List.countP_cons_of_pos rfl
  by_cases hother : other < s.mounts.renders.length
  · let node : Instance := ⟨cid, key, tree, assigns, (s.mounts.arena other).childrenOf cid before⟩
    have hadds : Adds other node s ⟨s.mounts.update other fun a =>
        a.leave cid key before tree assigns owner,
        { s.journal with log := .mount cid key fresh :: s.journal.log }⟩ := by
      refine adds_of_update hother ?_ ?_ ?_
      · exact leave_nodes _ cid key before tree assigns owner
      · rw [leave_retained, hreported, Nat.add_right_comm]
      · exact hreported ▸ Nat.le_succ _
    exact builds_mount hs hadds
  · refine builds_nowhere hs (List.length_modify _ _ _) (fun k => ?_) hreported [cid]
    change (s.mounts.update other _).arena k = _
    rw [Scene.arena_update, if_neg fun h => hother h.2]

end LiveTemplate
