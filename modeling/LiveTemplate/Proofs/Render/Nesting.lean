import LiveTemplate.Proofs.Render.Building

/-!
A render builds what its tree refers to: the components that it mounts, and those that it keeps for
what it reuses.
-/

namespace LiveTemplate

set_option autoImplicit false

theorem Row.allRefs_eq (rows : List Row) : Row.allRefs rows = rows.flatMap Row.refs := by
  induction rows with
  | nil => rfl
  | cons r rest ih => rw [Row.allRefs, ih, List.flatMap_cons]

def Surroundings.Building (render : Nat) (around : Surroundings) : Prop :=
  ∀ (fragment : Fragment) (frame : Frame) (previous : Option Tree),
    LiveTemplate.Building render [] (around.render fragment frame previous) Tree.refs

section Renders
variable {render : Nat}

theorem building_text {x : Render String} (hx : Building render [] x fun _ => []) :
    Building render [] (.text <$> x) Content.refs := Building.map hx

variable {around : Surroundings} (hs : around.Building render)
include hs

theorem building_entry (host : Frame) (span : Span) (argument : Value) (index : Nat)
    (previous : Option Tree) (entry : Entry) :
    Building render [] (entry.render around host span argument index previous) Tree.refs := by
  rw [Entry.render]
  cases entry.content with
  | none => exact building_fail _ span _
  | some block =>
    dsimp only
    cases block.pattern with
    | none => exact hs block.body _ previous
    | some p => exact (building_ofEval _).bind fun locals => hs block.body _ previous

theorem building_entries (host : Frame) (span : Span) (argument : Value) (entries : List Entry)
    (index : Nat) (previous : List Tree) :
    Building render [] (Entry.renderAll around host span argument index previous entries)
      Tree.allRefs := by
  induction entries generalizing index previous with
  | nil => exact Building.pure rfl
  | cons entry rest ih =>
    rw [Entry.renderAll]
    refine (building_entry hs host span argument index previous.head? entry).bind fun tree => ?_
    exact (ih (index + 1) previous.tail).beside.bind fun trees => Building.pure rfl

theorem building_fill (frame : Frame) (span : Span) (previous : Option Dynamic)
    (entries : List Entry) (argument : Value) :
    Building render [] (Entry.fill around frame span previous entries argument) Content.refs := by
  rcases entries with _ | ⟨entry, _ | ⟨second, rest⟩⟩
  · exact Building.pure rfl
  · exact Building.map (building_entry hs frame span argument 0 (earlierTree previous) entry)
  · exact Building.map (building_entries hs frame span argument (entry :: second :: rest) 0
      (earlierTrees previous))

theorem building_slot (frame : Frame) (slot : Expr) (argument : Option Expr) (span : Span)
    (previous : Option Dynamic) :
    Building render [] (renderSlot around frame slot argument span previous) Content.refs := by
  rw [renderSlot]
  refine (building_value frame slot).bind fun v => (building_ofEval _).bind fun entries => ?_
  cases argument with
  | none => exact building_fill hs frame span previous entries .undefined
  | some e =>
    exact (building_value frame e).bind fun a => building_fill hs frame span previous entries a

theorem building_component (frame : Frame) (plan : ComponentPlan) :
    Building render [] (renderComponent around frame plan) Content.refs := by
  rw [renderComponent]
  cases around.resolve frame.unit plan.target with
  | none => exact building_fail _ _ _
  | some definition =>
    refine (building_ofEval _).bind fun key => (building_enter _ key).bind fun entered => ?_
    obtain ⟨cid, node⟩ := entered
    refine (building_ofEval _).bind fun callee => (building_emit rfl).bind fun _ => ?_
    refine building_newId.bind fun id => (hs definition.fragment _ _).bind fun tree => ?_
    exact building_leave

set_option linter.unusedSectionVars false in
mutual

/-- A render of a fragment builds what the tree refers to. -/
theorem building_fragment : ∀ (fragment : Fragment) (frame : Frame) (previous : Option Tree),
    Building render [] (fragment.render around frame previous) Tree.refs
  | ⟨statics, plans, fingerprint, root, reads⟩, frame, previous => by
    rw [Fragment.render]
    refine (building_plans plans frame 0 _).bind fun dynamics => building_newPart.bind fun id => ?_
    refine building_ofTree fun t ht => ?_
    rw [Tree.create] at ht
    split at ht
    · cases ht
      rw [Tree.refs]
    · cases ht

theorem building_plans : ∀ (plans : List Plan) (frame : Frame) (index : Nat)
    (previous : List Dynamic),
      Building render [] (Plan.renderAll around frame index previous plans) Dynamic.allRefs
  | [], frame, index, previous => by
    rw [Plan.renderAll]
    exact Building.pure rfl
  | plan :: rest, frame, index, previous => by
    rw [Plan.renderAll]
    have hrest : ∀ d : Dynamic, Building render d.refs (do
        let dynamics ← Plan.renderAll around frame (index + 1) previous.tail rest
        return d :: dynamics) Dynamic.allRefs :=
      fun d => (building_plans rest frame (index + 1) previous.tail).beside.bind fun ds =>
        Building.pure rfl
    cases reusable? frame plan.reads previous.head? with
    | some before =>
      exact (building_retain render frame.render before).bind fun _ =>
        (building_emit rfl).bind fun _ => hrest before
    | none =>
      refine Building.bind (building_placing frame.source ?_) hrest
      exact (building_plan plan _ previous.head?).bind building_newDynamic

theorem building_plan : ∀ (plan : Plan) (frame : Frame) (previous : Option Dynamic),
    Building render [] (plan.render around frame previous) Content.refs
  | .body e reads span, frame, previous => by
    rw [Plan.render]
    exact (building_value frame e).bind fun v => building_text (building_ofEval _)
  | .attribute name form e reads span, frame, previous => by
    rw [Plan.render]
    exact (building_value frame e).bind fun v => building_text (building_ofEval _)
  | .spread e reads span, frame, previous => by
    rw [Plan.render]
    exact (building_value frame e).bind fun v => (building_ofEval _).bind fun fields =>
      building_text (building_ofEval _)
  | .slot slot argument reads span, frame, previous => by
    rw [Plan.render]
    exact building_slot hs frame slot argument span previous
  | .conditional branches reads span, frame, previous => by
    rw [Plan.render]
    exact building_branches branches frame 0 (earlierTree previous)
  | .comprehension header ⟨statics, plans, fingerprint, root, inner⟩ reads span, frame, previous => by
    rw [Plan.render]
    refine (building_value frame header.items).bind fun source =>
      (building_ofEval _).bind fun items => ?_
    have hrow : ∀ x : Value × Nat, Building render [] (do
        let locals ← Render.ofEval (header.pattern.bindOver x.1 frame.scope frame.locals)
        let place := frame.position ++ ":" ++ toString x.2
        let before := ((((earlierRows previous fingerprint).getD [])[x.2]?.map Row.dynamics).getD [])
        let dynamics ←
          Plan.renderAll around { frame with locals := locals, position := place } 0 before plans
        let id ← Render.newPart
        return Row.mk id dynamics) Row.refs :=
      fun x => (building_ofEval _).bind fun locals => (building_plans plans _ 0 _).bind fun ds =>
        building_newPart.bind fun id => Building.pure (by rw [Row.refs])
    refine (Building.mapM hrow items.zipIdx).bind fun rows => (building_emit rfl).bind fun _ => ?_
    refine building_ofTree fun c hc => ?_
    rw [Content.createRows] at hc
    split at hc
    · cases hc
    · cases hc
      rw [Content.refs, Row.allRefs_eq]
  | .component plan, frame, previous => by
    rw [Plan.render]
    exact building_component hs frame plan

theorem building_branches : ∀ (branches : List BranchPlan) (frame : Frame) (index : Nat)
    (previous : Option Tree),
      Building render [] (BranchPlan.renderFirst around frame previous index branches) Content.refs
  | [], frame, index, previous => by
    rw [BranchPlan.renderFirst]
    exact Building.pure rfl
  | ⟨condition, body⟩ :: rest, frame, index, previous => by
    have hnext : ∀ holds : Bool, Building render [] (if holds then
          let place := frame.position ++ "?" ++ toString index
          .nested <$> Fragment.render around { frame with position := place } previous body
        else BranchPlan.renderFirst around frame previous (index + 1) rest) Content.refs := by
      intro holds
      cases holds with
      | true => exact Building.map (building_fragment body _ previous)
      | false => exact building_branches rest frame (index + 1) previous
    unfold BranchPlan.renderFirst
    cases condition with
    | none => exact hnext true
    | some e =>
      have hholds : Building render [] (Value.truthy <$> Render.value frame e) fun _ => [] :=
        Building.map (building_value frame e)
      exact hholds.bind hnext

end

end Renders

/-- Every render builds what its tree refers to, however deep it may nest. -/
theorem building_renderWithin (render : Nat) (resolve : Resolver) (depth : Nat)
    (fragment : Fragment) (frame : Frame) (previous : Option Tree) :
    Building render [] (renderWithin resolve depth fragment frame previous) Tree.refs := by
  induction depth generalizing fragment frame previous with
  | zero => exact Building.throw _ _
  | succ depth ih =>
    have hs : Surroundings.Building render ⟨resolve, renderWithin resolve depth⟩ := ih
    exact building_fragment hs fragment frame previous

end LiveTemplate
