import LiveTemplate.Proofs.Html.Encoding
import LiveTemplate.Proofs.Realm.Arguments
import LiveTemplate.Proofs.Render.Soundness

/-!
Renders within a realm. The trees that come out of a render, and those of the components it mounts,
have the statics of code of the realm, and between them texts with a property that every encoding of
values of the realm has.
-/

namespace LiveTemplate

set_option autoImplicit false

/-- What may be a part of a tree. -/
def Part.Within (R : Realm) (texts : String → Prop) : Part → Prop
  | .dynamic ⟨_, .text s⟩ => texts s
  | .tree t => R.statics t.statics
  | .loop _ statics _ => R.statics statics
  | _ => True

/-- The scene that knows all that may be a part of a tree. -/
def Realm.scene (R : Realm) (texts : String → Prop) : Scene where
  parts := Part.Within R texts
  names _ _ := False
  births _ _ := False
  base := 0
  mounts := {}

structure Instance.Within (R : Realm) (texts : String → Prop) (node : Instance) : Prop where
  parts : (R.scene texts).Knows node.tree.parts
  assigns : FieldsWithin R node.assigns

/-- All components of all renders are within a realm. -/
def Mounts.Within (R : Realm) (texts : String → Prop) (m : Mounts) : Prop :=
  ∀ render, ∀ node ∈ (m.arena render).nodes, node.Within R texts

structure RenderState.Within (R : Realm) (texts : String → Prop) (s : RenderState) : Prop where
  supply : R.Supply s.journal.nextId
  mounts : s.mounts.Within R texts

/-- A content as part of a dynamic. -/
def Content.Within (R : Realm) (texts : String → Prop) (c : Content) : Prop :=
  ∀ id, (R.scene texts).Knows (Dynamic.parts ⟨id, c⟩)

variable {R : Realm} {texts : String → Prop}

/-! ### Contents -/

namespace Content

theorem within_text {s : String} (h : texts s) : (Content.text s).Within R texts :=
  fun _ => Scene.knows_cons.mpr ⟨h, Scene.knows_nil _⟩

theorem within_component (cid : Nat) : (Content.component cid).Within R texts :=
  fun _ => Scene.knows_cons.mpr ⟨trivial, Scene.knows_nil _⟩

theorem within_nested {tree : Tree} (h : (R.scene texts).Knows tree.parts) :
    (Content.nested tree).Within R texts := fun _ => Scene.knows_cons.mpr ⟨trivial, h⟩

theorem within_list {trees : List Tree} (h : (R.scene texts).Knows (Tree.allParts trees)) :
    (Content.list trees).Within R texts := fun _ => Scene.knows_cons.mpr ⟨trivial, h⟩

theorem within_rows {fingerprint : String} {statics : List String} {rows : List Row}
    (hstatics : R.statics statics) (h : (R.scene texts).Knows (Row.allParts rows)) :
    (Content.rows fingerprint statics rows).Within R texts :=
  fun _ => Scene.knows_cons.mpr ⟨trivial, Scene.knows_cons.mpr ⟨hstatics, h⟩⟩

end Content

/-! ### Mounting -/

namespace Mounts

theorem Within.update {m : Mounts} (h : m.Within R texts) {render : Nat} {f : Arena → Arena}
    (hf : ∀ node ∈ (f (m.arena render)).nodes, node.Within R texts) :
    (m.update render f).Within R texts := by
  intro other node hnode
  rw [Scene.arena_update] at hnode
  split at hnode
  · exact hf node hnode
  · exact h other node hnode

theorem Within.before? {m : Mounts} (h : m.Within R texts) {render cid : Nat} {node : Instance}
    (hnode : m.before? render cid = some node) : node.Within R texts := by
  obtain ⟨earlier, -, hmem, -⟩ := before?_spec hnode
  exact h earlier node hmem

theorem yields_newPart : Yields (Mounts.Within R texts) (fun _ => True) newPart :=
  fun _ hm => ⟨trivial, hm⟩

theorem yields_enter (render : Nat) (key : String) :
    Yields (Mounts.Within R texts) (fun entered => ∀ node ∈ entered.2, node.Within R texts)
      (enter render key) := by
  have hnote : ∀ {m : Mounts}, m.Within R texts → ∀ cid,
      (m.update render fun a => a.note key cid).Within R texts :=
    fun hm cid => hm.update fun node hnode => hm render node hnode
  unfold enter
  apply Yields.get.bind
  intro m hm
  apply Yields.ite
  · exact fun _ => (Yields.throw (P := fun _ => False) _).bind fun _ h => h.elim
  · intro _
    cases hlive : Assoc.get? m.registry.live key with
    | some cid =>
      exact (Yields.set (hnote hm cid)).bind fun _ _ => .pure fun node hnode => hm.before? hnode
    | none =>
      have hnext : Mounts.Within R texts { m.update render fun a => a.note key m.registry.next with
          registry := { m.registry with next := m.registry.next + 1 } } := hnote hm _
      exact (Yields.set hnext).bind fun _ _ => .pure fun _ hnode => by cases hnode

theorem yields_retainComponent (render depth cid : Nat) :
    Yields (Mounts.Within R texts) (fun _ => True) (retainComponent render depth cid) := by
  induction depth generalizing cid with
  | zero => exact .throw _
  | succ depth ih =>
    rw [retainComponent]
    apply Yields.get.bind
    intro m hm
    cases hbefore : m.before? render cid with
    | none => exact .throw _
    | some node =>
      have hkeep : (m.update render fun a => a.keep node).Within R texts := by
        apply hm.update
        intro other hother
        rcases List.mem_append.mp hother with hother | hother
        · exact hm render other hother
        · cases List.mem_singleton.mp hother
          exact hm.before? hbefore
      apply Yields.ite
      · exact fun _ => (Yields.throw (P := fun _ => False) _).bind fun _ h => h.elim
      · intro _
        apply (Yields.set hkeep).bind
        intro _ _
        exact Yields.forM (P := fun _ => True) (fun _ _ => trivial) fun cid _ => ih cid

theorem yields_retain (render : Nat) (dynamic : Dynamic) :
    Yields (Mounts.Within R texts) (fun _ => True) (retain render dynamic) := by
  apply Yields.get.bind
  intro m _
  exact Yields.forM (P := fun _ => True) (fun _ _ => trivial) fun cid _ =>
    yields_retainComponent render _ cid

end Mounts

/-! ### Steps of a render -/

namespace Render

variable {α : Type} {P : α → Prop}

theorem yields_ofEval {x : Eval α} (hx : Yields R.Supply P x) :
    Yields (RenderState.Within R texts) P (ofEval x) := by
  intro s hs
  obtain ⟨hp, hsupply⟩ := hx s.journal.nextId hs.supply
  refine ⟨?_, ⟨hsupply, hs.mounts⟩⟩
  change IfOk P ((x.run.run s.journal.nextId).1.mapError RenderError.eval)
  cases hresult : (x.run.run s.journal.nextId).1 with
  | error e => trivial
  | ok a =>
    rw [hresult] at hp
    exact hp

theorem yields_ofMounting {x : Mounting α} (hx : Yields (Mounts.Within R texts) P x) :
    Yields (RenderState.Within R texts) P (ofMounting x) := by
  intro s hs
  obtain ⟨hp, hmounts⟩ := hx s.mounts hs.mounts
  refine ⟨?_, ⟨hs.supply, hmounts⟩⟩
  change IfOk P ((x.run.run s.mounts).1.mapError RenderError.tree)
  cases hresult : (x.run.run s.mounts).1 with
  | error e => trivial
  | ok a =>
    rw [hresult] at hp
    exact hp

theorem yields_ofTree {x : Except TreeError α} (hx : ∀ a, x = .ok a → P a) :
    Yields (RenderState.Within R texts) P (ofTree x) := by
  intro s hs
  cases x with
  | error e => exact ⟨trivial, hs⟩
  | ok a => exact ⟨hx a rfl, hs⟩

theorem yields_emit (event : Event) :
    Yields (RenderState.Within R texts) (fun _ => True) (emit event) :=
  fun _ hs => ⟨trivial, ⟨hs.supply, hs.mounts⟩⟩

theorem yields_newDynamic {content : Content} (h : content.Within R texts) :
    Yields (RenderState.Within R texts) (fun d => (R.scene texts).Knows d.parts)
      (newDynamic content) :=
  (yields_ofMounting Mounts.yields_newPart).bind fun id _ => .pure (h id)

theorem yields_placing (source : Source) {x : Render α}
    (hx : Yields (RenderState.Within R texts) P x) :
    Yields (RenderState.Within R texts) P (placing source x) := by
  intro s hs
  have hresult := hx s hs
  rcases run_placing source x s with ⟨e, e', s', hrun, hplaced⟩ | hplaced
  · change IfOk P ((placing source x).run.run s).1 ∧
      RenderState.Within R texts ((placing source x).run.run s).2
    change IfOk P (x.run.run s).1 ∧ RenderState.Within R texts (x.run.run s).2 at hresult
    rw [hrun] at hresult
    rw [hplaced]
    exact ⟨trivial, hresult.2⟩
  · change IfOk P ((placing source x).run.run s).1 ∧
      RenderState.Within R texts ((placing source x).run.run s).2
    rw [hplaced]
    exact hresult

theorem yields_value {frame : Frame} (hscope : Scope.Within R frame.scope) {e : Expr}
    (he : (Phrase.expr e).Within R) :
    Yields (RenderState.Within R texts) (Value.Within R .itself) (value frame e) :=
  yields_ofEval (yields_eval he hscope)

end Render

/-! ### Frames -/

theorem NamesWithin.of_fields (hR : R.Renders) {fields : List (String × Value)}
    (h : FieldsWithin R fields) : NamesWithin R fields :=
  fun f hf _ => (h f hf).value (hR.reads f.1)

/-- What a frame can see, from what it holds. -/
theorem Scope.within_frame (hR : R.Renders) {frame : Frame} (hlocals : NamesWithin R frame.locals)
    (hhelpers : NamesWithin R frame.helpers)
    (hassigns : Bindings.Within R ⟨frame.assignsParent, frame.assigns⟩)
    (hid : R.ids frame.assignsId) : Scope.Within R frame.scope := by
  intro layer hlayer
  rw [Frame.scope] at hlayer
  simp only [List.mem_cons, List.not_mem_nil, or_false] at hlayer
  rcases hlayer with rfl | rfl | rfl | rfl
  · exact hlocals
  · exact List.forall_mem_singleton.mpr fun _ => hassigns.record hid
  · exact hhelpers
  · exact NamesWithin.of_fields hR hassigns.fields

theorem Scope.Within.locals {frame : Frame} (h : Scope.Within R frame.scope) :
    NamesWithin R frame.locals := h _ List.mem_cons_self

/-- The scope of a frame in which other locals stand. -/
theorem Scope.Within.relocated {frame : Frame} (h : Scope.Within R frame.scope)
    {locals : List (String × Value)} (hlocals : NamesWithin R locals) :
    Scope.Within R (⟨none, locals⟩ :: frame.scope.tail) :=
  List.forall_mem_cons.mpr ⟨hlocals, fun layer hlayer => h layer (List.mem_of_mem_tail hlayer)⟩

/-! ### Definitions and holes -/

structure Definition.Within (R : Realm) (d : Definition) : Prop where
  fragment : d.fragment.Within R
  helpers : NamesWithin R d.helpers
  spec : d.spec.Within R

/-- All components that can be called are within a realm. -/
def Resolver.Within (R : Realm) (resolve : Resolver) : Prop :=
  ∀ unit target, ∀ d ∈ resolve unit target, d.Within R

/-- What fills a hole lies within a realm. -/
def Html.Hole.Within (R : Realm) : Html.Hole → Prop
  | .text v => v.Within R .itself
  | .named _ name v => R.keys name ∧ v.Within R .itself
  | .spread fields => FieldsWithin R fields

/-- What a realm needs for the texts of its renders to have a property. -/
structure Realm.Writes (R : Realm) (texts : String → Prop) : Prop extends R.Renders where
  empty : texts ""
  encode : ∀ hole : Html.Hole, hole.Within R → Yields R.Supply texts hole.encode

/-! ### Renders -/

structure Surroundings.Within (R : Realm) (texts : String → Prop) (around : Surroundings) :
    Prop where
  resolve : Resolver.Within R around.resolve
  render : ∀ (fragment : Fragment) (frame : Frame) (previous : Option Tree), fragment.Within R →
    Scope.Within R frame.scope → (∀ t ∈ previous, (R.scene texts).Knows t.parts) →
      Yields (RenderState.Within R texts) (fun t => (R.scene texts).Knows t.parts)
        (around.render fragment frame previous)

section Renders
variable (hR : R.Writes texts) {around : Surroundings} (hs : around.Within R texts)
include hR hs

omit hs in
theorem yields_hole (hole : Html.Hole) (h : hole.Within R) :
    Yields (RenderState.Within R texts) (Content.Within R texts)
      (.text <$> Render.ofEval hole.encode) :=
  (Render.yields_ofEval (hR.encode hole h)).map fun _ ht => Content.within_text ht

omit hR in
theorem yields_entry_render {host : Frame} {span : Span} {argument : Value}
    (hargument : argument.Within R .itself) (index : Nat) {previous : Option Tree}
    (hp : ∀ t ∈ previous, (R.scene texts).Knows t.parts) {entry : Entry} (he : entry.Within R) :
    Yields (RenderState.Within R texts) (fun t => (R.scene texts).Knows t.parts)
      (entry.render around host span argument index previous) := by
  rw [Entry.render]
  cases hcontent : entry.content with
  | none => exact Render.yields_ofEval (.fail _ _)
  | some block =>
    have hblock := he block hcontent
    have hbody : ∀ locals : List (String × Value), NamesWithin R locals → ∀ position,
        Yields (RenderState.Within R texts) (fun t => (R.scene texts).Knows t.parts)
          (around.render block.body (block.frame locals host position) previous) :=
      fun locals hlocals position =>
        hs.render block.body _ previous hblock.body (hblock.scope.relocated hlocals) hp
    dsimp only
    cases hpattern : block.pattern with
    | none => exact hbody _ hblock.scope.locals _
    | some p =>
      apply (Render.yields_ofEval (yields_bindOver (hblock.pattern p hpattern) hargument
        hblock.scope hblock.scope.locals)).bind
      intro locals hlocals
      exact hbody locals hlocals _

omit hR in
theorem yields_entries_render {host : Frame} {span : Span} {argument : Value}
    (hargument : argument.Within R .itself) {entries : List Entry}
    (he : ∀ e ∈ entries, Entry.Within R e) (index : Nat) {previous : List Tree}
    (hp : (R.scene texts).Knows (Tree.allParts previous)) :
    Yields (RenderState.Within R texts) (fun ts => (R.scene texts).Knows (Tree.allParts ts))
      (Entry.renderAll around host span argument index previous entries) := by
  induction entries generalizing index previous with
  | nil => exact .pure (Scene.knows_nil _)
  | cons entry rest ih =>
    rw [List.forall_mem_cons] at he
    rw [Entry.renderAll]
    have hhead : ∀ t ∈ previous.head?, (R.scene texts).Knows t.parts := by
      intro t ht
      cases previous with
      | nil => cases ht
      | cons first more =>
        cases ht
        exact (Scene.knows_append.mp hp).1
    have htail : (R.scene texts).Knows (Tree.allParts previous.tail) := by
      cases previous with
      | nil => exact hp
      | cons first more => exact (Scene.knows_append.mp hp).2
    apply (yields_entry_render hs hargument index hhead he.1).bind
    intro tree htree
    apply (ih he.2 (index + 1) htail).bind
    intro trees htrees
    exact .pure (Scene.knows_append.mpr ⟨htree, htrees⟩)

theorem yields_fill {frame : Frame} {span : Span} {previous : Option Dynamic}
    (hp : ∀ d ∈ previous, (R.scene texts).Knows d.parts) {entries : List Entry}
    (he : ∀ e ∈ entries, Entry.Within R e) {argument : Value}
    (hargument : argument.Within R .itself) :
    Yields (RenderState.Within R texts) (Content.Within R texts)
      (Entry.fill around frame span previous entries argument) := by
  rcases entries with _ | ⟨entry, _ | ⟨second, rest⟩⟩
  · exact .pure (Content.within_text hR.empty)
  · exact (yields_entry_render hs hargument 0 (knows_earlierTree hp)
      (he entry List.mem_cons_self)).map fun _ ht => Content.within_nested ht
  · exact (yields_entries_render hs hargument he 0 (knows_earlierTrees hp)).map
      fun _ hts => Content.within_list hts

theorem yields_renderSlot {frame : Frame} (hscope : Scope.Within R frame.scope) {slot : Expr}
    (hslot : (Phrase.expr slot).Within R) {argument : Option Expr}
    (hargument : ∀ e ∈ argument, (Phrase.expr e).Within R) (span : Span)
    {previous : Option Dynamic} (hp : ∀ d ∈ previous, (R.scene texts).Knows d.parts) :
    Yields (RenderState.Within R texts) (Content.Within R texts)
      (renderSlot around frame slot argument span previous) := by
  rw [renderSlot]
  apply (Render.yields_value hscope hslot).bind
  intro v hv
  apply (Render.yields_ofEval (hv.slotEntries hR.slots slot.span)).bind
  intro entries hentries
  cases argument with
  | none => exact yields_fill hR hs hp hentries .undefined
  | some e =>
    apply (Render.yields_value hscope (hargument e rfl)).bind
    intro v hv
    exact yields_fill hR hs hp hentries hv

theorem yields_component {frame : Frame} (hscope : Scope.Within R frame.scope)
    {plan : ComponentPlan} (hplan : plan.Within R) :
    Yields (RenderState.Within R texts) (Content.Within R texts)
      (renderComponent around frame plan) := by
  rw [renderComponent]
  cases hresolved : around.resolve frame.unit plan.target with
  | none => exact Render.yields_ofEval (.fail _ _)
  | some definition =>
    have hdefinition := hs.resolve frame.unit plan.target definition hresolved
    apply (Render.yields_ofEval (plan.yields_mountKey hplan hscope definition.name)).bind
    intro key _
    apply (Render.yields_ofMounting (Mounts.yields_enter frame.render key)).bind
    rintro ⟨cid, node⟩ hnode
    apply (Render.yields_ofEval (ComponentPlan.yields_calleeAssigns hplan hscope hR.toRenders
      hdefinition.spec fun n hn => (hnode n hn).assigns)).bind
    intro callee hcallee
    apply (Render.yields_emit _).bind
    intro _ _
    apply (Render.yields_ofEval Yields.freshId).bind
    intro id hid
    have hown : Scope.Within R (definition.frame callee id frame.render cid).scope :=
      Scope.within_frame hR.toRenders (fun _ hf => absurd hf List.not_mem_nil)
        hdefinition.helpers hcallee hid
    have hprevious : ∀ t ∈ node.map Instance.tree, (R.scene texts).Knows t.parts := by
      intro t ht
      obtain ⟨n, hn, rfl⟩ := Option.map_eq_some_iff.mp ht
      exact (hnode n hn).parts
    apply (hs.render definition.fragment _ _ hdefinition.fragment hown hprevious).bind
    intro tree htree
    have hleft : ∀ s : RenderState, s.Within R texts → RenderState.Within R texts { s with
        mounts := s.mounts.update frame.render fun a =>
          a.leave cid key node tree callee.assigns.fields frame.owner } := by
      intro s hstate
      refine ⟨hstate.supply, hstate.mounts.update fun n hn => ?_⟩
      rw [leave_nodes] at hn
      rcases List.mem_append.mp hn with hn | hn
      · exact hstate.mounts frame.render n hn
      · cases List.mem_singleton.mp hn
        exact ⟨htree, hcallee.fields⟩
    apply (Yields.modified hleft).bind
    intro _ _
    apply (Render.yields_emit _).bind
    intro _ _
    exact .pure (Content.within_component cid)

set_option linter.unusedSectionVars false in
mutual

/-- A fragment of the realm renders within it. -/
theorem yields_fragment : ∀ (fragment : Fragment), fragment.Within R → ∀ (frame : Frame),
    Scope.Within R frame.scope → ∀ {previous : Option Tree},
      (∀ t ∈ previous, (R.scene texts).Knows t.parts) →
        Yields (RenderState.Within R texts) (fun t => (R.scene texts).Knows t.parts)
          (fragment.render around frame previous)
  | ⟨statics, plans, fingerprint, root, reads⟩, h, frame, hscope, previous, hp => by
    rw [Fragment.render]
    apply (yields_plans plans (fun plan hplan => h.plan hplan) frame hscope 0
      (knows_earlierDynamics fingerprint hp)).bind
    intro dynamics hdynamics
    apply (Render.yields_ofMounting Mounts.yields_newPart).bind
    intro id _
    apply Render.yields_ofTree
    intro t ht
    rw [Tree.create] at ht
    split at ht
    · cases ht
      rw [Tree.parts]
      exact Scene.knows_cons.mpr ⟨h.suits.statics, hdynamics⟩
    · cases ht

theorem yields_plans : ∀ (plans : List Plan), (∀ plan ∈ plans, plan.Within R) →
    ∀ (frame : Frame), Scope.Within R frame.scope → ∀ (index : Nat) {previous : List Dynamic},
      (R.scene texts).Knows (Dynamic.allParts previous) →
        Yields (RenderState.Within R texts) (fun ds => (R.scene texts).Knows (Dynamic.allParts ds))
          (Plan.renderAll around frame index previous plans)
  | [], _, frame, _, index, previous, _ => by
    rw [Plan.renderAll]
    exact .pure (Scene.knows_nil _)
  | plan :: rest, h, frame, hscope, index, previous, hp => by
    rw [List.forall_mem_cons] at h
    rw [Plan.renderAll]
    have hrest : ∀ d : Dynamic, (R.scene texts).Knows d.parts → Yields (RenderState.Within R texts)
        (fun ds => (R.scene texts).Knows (Dynamic.allParts ds)) (do
          let dynamics ← Plan.renderAll around frame (index + 1) previous.tail rest
          return d :: dynamics) := by
      intro d hd
      apply (yields_plans rest h.2 frame hscope (index + 1) (knows_tail hp)).bind
      intro dynamics hdynamics
      exact .pure (Scene.knows_append.mpr ⟨hd, hdynamics⟩)
    cases hreusable : reusable? frame plan.reads previous.head? with
    | some before =>
      have hbefore : (R.scene texts).Knows before.parts := by
        rw [reusable?] at hreusable
        split at hreusable
        · exact knows_head? hp before hreusable
        · cases hreusable
      apply (Render.yields_ofMounting (Mounts.yields_retain frame.render before)).bind
      intro _ _
      apply (Render.yields_emit _).bind
      intro _ _
      exact hrest before hbefore
    | none =>
      refine Yields.bind (Render.yields_placing frame.source ?_) hrest
      let inner := { frame with position := frame.position ++ "/" ++ toString index }
      exact (yields_plan plan h.1 inner hscope (knows_head? hp)).bind fun _ hc =>
        Render.yields_newDynamic hc

theorem yields_plan : ∀ (plan : Plan), plan.Within R → ∀ (frame : Frame),
    Scope.Within R frame.scope → ∀ {previous : Option Dynamic},
      (∀ d ∈ previous, (R.scene texts).Knows d.parts) →
        Yields (RenderState.Within R texts) (Content.Within R texts)
          (plan.render around frame previous)
  | .body e reads span, h, frame, hscope, previous, _ => by
    rw [Plan.render]
    apply (Render.yields_value hscope (h.phrases _ (List.mem_singleton_self _))).bind
    intro v hv
    exact yields_hole hR (.text v) hv
  | .attribute name form e reads span, h, frame, hscope, previous, _ => by
    rw [Plan.render]
    apply (Render.yields_value hscope (h.phrases _ (List.mem_singleton_self _))).bind
    intro v hv
    exact yields_hole hR (.named form name v) ⟨h.keys _ (List.mem_singleton_self _), hv⟩
  | .spread e reads span, h, frame, hscope, previous, _ => by
    rw [Plan.render]
    apply (Render.yields_value hscope (h.phrases _ (List.mem_singleton_self _))).bind
    intro v hv
    apply (Render.yields_ofEval (hv.spreadFields span)).bind
    intro fields hfields
    exact yields_hole hR (.spread fields) hfields
  | .slot slot argument reads span, h, frame, hscope, previous, hp => by
    rw [Plan.render]
    refine yields_renderSlot hR hs hscope (h.phrases _ List.mem_cons_self) (fun e he => ?_) span hp
    apply h.phrases
    exact List.mem_cons_of_mem _ (List.mem_map_of_mem (Option.mem_toList.mpr he))
  | .conditional branches reads span, h, frame, hscope, previous, hp => by
    rw [Plan.render]
    exact yields_branches branches (fun _ hbranch => h.branch hbranch) frame hscope 0
      (knows_earlierTree hp)
  | .comprehension header ⟨statics, plans, fingerprint, root, inner⟩ reads span, h, frame, hscope,
      previous, hp => by
    obtain ⟨hpattern, hitems, hbody⟩ := h.loop
    rw [Plan.render]
    apply (Render.yields_value hscope hitems).bind
    intro source hsource
    apply (Render.yields_ofEval (hsource.items within_call hR.reads header.items.span)).bind
    intro items hitems
    have hrow : ∀ x : Value × Nat, x.1.Within R .itself → Yields (RenderState.Within R texts)
        (fun r : Row => (R.scene texts).Knows r.parts) (do
          let locals ← Render.ofEval (header.pattern.bindOver x.1 frame.scope frame.locals)
          let place := frame.position ++ ":" ++ toString x.2
          let before :=
            (((earlierRows previous fingerprint).getD [])[x.2]?.map Row.dynamics).getD []
          let dynamics ←
            Plan.renderAll around { frame with locals := locals, position := place } 0 before plans
          let id ← Render.newPart
          return Row.mk id dynamics) := by
      intro x hx
      apply (Render.yields_ofEval (yields_bindOver hpattern hx hscope hscope.locals)).bind
      intro locals hlocals
      let inner :=
        { frame with locals := locals, position := frame.position ++ ":" ++ toString x.2 }
      apply (yields_plans plans (fun _ hplan => hbody.plan hplan) inner (hscope.relocated hlocals) 0
        (knows_earlierRow fingerprint x.2 hp)).bind
      intro dynamics hdynamics
      apply (Render.yields_ofMounting Mounts.yields_newPart).bind
      intro id _
      refine .pure ?_
      rw [Row.parts]
      exact Scene.knows_cons.mpr ⟨trivial, hdynamics⟩
    have hzip : ∀ x ∈ items.zipIdx, x.1.Within R .itself :=
      fun x hx => hitems x.1 (List.fst_mem_of_mem_zipIdx hx)
    apply (Yields.mapM hzip hrow).bind
    intro rows hrows
    apply (Render.yields_emit _).bind
    intro _ _
    apply Render.yields_ofTree
    intro c hc
    rw [Content.createRows] at hc
    split at hc
    · cases hc
    · cases hc
      exact Content.within_rows hbody.suits.statics (knows_allRows hrows)
  | .component plan, h, frame, hscope, previous, _ => by
    rw [Plan.render]
    exact yields_component hR hs hscope h.call

theorem yields_branches : ∀ (branches : List BranchPlan),
    (∀ branch ∈ branches, (∀ e ∈ branch.condition, (Phrase.expr e).Within R) ∧
      branch.body.Within R) → ∀ (frame : Frame), Scope.Within R frame.scope →
        ∀ (index : Nat) {previous : Option Tree},
          (∀ t ∈ previous, (R.scene texts).Knows t.parts) →
            Yields (RenderState.Within R texts) (Content.Within R texts)
              (BranchPlan.renderFirst around frame previous index branches)
  | [], _, frame, _, index, previous, _ => by
    rw [BranchPlan.renderFirst]
    exact .pure (Content.within_text hR.empty)
  | ⟨condition, body⟩ :: rest, h, frame, hscope, index, previous, hp => by
    rw [List.forall_mem_cons] at h
    have hnext : ∀ holds : Bool, Yields (RenderState.Within R texts) (Content.Within R texts)
        (if holds then
          let place := frame.position ++ "?" ++ toString index
          .nested <$> Fragment.render around { frame with position := place } previous body
        else BranchPlan.renderFirst around frame previous (index + 1) rest) := by
      intro holds
      cases holds with
      | true =>
        let inner := { frame with position := frame.position ++ "?" ++ toString index }
        exact (yields_fragment body h.1.2 inner hscope hp).map fun _ ht => Content.within_nested ht
      | false => exact yields_branches rest h.2 frame hscope (index + 1) hp
    unfold BranchPlan.renderFirst
    cases condition with
    | none => exact hnext true
    | some e =>
      apply ((Render.yields_value hscope (h.1.1 e rfl)).map (Q := fun _ => True)
        fun _ _ => trivial).bind
      intro holds _
      exact hnext holds

end

end Renders

/-- Code of the realm renders within it, however deep it may nest. -/
theorem yields_renderWithin (hR : R.Writes texts) {resolve : Resolver} (hresolve : resolve.Within R)
    (depth : Nat) (fragment : Fragment) (h : fragment.Within R) (frame : Frame)
    (hscope : Scope.Within R frame.scope) (previous : Option Tree)
    (hp : ∀ t ∈ previous, (R.scene texts).Knows t.parts) :
    Yields (RenderState.Within R texts) (fun t => (R.scene texts).Knows t.parts)
      (renderWithin resolve depth fragment frame previous) := by
  induction depth generalizing fragment frame previous with
  | zero => exact .throw _
  | succ depth ih =>
    have hs : Surroundings.Within R texts ⟨resolve, renderWithin resolve depth⟩ :=
      ⟨hresolve, fun fragment frame previous h hscope hp => ih fragment h frame hscope previous hp⟩
    exact yields_fragment hR hs fragment h frame hscope hp

end LiveTemplate
