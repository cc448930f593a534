import LiveTemplate.Proofs.Render.Mounting
import LiveTemplate.Render

/-!
Renders lead from scene to scene, whether they fail or not. A tree that comes out of one consists of
known parts, those of an earlier tree or new ones.
-/

namespace LiveTemplate

set_option autoImplicit false

open HasMounts (mounts)

/-! ### Steps of a render -/

theorem sound_ofEval {α : Type} (g : Scene) (x : Eval α) :
    Sound g (Render.ofEval x) fun _ _ => True :=
  Sound.still (fun _ => rfl) fun _ _ _ _ _ => trivial

theorem sound_fail {α : Type} (g : Scene) (cause : EvalCause) (span : Span)
    (post : Scene → α → Prop) : Sound g (Render.ofEval (Eval.fail cause span)) post :=
  Sound.still (fun _ => rfl) fun _ _ _ ha => by cases ha

theorem sound_emit (g : Scene) (event : Event) : Sound g (Render.emit event) fun _ _ => True :=
  Sound.still (fun _ => rfl) fun _ _ _ _ _ => trivial

theorem sound_newId (g : Scene) : Sound g Render.newId fun _ _ => True := sound_ofEval g _

theorem sound_value (g : Scene) (frame : Frame) (e : Expr) :
    Sound g (Render.value frame e) fun _ _ => True := sound_ofEval g _

theorem sound_ofTree {α : Type} {g : Scene} {x : Except TreeError α} {post : Scene → α → Prop}
    (hpost : ∀ a u, x = .ok a → g ≤ u → post u a) : Sound g (Render.ofTree x) post := by
  refine Sound.still (fun _ => rfl) fun s a u ha hu => hpost a u ?_ hu
  cases x with
  | error e => cases ha
  | ok b =>
    cases ha
    rfl

theorem Sound.ofMounting {α : Type} {g : Scene} {x : Mounting α} {post : Scene → α → Prop}
    (hx : Sound g x post) : Sound g (Render.ofMounting x) post := by
  intro h s hle hfits hs
  obtain ⟨u, hu, hufits, hus, ha⟩ := hx h s.mounts hle hfits hs
  refine ⟨u, hu, hufits, hus, fun a hok => ha a ?_⟩
  change ((x.run.run s.mounts).1.mapError RenderError.tree) = .ok a at hok
  cases hr : (x.run.run s.mounts).1 with
  | error e =>
    rw [hr] at hok
    cases hok
  | ok b =>
    rw [hr] at hok
    cases hok
    rfl

theorem run_tryCatch {α : Type} (x : Render α) (handle : RenderError → Render α)
    (s : RenderState) : (tryCatch x handle).run.run s =
      (match x.run.run s with
        | (.ok a, s') => (.ok a, s')
        | (.error e, s') => (handle e).run.run s') := by
  cases hx : x.run.run s with
  | mk result s' =>
    have hstate : x s = (result, s') := hx
    have hcatch : (tryCatch x handle).run.run s = (ExceptT.tryCatch x handle) s := rfl
    simp only [hcatch, ExceptT.tryCatch, ExceptT.mk, bind, StateT.bind, hstate]
    cases result with
    | ok a => rfl
    | error e => rfl

/-- Only the fault is told in another way. -/
theorem run_placing {α : Type} (source : Source) (x : Render α) (s : RenderState) :
    (∃ e e' s', x.run.run s = (.error e, s') ∧
      (Render.placing source x).run.run s = (.error e', s')) ∨
    (Render.placing source x).run.run s = x.run.run s := by
  rw [Render.placing, run_tryCatch]
  cases x.run.run s with
  | mk result s' =>
    cases result with
    | ok a => exact .inr rfl
    | error e =>
      refine .inl ⟨e, ?_⟩
      match e with
      | .eval (.failed cause span) => exact ⟨_, s', rfl, rfl⟩
      | .eval (.unplaced _) | .eval .badOperand | .eval .outOfRange | .placed _ _ _ | .tree _ =>
        exact ⟨_, s', rfl, rfl⟩

theorem Sound.placing {α : Type} {g : Scene} {x : Render α} {post : Scene → α → Prop}
    (source : Source) (hx : Sound g x post) : Sound g (Render.placing source x) post := by
  intro h s hle hfits hs
  obtain ⟨u, hu, hufits, hus, ha⟩ := hx h s hle hfits hs
  rw [Leads]
  rcases run_placing source x s with ⟨e, e', s', hrun, hplaced⟩ | hplaced
  · rw [hrun] at hus
    rw [hplaced]
    exact ⟨u, hu, hufits, hus, fun a ha => by cases ha⟩
  · rw [hplaced]
    exact ⟨u, hu, hufits, hus, ha⟩

theorem sound_newPart_render (g : Scene) (make : Identity → Part)
    (hid : ∀ i, (make i).id? = some i) :
    Sound g Render.newPart fun u i => u.parts (make i) := (sound_newPart g make hid).ofMounting

theorem sound_newDynamic {g : Scene} {content : Content} (hc : g.Knows content.parts) :
    Sound g (Render.newDynamic content) fun u d => u.Knows d.parts := by
  refine (sound_newPart_render g (fun i => .dynamic ⟨i, content⟩) fun _ => rfl).bind
    fun u i hu hi => Sound.pure fun v hv => ?_
  rw [Dynamic.parts]
  exact Scene.knows_cons.mpr ⟨hv.parts _ hi, hc.mono (Scene.le_trans hu hv)⟩

/-- Opening a mount, for what comes after until it is closed. -/
theorem sound_enter {β : Type} {g : Scene} {render : Nat} {key : String}
    {f : Nat × Option Instance → Render β} {post : Scene → β → Prop}
    (hf : ∀ k u cid node, g ≤ k → k ≤ u →
      Assoc.contains (k.mounts.arena render).mounted key = false → k.FilledBut u render key →
        u.Open render key cid → (∀ n ∈ node, u.Knows n.tree.parts) →
          SoundOver k u (f (cid, node)) post) :
    Sound g (Render.ofMounting (Mounts.enter render key) >>= f) post := by
  intro h s hle hfits hs
  obtain ⟨m, journal⟩ := s
  obtain rfl : m = h.mounts := hs
  rw [Leads, Sound.run_bind]
  have hrun : (Render.ofMounting (Mounts.enter render key)).run.run ⟨h.mounts, journal⟩ =
      (((Mounts.enter render key).run.run h.mounts).1.mapError .tree,
        ⟨((Mounts.enter render key).run.run h.mounts).2, journal⟩) := rfl
  rw [hrun]
  rcases enter_leads hfits render key with
    ⟨e, he⟩ | ⟨u, cid, node, hok, hu, hufits, hnew, hbut, ho, hn⟩
  · rw [he]
    exact ⟨h, Scene.le_refl h, hfits, rfl, fun _ ha => by cases ha⟩
  · rw [hok]
    exact hf h u cid node hle hu hnew hbut ho hn u _ (Scene.le_refl u) (.refl u) hufits rfl

theorem Sound.mapM {α β : Type} {g : Scene} {f : α → Render β} {post : Scene → β → Prop}
    (hpost : ∀ u v b, u ≤ v → post u b → post v b) {xs : List α}
    (hf : ∀ u x, g ≤ u → Sound u (f x) post) :
    Sound g (xs.mapM f) fun u ys => ∀ y ∈ ys, post u y := by
  induction xs generalizing g with
  | nil => exact Sound.pure fun u _ y hy => by cases hy
  | cons x rest ih =>
    rw [List.mapM_cons]
    refine (hf g x (Scene.le_refl g)).bind fun u y hu hy => ?_
    refine (ih fun v z hv => hf v z (Scene.le_trans hu hv)).bind fun v ys hv hys => ?_
    refine Sound.pure fun w hw z hz => ?_
    rcases List.mem_cons.mp hz with rfl | hz
    · exact hpost u w z (Scene.le_trans hv hw) hy
    · exact hpost v w z hw (hys z hz)

theorem sound_createRows {g : Scene} {fingerprint : String} {statics : List String}
    {rows : List Row} (hr : g.Knows (Row.allParts rows)) :
    Sound g (Render.ofTree (Content.createRows fingerprint statics rows))
      fun u c => u.Knows c.parts := by
  intro h s hle hfits hs
  let u : Scene := { h with
    parts := fun p => h.parts p ∨ p = .loop fingerprint statics rows }
  have hu : h ≤ u := ⟨fun p hp => .inl hp, fun _ _ hn => hn, fun _ _ hb => hb, rfl, rfl, rfl,
    fun k => Scene.ArenaLe.of_eq rfl⟩
  refine ⟨u, hu, ?_, hs, fun c hc => ?_⟩
  · exact { hfits with
      part_lt := by
        rintro p i (hp | rfl) hi
        · exact hfits.part_lt hp hi
        · cases hi
      part_eq := by
        rintro p q i (hp | rfl) (hq | rfl) hpi hqi
        · exact hfits.part_eq hp hq hpi hqi
        · cases hqi
        · cases hpi
        · rfl
      arenas := fun k => (hfits.arenas k).mono hu.parts hu.names }
  · have hok : Content.createRows fingerprint statics rows = .ok c := by
      cases hx : Content.createRows fingerprint statics rows with
      | error e =>
        rw [hx] at hc
        cases hc
      | ok d =>
        rw [hx] at hc
        cases hc
        rfl
    rw [Content.createRows] at hok
    split at hok
    · cases hok
    · cases hok
      refine ⟨.of_renders rfl, ?_⟩
      change u.Knows (.loop fingerprint statics rows :: Row.allParts rows)
      exact Scene.knows_cons.mpr ⟨.inr rfl, hr.mono (Scene.le_trans hle hu)⟩

/-! ### Parts of earlier renders -/

theorem Tree.knows_dynamics {g : Scene} {t : Tree} (h : g.Knows t.parts) :
    g.Knows (Dynamic.allParts t.dynamics) := h.subset (Tree.dynamics_subset fun _ hp => hp)

theorem Dynamic.knows_content {g : Scene} {d : Dynamic} (h : g.Knows d.parts) :
    g.Knows d.content.parts := by
  rw [Dynamic.parts_eq] at h
  exact (Scene.knows_cons.mp h).2

theorem knows_earlierDynamics {g : Scene} {previous : Option Tree} (fingerprint : String)
    (h : ∀ t ∈ previous, g.Knows t.parts) :
    g.Knows (Dynamic.allParts (earlierDynamics previous fingerprint)) := by
  cases previous with
  | none => exact Scene.knows_nil g
  | some t =>
    rw [earlierDynamics]
    split
    · exact Tree.knows_dynamics (h t rfl)
    · exact Scene.knows_nil g

theorem knows_earlierTree {g : Scene} {previous : Option Dynamic}
    (h : ∀ d ∈ previous, g.Knows d.parts) : ∀ t ∈ earlierTree previous, g.Knows t.parts := by
  intro t ht
  match previous, ht with
  | some ⟨_, .nested tree⟩, ht =>
    cases ht
    exact Dynamic.knows_content (h _ rfl)

theorem knows_earlierTrees {g : Scene} {previous : Option Dynamic}
    (h : ∀ d ∈ previous, g.Knows d.parts) : g.Knows (Tree.allParts (earlierTrees previous)) := by
  match previous with
  | some ⟨_, .list trees⟩ => exact Dynamic.knows_content (h _ rfl)
  | none | some ⟨_, .text _⟩ | some ⟨_, .component _⟩ | some ⟨_, .nested _⟩
  | some ⟨_, .rows _ _ _⟩ => exact Scene.knows_nil g

theorem knows_earlierRow {g : Scene} {previous : Option Dynamic} (fingerprint : String) (i : Nat)
    (h : ∀ d ∈ previous, g.Knows d.parts) :
    g.Knows (Dynamic.allParts
      ((((earlierRows previous fingerprint).getD [])[i]?.map Row.dynamics).getD [])) := by
  match previous with
  | some ⟨_, .rows before _ rows⟩ =>
    have hrows := Dynamic.knows_content (h _ rfl)
    rw [Content.parts] at hrows
    rw [earlierRows]
    split
    · rw [Option.getD_some]
      cases hr : rows[i]? with
      | none => exact Scene.knows_nil g
      | some r =>
        have hin := (Scene.knows_cons.mp hrows).2.subset
          (Row.parts_subset (List.mem_of_getElem? hr))
        rw [Row.parts_eq] at hin
        exact (Scene.knows_cons.mp hin).2
    · exact Scene.knows_nil g
  | none | some ⟨_, .text _⟩ | some ⟨_, .component _⟩ | some ⟨_, .nested _⟩
  | some ⟨_, .list _⟩ => exact Scene.knows_nil g

theorem knows_head? {g : Scene} {dynamics : List Dynamic} (h : g.Knows (Dynamic.allParts dynamics)) :
    ∀ d ∈ dynamics.head?, g.Knows d.parts := by
  intro d hd
  cases dynamics with
  | nil => cases hd
  | cons e rest =>
    cases hd
    exact (Scene.knows_append.mp h).1

theorem knows_tail {g : Scene} {dynamics : List Dynamic} (h : g.Knows (Dynamic.allParts dynamics)) :
    g.Knows (Dynamic.allParts dynamics.tail) := by
  cases dynamics with
  | nil => exact h
  | cons e rest => exact (Scene.knows_append.mp h).2

theorem knows_allRows {g : Scene} {rows : List Row} (h : ∀ r ∈ rows, g.Knows r.parts) :
    g.Knows (Row.allParts rows) := by
  induction rows with
  | nil => exact Scene.knows_nil g
  | cons r rest ih =>
    exact Scene.knows_append.mpr ⟨h r List.mem_cons_self,
      ih fun q hq => h q (List.mem_cons_of_mem r hq)⟩

/-! ### Renders -/

def Surroundings.Sound (around : Surroundings) : Prop :=
  ∀ (g : Scene) (fragment : Fragment) (frame : Frame) (previous : Option Tree),
    (∀ t ∈ previous, g.Knows t.parts) →
      LiveTemplate.Sound g (around.render fragment frame previous) fun u t => u.Knows t.parts

section Renders
variable {around : Surroundings} (hs : around.Sound)
include hs

omit hs in
theorem sound_text {g : Scene} {x : Render String} (hx : Sound g x fun _ _ => True) :
    Sound g (.text <$> x) fun u (c : Content) => u.Knows c.parts :=
  hx.map (fun u _ _ _ => Scene.knows_nil u) fun _ _ _ hle hk => hk.mono hle

theorem sound_entry {g : Scene} (host : Frame) (span : Span) (argument : Value) (index : Nat)
    {previous : Option Tree} (entry : Entry) (hp : ∀ t ∈ previous, g.Knows t.parts) :
    Sound g (entry.render around host span argument index previous) fun u t => u.Knows t.parts := by
  rw [Entry.render]
  cases entry.content with
  | none => exact sound_fail g _ span _
  | some block =>
    have hbody : ∀ u, g ≤ u → ∀ frame : Frame,
        Sound u (around.render block.body frame previous) fun u t => u.Knows t.parts :=
      fun u hu frame => hs u block.body frame previous fun t ht => (hp t ht).mono hu
    dsimp only
    cases block.pattern with
    | none =>
      have hlocals : Sound g (pure block.caller.locals : Render _) fun _ _ => True :=
        Sound.pure fun _ _ => trivial
      exact hlocals.bind fun u locals hu _ => hbody u hu _
    | some p => exact (sound_ofEval g _).bind fun u locals hu _ => hbody u hu _

theorem sound_entries (host : Frame) (span : Span) (argument : Value) (entries : List Entry)
    {g : Scene} (index : Nat) {previous : List Tree} (hp : g.Knows (Tree.allParts previous)) :
    Sound g (Entry.renderAll around host span argument index previous entries)
      fun u ts => u.Knows (Tree.allParts ts) := by
  induction entries generalizing g index previous with
  | nil => exact Sound.pure fun u _ => Scene.knows_nil u
  | cons entry rest ih =>
    rw [Entry.renderAll]
    have hhead : ∀ t ∈ previous.head?, g.Knows t.parts := by
      intro t ht
      cases previous with
      | nil => cases ht
      | cons q more =>
        cases ht
        exact (Scene.knows_append.mp hp).1
    have htail : g.Knows (Tree.allParts previous.tail) := by
      cases previous with
      | nil => exact hp
      | cons q more => exact (Scene.knows_append.mp hp).2
    refine (sound_entry hs host span argument index entry hhead).bind fun u t hu ht => ?_
    refine (ih (index + 1) (htail.mono hu)).bind fun v ts hv hts => ?_
    exact Sound.pure fun w hw => Scene.knows_append.mpr
      ⟨ht.mono (Scene.le_trans hv hw), hts.mono hw⟩

theorem sound_fill {g : Scene} (frame : Frame) (span : Span) {previous : Option Dynamic}
    (hp : ∀ d ∈ previous, g.Knows d.parts) (entries : List Entry) (argument : Value) :
    Sound g (Entry.fill around frame span previous entries argument)
      fun u c => u.Knows c.parts := by
  rcases entries with _ | ⟨entry, _ | ⟨second, rest⟩⟩
  · exact Sound.pure fun u _ => Scene.knows_nil u
  · exact (sound_entry hs frame span argument 0 entry (knows_earlierTree hp)).map
      (fun _ _ _ ht => ht) fun _ _ _ hle hk => hk.mono hle
  · exact (sound_entries hs frame span argument (entry :: second :: rest) 0
      (knows_earlierTrees hp)).map (fun _ _ _ ht => ht) fun _ _ _ hle hk => hk.mono hle

theorem sound_slot {g : Scene} (frame : Frame) (slot : Expr) (argument : Option Expr) (span : Span)
    {previous : Option Dynamic} (hp : ∀ d ∈ previous, g.Knows d.parts) :
    Sound g (renderSlot around frame slot argument span previous)
      fun u c => u.Knows c.parts := by
  rw [renderSlot]
  refine (sound_value g frame slot).bind fun u v hu _ => ?_
  refine (sound_ofEval u _).bind fun w entries hw _ => ?_
  have hw := Scene.le_trans hu hw
  have hfill : ∀ (x : Scene) (a : Value), w ≤ x →
      Sound x (Entry.fill around frame span previous entries a) fun u c => u.Knows c.parts :=
    fun x a hx => sound_fill hs frame span (fun d hd => (hp d hd).mono (Scene.le_trans hw hx))
      entries a
  cases argument with
  | none =>
    have hnone : Sound w (pure .undefined : Render Value) fun _ _ => True :=
      Sound.pure fun _ _ => trivial
    exact hnone.bind fun x a hx _ => hfill x a hx
  | some e => exact (sound_value w frame e).bind fun x a hx _ => hfill x a hx

theorem sound_component {g : Scene} (frame : Frame) (plan : ComponentPlan) :
    Sound g (renderComponent around frame plan) fun u c => u.Knows c.parts := by
  rw [renderComponent]
  cases around.resolve frame.unit plan.target with
  | none => exact sound_fail g _ _ _
  | some definition =>
    refine (sound_ofEval g _).bind fun u key hu _ => ?_
    -- from here on the mount is open, and the scene before it is what later ones are compared with
    refine sound_enter fun k v cid node hk hv hnew hbut hopen hnode => ?_
    refine (sound_ofEval v _).bind_over hv fun w callee hw hfill _ => ?_
    have hkw := Scene.le_trans hv hw
    replace hbut := hbut.trans hfill hw
    refine (sound_emit w _).bind_over hkw fun x _ hx hfill _ => ?_
    have hkx := Scene.le_trans hkw hx
    replace hbut := hbut.trans hfill hx
    refine (sound_newId x).bind_over hkx fun y id hy hfill _ => ?_
    have hky := Scene.le_trans hkx hy
    replace hbut := hbut.trans hfill hy
    have hvy := Scene.le_trans hw (Scene.le_trans hx hy)
    have hprevious : ∀ t ∈ node.map Instance.tree, y.Knows t.parts := by
      intro t ht
      obtain ⟨n, hn, rfl⟩ := Option.map_eq_some_iff.mp ht
      exact (hnode n hn).mono hvy
    refine (hs y definition.fragment _ _ hprevious).bind_over hky fun z tree hz hfill htree => ?_
    have hvz := Scene.le_trans hvy hz
    replace hbut := hbut.trans hfill hz
    refine (sound_leave (Scene.le_trans hky hz) hnew hbut (hopen.mono hvz) htree node _ _).bind
      fun l _ hl hfill _ => ?_
    refine ((sound_emit l _).bind fun m _ _ _ => ?_).widen hl hfill
    exact Sound.pure fun n _ => Scene.knows_nil n

set_option linter.unusedSectionVars false in
mutual

/-- A render of a fragment gives a tree of known parts. -/
theorem sound_fragment : ∀ (fragment : Fragment) {g : Scene} (frame : Frame)
    {previous : Option Tree}, (∀ t ∈ previous, g.Knows t.parts) →
      Sound g (fragment.render around frame previous) fun u t => u.Knows t.parts
  | ⟨statics, plans, fingerprint, root, reads⟩, g, frame, previous, hp => by
    rw [Fragment.render]
    refine (sound_plans plans frame 0 (knows_earlierDynamics fingerprint hp)).bind
      fun u dynamics hu hd => ?_
    refine (sound_newPart_render u (fun i => .tree ⟨i, statics, dynamics, fingerprint, root⟩)
      fun _ => rfl).bind fun v id hv hid => ?_
    refine sound_ofTree fun t w ht hw => ?_
    rw [Tree.create] at ht
    split at ht
    · cases ht
      rw [Tree.parts]
      exact Scene.knows_cons.mpr ⟨hw.parts _ hid, hd.mono (Scene.le_trans hv hw)⟩
    · cases ht

theorem sound_plans : ∀ (plans : List Plan) {g : Scene} (frame : Frame) (index : Nat)
    {previous : List Dynamic}, g.Knows (Dynamic.allParts previous) →
      Sound g (Plan.renderAll around frame index previous plans)
        fun u ds => u.Knows (Dynamic.allParts ds)
  | [], g, frame, index, previous, hp => by
    rw [Plan.renderAll]
    exact Sound.pure fun u _ => Scene.knows_nil u
  | plan :: rest, g, frame, index, previous, hp => by
    rw [Plan.renderAll]
    -- the plans after it may start from any later scene
    have hrest : ∀ (u : Scene) (d : Dynamic), g ≤ u → u.Knows d.parts →
        Sound u (do
          let dynamics ← Plan.renderAll around frame (index + 1) previous.tail rest
          return d :: dynamics) fun v ds => v.Knows (Dynamic.allParts ds) := by
      intro u d hu hd
      refine (sound_plans rest frame (index + 1) ((knows_tail hp).mono hu)).bind
        fun v ds hv hds => ?_
      exact Sound.pure fun w hw => Scene.knows_append.mpr
        ⟨hd.mono (Scene.le_trans hv hw), hds.mono hw⟩
    cases hreusable : reusable? frame plan.reads previous.head? with
    | some before =>
      have hbefore : g.Knows before.parts := by
        rw [reusable?] at hreusable
        split at hreusable
        · exact knows_head? hp before hreusable
        · cases hreusable
      refine (sound_retain g frame.render before).ofMounting.bind fun u _ hu _ => ?_
      refine (sound_emit u _).bind fun v _ hv _ => ?_
      have hv := Scene.le_trans hu hv
      have hpure : Sound v (pure before : Render Dynamic) fun u d => u.Knows d.parts :=
        Sound.pure fun w hw => hbefore.mono (Scene.le_trans hv hw)
      exact hpure.bind fun w d hw hd => hrest w d (Scene.le_trans hv hw) hd
    | none =>
      refine Sound.bind (Sound.placing frame.source ?_) hrest
      refine (sound_plan plan _ (knows_head? hp)).bind fun u content hu hc => ?_
      exact sound_newDynamic hc

theorem sound_plan : ∀ (plan : Plan) {g : Scene} (frame : Frame) {previous : Option Dynamic},
    (∀ d ∈ previous, g.Knows d.parts) →
      Sound g (plan.render around frame previous) fun u c => u.Knows c.parts
  | .body e reads span, g, frame, previous, hp => by
    rw [Plan.render]
    exact (sound_value g frame e).bind fun u v _ _ => sound_text (sound_ofEval u _)
  | .attribute name form e reads span, g, frame, previous, hp => by
    rw [Plan.render]
    exact (sound_value g frame e).bind fun u v _ _ => sound_text (sound_ofEval u _)
  | .spread e reads span, g, frame, previous, hp => by
    rw [Plan.render]
    exact (sound_value g frame e).bind fun u v _ _ =>
      (sound_ofEval u _).bind fun w fields _ _ => sound_text (sound_ofEval w _)
  | .slot slot argument reads span, g, frame, previous, hp => by
    rw [Plan.render]
    exact sound_slot hs frame slot argument span hp
  | .conditional branches reads span, g, frame, previous, hp => by
    rw [Plan.render]
    exact sound_branches branches frame 0 (knows_earlierTree hp)
  | .comprehension header ⟨statics, plans, fingerprint, root, inner⟩ reads span, g, frame, previous,
      hp => by
    rw [Plan.render]
    refine (sound_value g frame header.items).bind fun u source hu _ => ?_
    refine (sound_ofEval u _).bind fun v items hv _ => ?_
    have hv := Scene.le_trans hu hv
    have hpost : ∀ (u v : Scene) (r : Row), u ≤ v → u.Knows r.parts → v.Knows r.parts :=
      fun _ _ _ hle hk => hk.mono hle
    refine (Sound.mapM hpost fun w x hw => ?_).bind fun w rows hw hrows => ?_
    · obtain ⟨item, i⟩ := x
      have hw := Scene.le_trans hv hw
      refine (sound_ofEval w _).bind fun y locals hy _ => ?_
      have hy := Scene.le_trans hw hy
      refine (sound_plans plans _ 0 ((knows_earlierRow fingerprint i hp).mono hy)).bind
        fun z dynamics hz hd => ?_
      refine (sound_newPart_render z (fun i => .row ⟨i, dynamics⟩) fun _ => rfl).bind
        fun l id hl hid => Sound.pure fun m hm => ?_
      rw [Row.parts]
      exact Scene.knows_cons.mpr ⟨hm.parts _ hid, hd.mono (Scene.le_trans hl hm)⟩
    · refine (sound_emit w _).bind fun y _ hy _ => ?_
      exact sound_createRows (knows_allRows fun r hr => (hrows r hr).mono hy)
  | .component plan, g, frame, previous, hp => by
    rw [Plan.render]
    exact sound_component hs frame plan

theorem sound_branches : ∀ (branches : List BranchPlan) {g : Scene} (frame : Frame) (index : Nat)
    {previous : Option Tree}, (∀ t ∈ previous, g.Knows t.parts) →
      Sound g (BranchPlan.renderFirst around frame previous index branches)
        fun u c => u.Knows c.parts
  | [], g, frame, index, previous, hp => by
    rw [BranchPlan.renderFirst]
    exact Sound.pure fun u _ => Scene.knows_nil u
  | ⟨condition, body⟩ :: rest, g, frame, index, previous, hp => by
    have hnext : ∀ (u : Scene) (holds : Bool), g ≤ u → Sound u (if holds then
          let place := frame.position ++ "?" ++ toString index
          .nested <$> Fragment.render around { frame with position := place } previous body
        else BranchPlan.renderFirst around frame previous (index + 1) rest)
        fun v (c : Content) => v.Knows c.parts := by
      intro u holds hu
      have hp : ∀ t ∈ previous, u.Knows t.parts := fun t ht => (hp t ht).mono hu
      cases holds with
      | true =>
        exact (sound_fragment body _ hp).map (fun _ _ _ ht => ht) fun _ _ _ hle hk => hk.mono hle
      | false => exact sound_branches rest frame (index + 1) hp
    unfold BranchPlan.renderFirst
    cases condition with
    | none =>
      have htrue : Sound g (pure true : Render Bool) fun _ _ => True :=
        Sound.pure fun _ _ => trivial
      exact htrue.bind fun u holds hu _ => hnext u holds hu
    | some e =>
      have hholds : Sound g (Value.truthy <$> Render.value frame e) fun _ _ => True :=
        (sound_value g frame e).map (fun _ _ _ _ => trivial) fun _ _ _ _ _ => trivial
      exact hholds.bind fun u holds hu _ => hnext u holds hu

end

end Renders

/-- Every render is sound, however deep it may nest. -/
theorem sound_renderWithin (resolve : Resolver) (depth : Nat) (fragment : Fragment) {g : Scene}
    (frame : Frame) {previous : Option Tree} (hp : ∀ t ∈ previous, g.Knows t.parts) :
    Sound g (renderWithin resolve depth fragment frame previous) fun u t => u.Knows t.parts := by
  induction depth generalizing g fragment frame previous with
  | zero => exact Sound.throw _
  | succ depth ih =>
    have hs : Surroundings.Sound ⟨resolve, renderWithin resolve depth⟩ :=
      fun g fragment frame previous hp => ih fragment frame hp
    exact sound_fragment hs fragment frame hp

end LiveTemplate
