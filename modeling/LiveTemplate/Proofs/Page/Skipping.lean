import LiveTemplate.Proofs.Fragment.Fingerprints
import LiveTemplate.Proofs.Page.Redrawing
import Mathlib.Data.List.Nodup

/-!
Skipping what no change affects. Where fragments of one fingerprint are drawn alike, a render over the
tree of an earlier one comes to the tree, or to the fault, that a render of everything comes to.
-/

namespace LiveTemplate

set_option autoImplicit false

/-- Fragments of one fingerprint are drawn to the same, wherever they are drawn to anything. -/
def Fragment.ToldApart (fs : List Fragment) : Prop :=
  ∀ a ∈ fs, ∀ b ∈ fs, a.fingerprint = b.fingerprint → ∀ outer locals n ds,
    ComesTo n (Plan.drawAll outer locals a.plans) ds → ComesTo n (Plan.drawAll outer locals b.plans) ds

/-- Fragments are told apart if no two of them have the same fingerprint. -/
theorem Fragment.toldApart_of_nodup {fs : List Fragment} (h : (fs.map Fragment.fingerprint).Nodup) :
    Fragment.ToldApart fs := by
  intro a ha b hb hsame outer locals n ds hds
  rwa [← List.inj_on_of_nodup_map h ha hb hsame]

/-! ### Frames of a render and of an earlier one -/

section Frames
variable (changed : ChangedSet) (scope : NameScope)

/-- A frame that tracks no changes or those of a changed-set, once all that it holds was given out. -/
structure Frame.Ready (g : Frame) (m : Identity) : Prop where
  tracks : g.changed = none ∨ g.changed = some changed
  pos : 0 < m
  describes : scope.Describes g
  given : g.scope.Given m

/-- A frame of an earlier render, and what was given out before the render. -/
structure Frame.Earlier (g : Frame) (m : Identity) (f : Frame) (n : Identity) : Prop where
  differ : f.DifferBy changed g
  older : f.Older changed g n m
  pos : 0 < n
  describes : scope.Describes f
  given : f.scope.Given n

/-- A dynamic that a plan left behind in an earlier render. -/
def Plan.Previously (g : Frame) (m : Identity) (p : Plan) (d : Dynamic) : Prop :=
  ∃ f n, Frame.Earlier changed scope g m f n ∧ p.Left f n d

/-- Dynamics that plans left behind in an earlier render, if there was one. -/
def Plan.AllPreviously (g : Frame) (m : Identity) (plans : List Plan) (ds : List Dynamic) : Prop :=
  ds = [] ∨ List.Forall₂ (Plan.Previously changed scope g m) plans ds

/-- The tree of one of some fragments in an earlier render. -/
def Tree.Previously (g : Frame) (m : Identity) (fs : List Fragment) (tree : Tree) : Prop :=
  ∃ f n, Frame.Earlier changed scope g m f n ∧ ∃ b ∈ fs, tree.fingerprint = b.fingerprint ∧ ∃ es,
    ComesTo n (Plan.drawAll f.outer f.locals b.plans) es ∧
      List.Forall₂ Dynamic.StandsFor tree.dynamics es

end Frames

section
variable {changed : ChangedSet} {scope : NameScope} {f g : Frame} {n m : Identity}

namespace Frame

theorem Ready.later (h : g.Ready changed scope m) {k : Identity} (hk : m ≤ k) :
    g.Ready changed scope k :=
  ⟨h.tracks, Nat.lt_of_lt_of_le h.pos hk, h.describes, h.given.later hk⟩

/-- A dynamic is reused where changes are tracked, and none affects what the plan reads. -/
theorem Ready.of_reusable (h : g.Ready changed scope m) {reads : Reads} {position : String}
    {previous : Option Dynamic} {d : Dynamic}
    (hreuse : reusable? { g with position } reads previous = some d) :
    reads.isAffected (some changed) = false ∧ previous = some d := by
  rw [reusable?] at hreuse
  rcases h.tracks with hchanged | hchanged
  · simp [hchanged] at hreuse
  · simpa [hchanged] using hreuse

theorem Earlier.later (h : Earlier changed scope g m f n) {k : Identity} (hk : m ≤ k) :
    Earlier changed scope g k f n :=
  ⟨h.differ, h.older.mono (Nat.le_refl n) hk, h.pos, h.describes, h.given⟩

section Rows
variable {names : List String} {ns : Assoc String Value}
  (hns : ∀ x, x ∈ Assoc.keys ns ↔ x ∈ Assoc.keys g.locals ∨ x ∈ names)
include hns

theorem describes_bound (h : scope.Describes g) :
    (scope.bind names).Describes { g with locals := ns } where
  locals x := by
    rw [NameScope.bind, List.mem_append, h.locals]
    exact (hns x).symm
  helpers := h.helpers

/-- The frame of a row, with names that were bound for its item. -/
theorem Ready.row (h : g.Ready changed scope m) (hgiven : NamesGiven m ns) :
    Ready changed (scope.bind names) { g with locals := ns } m :=
  ⟨h.tracks, h.pos, describes_bound hns h.describes,
    .cons ⟨.inl ⟨rfl, rfl⟩, hgiven⟩ (List.forall₂_cons.mp h.given).2⟩

theorem Earlier.row (h : Earlier changed scope g m f n) {k : Identity} (hk : n ≤ k)
    {ns' : Assoc String Value} (hns' : ∀ x, x ∈ Assoc.keys ns' ↔ x ∈ Assoc.keys f.locals ∨ x ∈ names)
    (hgiven : NamesGiven k ns') : Earlier changed (scope.bind names) { g with locals := ns } m
      { f with locals := ns' } k := by
  have hlater := h.older.mono hk (Nat.le_refl m)
  refine ⟨⟨⟨fun x => ?_, h.differ.helpers, h.differ.parent, h.differ.same⟩, h.differ.shaped,
    h.differ.whole⟩, ⟨hlater.assigns, hlater.common, hlater.bindings, hlater.parent, hlater.helpers⟩,
    Nat.lt_of_lt_of_le h.pos hk, describes_bound hns' h.describes,
    .cons ⟨.inl ⟨rfl, rfl⟩, hgiven⟩ (List.forall₂_cons.mp (h.given.later hk)).2⟩
  exact (hns' x).trans ((or_congr_left (h.differ.locals x)).trans (hns x).symm)

end Rows

end Frame

theorem Plan.Previously.later {p : Plan} {d : Dynamic} (h : p.Previously changed scope g m d)
    {k : Identity} (hk : m ≤ k) : p.Previously changed scope g k d := by
  obtain ⟨f, n, hearlier, hleft⟩ := h
  exact ⟨f, n, hearlier.later hk, hleft⟩

theorem Tree.Previously.later {fs : List Fragment} {tree : Tree}
    (h : tree.Previously changed scope g m fs) {k : Identity} (hk : m ≤ k) :
    tree.Previously changed scope g k fs := by
  obtain ⟨f, n, hearlier, hrest⟩ := h
  exact ⟨f, n, hearlier.later hk, hrest⟩

theorem Plan.AllPreviously.cons {p : Plan} {rest : List Plan} {ds : List Dynamic}
    (h : Plan.AllPreviously changed scope g m (p :: rest) ds) :
    (∀ d, ds.head? = some d → p.Previously changed scope g m d) ∧
      Plan.AllPreviously changed scope g m rest ds.tail := by
  rcases h with rfl | h
  · exact ⟨nofun, .inl rfl⟩
  · cases h with
    | cons hd hrest => exact ⟨fun _ he => Option.some.inj he ▸ hd, .inr hrest⟩

/-- What the tree of a fragment with the same fingerprint holds is what a fragment left behind. -/
theorem Tree.Previously.dynamics {fs : List Fragment} (hfs : Fragment.ToldApart fs) {tree : Tree}
    (h : tree.Previously changed scope g m fs) {a : Fragment} (ha : a ∈ fs)
    (ht : Plan.AllTracked scope a.plans) (hfingerprint : tree.fingerprint = a.fingerprint) :
    Plan.AllPreviously changed scope g m a.plans tree.dynamics := by
  obtain ⟨f, n, hearlier, b, hb, hsame, es, hes, hstand⟩ := h
  have hdrawn := hfs b hb a ha (hsame.symm.trans hfingerprint) f.outer f.locals n es hes
  exact .inr ((Plan.left_of_drawAll hearlier.pos hearlier.given ht hdrawn hstand).imp
    fun _ _ hleft => ⟨f, n, hearlier, hleft⟩)

/-- What an earlier row holds, if there is one, the plans of the body of the loop left behind. -/
theorem Plan.Previously.row {header : ForHeader} {statics : List String} {plans : List Plan}
    {fingerprint : String} {root : Bool} {inside reads : Reads} {span : Span} (ht : Plan.Tracked scope
      (.comprehension header ⟨statics, plans, fingerprint, root, inside⟩ reads span))
    {previous : Option Dynamic} (hprevious : ∀ d, previous = some d → Plan.Previously changed scope g m
      (.comprehension header ⟨statics, plans, fingerprint, root, inside⟩ reads span) d)
    {k : Identity} (hk : m ≤ k) {ns : Assoc String Value}
    (hns : ∀ x, x ∈ Assoc.keys ns ↔ x ∈ Assoc.keys g.locals ∨ x ∈ header.pattern.boundNames) (i : Nat) :
    Plan.AllPreviously changed (scope.bind header.pattern.boundNames) { g with locals := ns } k plans
      ((((earlierRows previous fingerprint).getD [])[i]?.map Row.dynamics).getD []) := by
  cases hrows : earlierRows previous fingerprint with
  | none => exact .inl rfl
  | some rows =>
    rw [Option.getD_some]
    cases hrow : rows[i]? with
    | none => exact .inl rfl
    | some row =>
      cases previous with
      | none => cases hrows
      | some d =>
        obtain ⟨f, n, hearlier, hleft⟩ := hprevious d rfl
        obtain ⟨j, hj, names, hgiven, hnames, es, hes, hstand⟩ :=
          hleft.rows hearlier.pos hearlier.given ht hrows row (List.mem_of_getElem? hrow)
        have hthen := (hearlier.later hk).row hns hj hnames hgiven
        rw [Plan.Tracked, Fragment.Tracked] at ht
        have hall := Plan.left_of_drawAll (f := { f with locals := names }) hthen.pos hthen.given
          ht.2.1.2.1 hes hstand
        exact .inr (hall.imp fun _ _ hleft => ⟨_, j, hthen, hleft⟩)

/-- So is the tree of a branch, among fragments that have those of the branches. -/
theorem Plan.Previously.branch {fs : List Fragment} {branches : List BranchPlan}
    (ht : BranchPlan.AllTracked scope branches) (hall : BranchPlan.allFragments branches ⊆ fs)
    {reads : Reads} {span : Span} {previous : Option Dynamic} (hprevious : ∀ d, previous = some d →
      Plan.Previously changed scope g m (.conditional branches reads span) d) {tree : Tree}
    (htree : earlierTree previous = some tree) : tree.Previously changed scope g m fs := by
  cases previous with
  | none => cases htree
  | some d =>
    obtain ⟨f, n, hearlier, hleft⟩ := hprevious d rfl
    obtain ⟨b, hb, hrest⟩ := hleft.branch hearlier.pos hearlier.given ht htree
    have hmem : b.body ∈ BranchPlan.allFragments branches :=
      BranchPlan.mem_allFragments.mpr ⟨b, hb, b.body.self_mem_all⟩
    exact ⟨f, n, hearlier, b.body, hall hmem, hrest⟩

end

/-! ### Renders -/

theorem run_retain {d : Dynamic} (hrefs : d.refs = []) (render : Nat) (s : RenderState) :
    (Render.ofMounting (Mounts.retain render d)).run.run s = (.ok (), s) := by
  rw [Mounts.retain, hrefs]
  rfl

/-- What stands in the place of a plan after a render: what was there before, if nothing that the plan
reads has changed. -/
def Plan.renew (around : Surroundings) (g : Frame) (position : String) (previous : Option Dynamic)
    (plan : Plan) : Render Dynamic :=
  match reusable? g plan.reads previous with
  | some before => do
    Render.ofMounting (Mounts.retain g.render before)
    Render.emit (.skip position plan.kind)
    pure before
  | none =>
    Render.placing g.source do
      let content ← plan.render around { g with position } previous
      Render.newDynamic content

theorem Plan.renderAll_cons (around : Surroundings) (g : Frame) (index : Nat) (previous : List Dynamic)
    (plan : Plan) (rest : List Plan) :
    Plan.renderAll around g index previous (plan :: rest) = do
      let dynamic ← plan.renew around g (g.position ++ "/" ++ toString index) previous.head?
      let dynamics ← Plan.renderAll around g (index + 1) previous.tail rest
      return dynamic :: dynamics := by
  rw [Plan.renderAll, Plan.renew]
  cases reusable? g plan.reads previous.head? <;> simp

section Renders
variable {around : Surroundings} {changed : ChangedSet} {fs : List Fragment}
  (hfs : Fragment.ToldApart fs)

/-- A plan that is skipped hands back what it would be drawn to. -/
theorem redraws_skip {scope : NameScope} {g : Frame} {m : Identity} {p : Plan} (ht : p.Tracked scope)
    (hready : g.Ready changed scope m) {E : RenderError → EvalError → Prop} {d : Dynamic}
    (hd : p.Previously changed scope g m d) (hunaffected : p.reads.isAffected (some changed) = false)
    (render : Nat) (event : Event) :
    Redraws m E (fun d c => d.content.StandsFor c) (do
        Render.ofMounting (Mounts.retain render d)
        Render.emit event
        pure d)
      (p.draw g.outer g.locals) := by
  obtain ⟨f, n, hearlier, c, ⟨i, hi, hc⟩, hstands⟩ := hd
  intro s hs j hj
  have hsame := Plan.draw_eq_of_unaffected hearlier.differ hearlier.older hearlier.describes ht
    hunaffected hi hj
  have hgrown := (Plan.repeats_draw hready.pos hready.given g.plain_outer ht j hj j hj).2.1
  have hrefs : d.refs = [] := by rw [d.refs_eq, hstands.2]
  rw [Sound.run_bind, run_retain hrefs]
  refine ⟨?_, hs, hgrown, rfl⟩
  rw [← hsame, hc]
  exact hstands

theorem Follows.drawn {source : Source} (x : Eval String) :
    Follows (Raised source) Content.StandsFor (Content.text <$> Render.ofEval x) (.text <$> x) :=
  (Follows.ofEval source x).map fun _ _ hst => hst ▸ ⟨rfl, rfl⟩

section Rows
variable {scope : NameScope} {g : Frame} {m : Identity} (hready : g.Ready changed scope m)
  {granted : String → List String → Prop} {known : List String} {pattern : Pattern}
  (hpattern : pattern.Confined granted known) (hfunction : pattern.makesFunction = false)
  {plans : List Plan} (hplans : Plan.AllConfined granted (known ++ pattern.boundNames) plans)
  {position : String} {before : Nat → List Dynamic}
  (hbody : ∀ k ≥ m, ∀ ns : Assoc String Value, NamesGiven k ns →
    (∀ x, x ∈ Assoc.keys ns ↔ x ∈ Assoc.keys g.locals ∨ x ∈ pattern.boundNames) → ∀ i,
      Redraws k (PlacedFault g.source)
        (fun ds es => List.Forall₂ Dynamic.StandsFor ds es ∧ ds.length = plans.length)
        (Plan.renderAll around { g with locals := ns, position := position ++ ":" ++ toString i } 0
          (before i) plans)
        (Plan.drawAll g.outer ns plans))
include hready hpattern hfunction hplans hbody

/-- The row of a loop for an item, over what it was before. -/
theorem redraws_row {item : Value} (hitem : item.Given m) (i : Nat) :
    Redraws m (Raised g.source) (fun r q => r.StandsFor q ∧ r.dynamics.length = plans.length) (do
        let locals ← Render.ofEval (pattern.bindOver item g.scope g.locals)
        let place := position ++ ":" ++ toString i
        let dynamics ←
          Plan.renderAll around { g with locals := locals, position := place } 0 (before i) plans
        let id ← Render.newPart
        return Row.mk id dynamics)
      (drawRow pattern g.outer g.locals (fun names => Plan.drawAll g.outer names plans) item) := by
  have hnames := (pattern.advances_bindOver hready.pos hready.given hitem
    (List.forall₂_cons.mp hready.given).1.names).and_yields (pattern.yields_bindOver item g.scope g.locals)
  have hdrawn := repeats_drawRow hready.pos hready.given g.plain_outer hpattern hfunction hplans hitem
  rw [drawRow] at hdrawn ⊢
  refine Redraws.head (Follows.ofEval _ _) hnames hdrawn fun k hk locals ns hsame hns => ?_
  subst hsame
  rw [← bind_pure_comp]
  refine ((hbody k hk locals hns.1 hns.2 i).imp (fun _ _ => .inr) fun _ _ => id).bind
    fun ds es hds => .after .newPart fun id _ => .pure hds

/-- The rows of a loop over a value. -/
theorem redraws_rows {source : Value} (hsource : source.Given m) (span : Span) :
    Redraws m (Raised g.source)
      (List.Forall₂ fun r q => r.StandsFor q ∧ r.dynamics.length = plans.length) (do
        let items ← Render.ofEval (source.items Value.call span)
        items.zipIdx.mapM fun (item, i) => do
          let locals ← Render.ofEval (pattern.bindOver item g.scope g.locals)
          let place := position ++ ":" ++ toString i
          let dynamics ←
            Plan.renderAll around { g with locals := locals, position := place } 0 (before i) plans
          let id ← Render.newPart
          return Row.mk id dynamics)
      (drawRows pattern g.outer g.locals (fun names => Plan.drawAll g.outer names plans) span source) := by
  have hdrawn := repeats_drawRows hready.pos hready.given g.plain_outer hpattern hfunction hplans
    hsource span
  rw [drawRows] at hdrawn ⊢
  refine Redraws.head (Follows.ofEval _ _) (advances_items hready.pos supplies_call hsource span)
    hdrawn fun k hk items _ hsame hitems => ?_
  subst hsame
  have hplaces : List.Forall₂ (fun (place : Value × Nat) item => place.1 = item ∧ item.Given k)
      items.zipIdx items := by
    have hfst : List.Forall₂ (fun v item => v = item ∧ Value.Given k item)
        (items.zipIdx.map Prod.fst) items := by
      rw [List.zipIdx_map_fst]
      exact List.forall₂_same.mpr fun v hv => ⟨rfl, List.forall₂_same.mp hitems v hv⟩
    exact List.forall₂_map_left_iff.1 hfst
  refine .mapM hplaces ?_
  rintro ⟨_, i⟩ item ⟨rfl, hitem⟩
  exact redraws_row (hready.later hk) hpattern hfunction hplans
    (fun j hj => hbody j (Nat.le_trans hk hj)) hitem i

end Rows

/-- Rows that fit between the statics of a loop make its content. -/
theorem Content.createRows_standsFor {fingerprint : String} {statics : List String}
    {rows drawn : List Row} {count : Nat} (hfit : statics.length = count + 1)
    (h : List.Forall₂ (fun r q => Row.StandsFor r q ∧ r.dynamics.length = count) rows drawn) :
    Content.createRows fingerprint statics rows = .ok (.rows fingerprint statics rows) ∧
      (Content.rows fingerprint statics rows).StandsFor (.rows fingerprint statics drawn) := by
  refine ⟨?_, Content.standsFor_rows.mpr (h.imp fun _ _ => And.left)⟩
  have hall : (rows.find? fun r => r.dynamics.length + 1 ≠ statics.length) = none := by
    rw [List.find?_eq_none]
    intro r hr
    obtain ⟨q, -, hq⟩ := exists_of_forall₂ h hr
    simp [hfit, hq.2]
  rw [Content.createRows, hall]

include hfs

set_option linter.unusedSectionVars false in
mutual

theorem redraws_fragment : ∀ (fragment : Fragment) {scope : NameScope} {g : Frame} {m : Identity},
    fragment.Tracked scope → fragment.all ⊆ fs → g.Ready changed scope m →
      ∀ (previous : Option Tree),
        (∀ tree, previous = some tree → tree.Previously changed scope g m fs) →
          ∀ position, Redraws m (PlacedFault g.source) Tree.StandsFor
            (fragment.render around { g with position } previous) (fragment.draw g.outer g.locals)
  | ⟨statics, plans, fingerprint, root, reads⟩, scope, g, m, ht, hall, hready, previous, hprevious,
      position => by
    have htracked := ht
    rw [Fragment.Tracked] at ht
    rw [Fragment.all, List.cons_subset] at hall
    rw [Fragment.render, Fragment.draw]
    have hbefore : Plan.AllPreviously changed scope g m plans (earlierDynamics previous fingerprint) := by
      cases previous with
      | none => exact .inl rfl
      | some tree =>
        rw [earlierDynamics]
        split
        · exact (hprevious tree rfl).dynamics hfs hall.1 ht.2.1 ‹_›
        · exact .inl rfl
    refine (redraws_plans plans ht.2.1 hall.2 hready _ hbefore position 0).bind fun ds es hds => ?_
    refine .after .newPart fun id _ => ?_
    have hfit : statics.length = ds.length + 1 := by rw [ht.1, hds.2]
    exact .ofTree (by rw [Tree.create, if_pos hfit]) (Tree.standsFor_mk hds.1)

theorem redraws_plans : ∀ (plans : List Plan) {scope : NameScope} {g : Frame} {m : Identity},
    Plan.AllTracked scope plans → Plan.allFragments plans ⊆ fs → g.Ready changed scope m →
      ∀ (previous : List Dynamic), Plan.AllPreviously changed scope g m plans previous →
        ∀ position index, Redraws m (PlacedFault g.source)
          (fun ds es => List.Forall₂ Dynamic.StandsFor ds es ∧ ds.length = plans.length)
          (Plan.renderAll around { g with position } index previous plans)
          (Plan.drawAll g.outer g.locals plans)
  | [], scope, g, m, ht, hall, hready, previous, hprevious, position, index => by
    rw [Plan.renderAll, Plan.drawAll]
    exact .pure ⟨.nil, rfl⟩
  | plan :: rest, scope, g, m, ht, hall, hready, previous, hprevious, position, index => by
    rw [Plan.AllTracked] at ht
    rw [Plan.allFragments, List.append_subset] at hall
    rw [Plan.renderAll_cons, Plan.drawAll]
    have hfirst : Redraws m (PlacedFault g.source) (fun d c => d.content.StandsFor c)
        (plan.renew around { g with position } (position ++ "/" ++ toString index) previous.head?)
        (plan.draw g.outer g.locals) := by
      rw [Plan.renew]
      cases hreuse : reusable? { g with position } plan.reads previous.head? with
      | some before =>
        obtain ⟨hunaffected, hbefore⟩ := hready.of_reusable hreuse
        exact redraws_skip ht.1 hready (hprevious.cons.1 before hbefore) hunaffected _ _
      | none =>
        have hplan := redraws_plan plan ht.1 hall.1 hready previous.head? hprevious.cons.1
          (position ++ "/" ++ toString index)
        have hnew := hplan.bind (f := Render.newDynamic) (g := pure)
          (S := fun d c => d.content.StandsFor c) fun content c hc => .newDynamic fun _ => hc
        rw [bind_pure] at hnew
        exact hnew.placing
    refine Redraws.bind hfirst fun d c hd => ?_
    refine (redraws_plans rest ht.2 hall.2 hready _ hprevious.cons.2 position (index + 1)).bind
      fun ds es hds => ?_
    exact .pure ⟨.cons hd hds.1, congrArg (· + 1) hds.2⟩

theorem redraws_plan : ∀ (p : Plan) {scope : NameScope} {g : Frame} {m : Identity},
    p.Tracked scope → p.fragments ⊆ fs → g.Ready changed scope m →
      ∀ (previous : Option Dynamic),
        (∀ d, previous = some d → p.Previously changed scope g m d) →
          ∀ position, Redraws m (Raised g.source) Content.StandsFor
            (p.render around { g with position } previous) (p.draw g.outer g.locals)
  | .body e reads span, scope, g, m, ht, hall, hready, previous, hprevious, position => by
    have hdrawn := Plan.repeats_draw hready.pos hready.given g.plain_outer ht
    rw [Plan.draw] at hdrawn ⊢
    rw [Plan.render]
    exact .of_follows ((Follows.value _ e).bind fun v _ hv => hv ▸ .drawn _) hdrawn
  | .attribute name form e reads span, scope, g, m, ht, hall, hready, previous, hprevious,
      position => by
    have hdrawn := Plan.repeats_draw hready.pos hready.given g.plain_outer ht
    rw [Plan.draw] at hdrawn ⊢
    rw [Plan.render]
    exact .of_follows ((Follows.value _ e).bind fun v _ hv => hv ▸ .drawn _) hdrawn
  | .spread e reads span, scope, g, m, ht, hall, hready, previous, hprevious, position => by
    have hdrawn := Plan.repeats_draw hready.pos hready.given g.plain_outer ht
    rw [Plan.draw] at hdrawn ⊢
    rw [Plan.render]
    refine .of_follows ((Follows.value _ e).bind fun v _ hv => ?_) hdrawn
    subst hv
    exact (Follows.ofEval _ _).bind fun fields _ hfields => hfields ▸ .drawn _
  | .slot _ _ _ _, scope, g, m, ht, hall, hready, previous, hprevious, position => by
    rw [Plan.Tracked] at ht
    exact ht.elim
  | .conditional branches reads span, scope, g, m, ht, hall, hready, previous, hprevious,
      position => by
    rw [Plan.Tracked] at ht
    rw [Plan.fragments] at hall
    rw [Plan.render, Plan.draw]
    exact redraws_branches branches ht.1 hall hready (earlierTree previous)
      (fun _ htree => Plan.Previously.branch ht.1 hall hprevious htree) position 0
  | .comprehension header ⟨statics, plans, fingerprint, root, inside⟩ reads span, scope, g, m, ht, hall,
      hready, previous, hprevious, position => by
    have hdrawn := Plan.repeats_draw hready.pos hready.given g.plain_outer ht
    have htracked := ht
    obtain ⟨known, hc⟩ := ht.confined
    rw [Plan.Confined] at hc
    rw [Plan.Tracked, Fragment.Tracked] at ht
    rw [Plan.fragments, Fragment.all, List.cons_subset] at hall
    rw [Plan.draw] at hdrawn ⊢
    rw [Plan.render]
    refine Redraws.head (Follows.value _ header.items)
      (Expr.supplied_eval hready.pos hready.given header.items) hdrawn fun k hk source _ hsame hsource => ?_
    subst hsame
    let before (i : Nat) : List Dynamic :=
      (((earlierRows previous fingerprint).getD [])[i]?.map Row.dynamics).getD []
    have hbody : ∀ j ≥ k, ∀ ns : Assoc String Value, NamesGiven j ns →
        (∀ x, x ∈ Assoc.keys ns ↔ x ∈ Assoc.keys g.locals ∨ x ∈ header.pattern.boundNames) → ∀ i,
          Redraws j (PlacedFault g.source)
            (fun ds es => List.Forall₂ Dynamic.StandsFor ds es ∧ ds.length = plans.length)
            (Plan.renderAll around
              { g with locals := ns, position := position ++ ":" ++ toString i } 0 (before i) plans)
            (Plan.drawAll g.outer ns plans) := by
      intro j hj ns hns hkeys i
      have hlater := Nat.le_trans hk hj
      exact redraws_plans plans ht.2.1.2.1 hall.2 ((hready.later hlater).row hkeys hns) _
        (Plan.Previously.row htracked hprevious hlater hkeys i) _ 0
    have hrows := redraws_rows (hready.later hk) hc.2.1 hc.2.2.1 hc.2.2.2 hbody hsource
      header.items.span
    have hloop := hrows.bind
      (f := fun rows => do
        Render.emit (.comprehension position rows.length (earlierRows previous fingerprint).isSome)
        Render.ofTree (Content.createRows fingerprint statics rows))
      (g := fun rows => pure (Content.rows fingerprint statics rows)) (S := Content.StandsFor)
      fun rows drawn hall => .after (.emit _) fun _ _ =>
        .ofTree (Content.createRows_standsFor ht.2.1.1 hall).1 (Content.createRows_standsFor ht.2.1.1 hall).2
    rw [bind_assoc, bind_pure_comp] at hloop
    exact hloop
  | .component _, scope, g, m, ht, hall, hready, previous, hprevious, position => by
    rw [Plan.Tracked] at ht
    exact ht.elim

theorem redraws_branches : ∀ (branches : List BranchPlan) {scope : NameScope} {g : Frame}
    {m : Identity}, BranchPlan.AllTracked scope branches → BranchPlan.allFragments branches ⊆ fs →
      g.Ready changed scope m → ∀ (previous : Option Tree),
        (∀ tree, previous = some tree → tree.Previously changed scope g m fs) →
          ∀ position index, Redraws m (Raised g.source) Content.StandsFor
            (BranchPlan.renderFirst around { g with position } previous index branches)
            (BranchPlan.drawFirst g.outer g.locals branches)
  | [], scope, g, m, ht, hall, hready, previous, hprevious, position, index => by
    rw [BranchPlan.renderFirst, BranchPlan.drawFirst]
    exact .pure ⟨rfl, rfl⟩
  | ⟨condition, body⟩ :: rest, scope, g, m, ht, hall, hready, previous, hprevious, position, index => by
    have hdrawn := BranchPlan.repeats_drawFirst hready.pos hready.given g.plain_outer ht
    rw [BranchPlan.AllTracked] at ht
    rw [BranchPlan.allFragments, List.append_subset] at hall
    have hbody : ∀ {k : Identity}, m ≤ k → Redraws k (Raised g.source) Content.StandsFor
        (.nested <$> Fragment.render around { g with position := position ++ "?" ++ toString index }
          previous body)
        (.nested <$> Fragment.draw g.outer g.locals body) := fun hk =>
      ((redraws_fragment body ht.2.1 hall.1 (hready.later hk) previous
        (fun tree htree => (hprevious tree htree).later hk) _).imp (fun _ _ => .inr) fun _ _ => id).map
          fun _ _ => Content.standsFor_nested.mpr
    unfold BranchPlan.renderFirst
    cases condition with
    | none =>
      rw [BranchPlan.drawFirst]
      exact hbody (Nat.le_refl m)
    | some e =>
      rw [BranchPlan.drawFirst] at hdrawn ⊢
      have hholds : Follows (Raised g.source) (fun holds v => holds = v.truthy)
          (Value.truthy <$> Render.value { g with position } e) (e.eval g.scope) :=
        .ofEval_map _ fun _ => rfl
      refine Redraws.head hholds (Expr.supplied_eval hready.pos hready.given e) hdrawn
        fun k hk holds v hv _ => ?_
      subst hv
      cases v.truthy with
      | true => exact hbody hk
      | false =>
        exact redraws_branches rest ht.2.2 hall.2 (hready.later hk) previous
          (fun tree htree => (hprevious tree htree).later hk) position (index + 1)

end

end Renders

/-! ### Pages -/

/-- Renders that redraw the same end the same. -/
theorem Redraws.sameOutcome {m : Identity} {source : Source} {x x' : Render Tree} {y : Eval Tree}
    (h : Redraws m (PlacedFault source) Tree.StandsFor x y)
    (h' : Redraws m (PlacedFault source) Tree.StandsFor x' y) {s s' : RenderState}
    (hs : m ≤ s.journal.nextId) (hs' : m ≤ s'.journal.nextId) :
    SameOutcome Tree.Same (x.run.run s).1 (x'.run.run s').1 := by
  have hend := (h s hs m (Nat.le_refl m)).1
  have hend' := (h' s' hs' m (Nat.le_refl m)).1
  revert hend hend'
  cases (y.run.run m).1 <;> cases (x.run.run s).1 <;> cases (x'.run.run s').1 <;> intro hend hend'
  case error.error.error => exact hend.trans hend'.symm
  case ok.ok.ok => exact hend.1.trans hend'.1.symm
  all_goals first | exact hend.elim | exact hend'.elim

/-- What a render that redraws comes to, if to anything, is what it draws. -/
theorem Redraws.exists_comesTo {m : Identity} {α β : Type} {E : RenderError → EvalError → Prop}
    {R : α → β → Prop} {x : Render α} {y : Eval β} (h : Redraws m E R x y) {s : RenderState}
    (hs : m ≤ s.journal.nextId) {a : α} (ha : (x.run.run s).1 = .ok a) : ∃ b, ComesTo m y b ∧ R a b := by
  obtain ⟨hend, -⟩ := h s hs m (Nat.le_refl m)
  rw [ha] at hend
  cases hresult : (y.run.run m).1 with
  | error e =>
    rw [hresult] at hend
    exact hend.elim
  | ok b =>
    rw [hresult] at hend
    exact ⟨b, ⟨m, Nat.le_refl m, hresult⟩, hend⟩

/-- The tree of a fragment is one of its own in an earlier render. -/
theorem Fragment.previously_of_draw {changed : ChangedSet} {scope : NameScope} {f g : Frame}
    {n m : Identity} {fs : List Fragment} {a : Fragment} (ha : a ∈ fs) (ht : a.Tracked scope)
    (hearlier : Frame.Earlier changed scope g m f n) {tree drawn : Tree}
    (hdrawn : ComesTo n (a.draw f.outer f.locals) drawn) (h : tree.StandsFor drawn) :
    tree.Previously changed scope g m fs := by
  obtain ⟨statics, plans, fingerprint, root, reads⟩ := a
  rw [Fragment.Tracked] at ht
  rw [Fragment.draw] at hdrawn
  obtain ⟨k, -, es, -, hes, hdrawn⟩ := hdrawn.bind_advances
    (Plan.advances_drawAll hearlier.pos hearlier.given f.plain_outer ht.2.1)
  obtain rfl := hdrawn.pure
  exact ⟨f, n, hearlier, _, ha, (Tree.same_iff.mp h.1).2.2.1, es, hes, h.dynamics⟩

/-- All that a frame without local names holds is older than what is made next, if it is older than what
is made next in either of two frames. -/
theorem Frame.Older.before {changed : ChangedSet} {f g : Frame} {n m : Identity}
    (h : f.Older changed g n m) (hlocals : f.locals = []) : f.Before n := by
  have hlt : ∀ i, f.Shares changed g n m i → i < n := fun _ hi => hi.1
  refine ⟨hlt 0 h.common, ?_⟩
  have hassigns := h.bindings.imp hlt
  have hhelpers := h.helpers.imp hlt
  have hparent := h.parent.imp hlt
  simp [Frame.scope, hlocals, Value.LayersUse, Value.NamesUse, Value.Uses, hassigns, hhelpers, hparent,
    h.assigns.1]

theorem Template.describes_frame (t : Template) (assigns : Bindings) (id : Identity) (changed : Option ChangedSet)
    (render : Nat) :
    NameScope.Describes ⟨[], Assoc.keys t.helpers⟩ (t.frame assigns id changed render) :=
  ⟨fun _ => .rfl, fun _ => .rfl⟩

/-- Where fragments are told apart, a template is rendered over an earlier tree as it is drawn. -/
theorem Template.redraws {t : Template} (ht : t.fragment.Tracked ⟨[], Assoc.keys t.helpers⟩)
    (htold : Fragment.ToldApart t.fragment.all) {changed : ChangedSet} {g : Frame} {m : Identity}
    (hready : g.Ready changed ⟨[], Assoc.keys t.helpers⟩ m) (resolve : Resolver)
    (previous : Option Tree) (hprevious : ∀ tree, previous = some tree →
      tree.Previously changed ⟨[], Assoc.keys t.helpers⟩ g m t.fragment.all) :
    Redraws m (PlacedFault g.source) Tree.StandsFor (t.render resolve g previous)
      (t.fragment.draw g.outer g.locals) := by
  have hrender : t.render resolve g previous =
      t.fragment.render ⟨resolve, renderWithin resolve 999⟩ g previous := by
    rw [Template.render, renderDepth, renderWithin]
  rw [hrender]
  cases g
  exact redraws_fragment htold t.fragment ht (List.Subset.refl _) hready previous hprevious _

/-- A list under a heading, with the heading in each of its items. -/
def headed : Source :=
  ⟨"<%= if wide %><h1>{title}</h1><% else %><h2>{title}</h2><% end %>" ++
    "<%= for x of xs %><li>{x} of {title}</li><% end %>", "headed"⟩

def headedBindings (xs : List Value) : Record Value :=
  [("wide", .flag true), ("title", .text "T"), ("xs", .list 0 xs)]

end LiveTemplate
