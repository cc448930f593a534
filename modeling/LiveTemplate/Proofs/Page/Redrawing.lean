import LiveTemplate.Proofs.Eval.BoundNames
import LiveTemplate.Proofs.Page.Drawing
import LiveTemplate.Proofs.Page.Following

/-!
A render next to a drawing. While a render that skips plans gives out fewer identities than a drawing of
all of them, both come to the same, wherever from some identities on they start. What a render left
behind earlier can be told by a drawing of the bindings of that time.
-/

namespace LiveTemplate

set_option autoImplicit false

/-! ### Renders that redraw -/

/-- Wherever they start from some identity on, a render and a drawing come to an end that is told alike,
and neither goes back to what is older; the render mounts nothing. -/
def Redraws (m : Identity) {α β : Type} (E : RenderError → EvalError → Prop) (R : α → β → Prop)
    (x : Render α) (y : Eval β) : Prop :=
  ∀ s : RenderState, m ≤ s.journal.nextId → ∀ i ≥ m,
    EndsAlike E R (x.run.run s).1 (y.run.run i).1 ∧ m ≤ (x.run.run s).2.journal.nextId ∧
      m ≤ (y.run.run i).2 ∧ (x.run.run s).2.mounts.renders = s.mounts.renders

namespace Redraws

variable {m : Identity} {α β α' β' : Type} {E F : RenderError → EvalError → Prop}
  {R : α → β → Prop} {S : α' → β' → Prop} {x : Render α} {y : Eval β}

theorem pure {a : α} {b : β} (h : R a b) : Redraws m E R (Pure.pure a) (Pure.pure b) :=
  fun _ hs _ hi => ⟨h, hs, hi, rfl⟩

theorem bind {f : α → Render α'} {g : β → Eval β'} (hx : Redraws m E R x y)
    (hf : ∀ a b, R a b → Redraws m E S (f a) (g b)) : Redraws m E S (x >>= f) (y >>= g) := by
  intro s hs i hi
  obtain ⟨hend, hns, hni, hstill⟩ := hx s hs i hi
  rw [Sound.run_bind, Sound.run_bind]
  cases hrx : x.run.run s with
  | mk rx s' =>
    cases hry : y.run.run i with
    | mk ry j =>
      rw [hrx] at hend hns hstill
      rw [hry] at hend hni
      match rx, ry, hend with
      | .ok a, .ok b, hR =>
        rw [← hstill]
        exact hf a b hR s' hns j hni
      | .error f, .error e, hE => exact ⟨hE, hns, hni, hstill⟩

theorem imp {T : α → β → Prop} (hx : Redraws m E R x y) (hE : ∀ f e, E f e → F f e)
    (hR : ∀ a b, R a b → T a b) : Redraws m F T x y := by
  intro s hs i hi
  obtain ⟨hend, hnext⟩ := hx s hs i hi
  refine ⟨?_, hnext⟩
  revert hend
  cases (x.run.run s).1 <;> cases (y.run.run i).1 <;> intro hend
  · exact hE _ _ hend
  · exact hend
  · exact hend
  · exact hR _ _ hend

theorem map {k : α → α'} {l : β → β'} (hx : Redraws m E R x y) (h : ∀ a b, R a b → S (k a) (l b)) :
    Redraws m E S (k <$> x) (l <$> y) := by
  rw [← bind_pure_comp, ← bind_pure_comp]
  exact hx.bind fun a b hab => pure (h a b hab)

theorem mapM {γ δ : Type} {Q : γ → δ → Prop} {f : γ → Render α} {g : δ → Eval β} {xs : List γ}
    {ys : List δ} (h : List.Forall₂ Q xs ys) (hf : ∀ c d, Q c d → Redraws m E R (f c) (g d)) :
    Redraws m E (List.Forall₂ R) (xs.mapM f) (ys.mapM g) := by
  induction h with
  | nil => exact pure .nil
  | cons hcd _ ih =>
    rw [List.mapM_cons, List.mapM_cons]
    exact (hf _ _ hcd).bind fun a b hab => ih.bind fun as bs habs => pure (.cons hab habs)

/-- A step that follows doing nothing may come before. -/
theorem after {step : Render α'} {f : α' → Render α} {T : α' → Unit → Prop}
    (hstep : Redraws m E T step (Pure.pure ())) (hf : ∀ a, T a () → Redraws m E R (f a) y) :
    Redraws m E R (step >>= f) y := by
  have h := hstep.bind (g := fun _ => y) fun a _ ha => hf a ha
  rwa [pure_bind] at h

/-- A render that follows a drawing redraws it, if that comes to the same wherever it starts. -/
theorem of_follows (hx : Follows E R x y) (hy : Repeats m m Eq y y) : Redraws m E R x y := by
  intro s hs i hi
  obtain ⟨hend, hnext, hstill⟩ := hx s
  obtain ⟨hsame, hns, hni⟩ := hy _ hs i hi
  have hresult : (y.run.run s.journal.nextId).1 = (y.run.run i).1 := hsame.eq
  rw [hresult] at hend
  exact ⟨hend, hnext ▸ hns, hni, hstill⟩

/-- A render that starts with a step it follows. What that comes to was given out by its end, and the
drawing as a whole comes to the same wherever it starts. -/
theorem head {P : Identity → β → Prop} {f : α → Render α'} {g : β → Eval β'}
    (hx : Follows E R x y) (hy : Advances m P y) (hyg : Repeats m m Eq (y >>= g) (y >>= g))
    (hf : ∀ k ≥ m, ∀ a b, R a b → P k b → Redraws k E S (f a) (g b)) :
    Redraws m E S (x >>= f) (y >>= g) := by
  intro s hs i hi
  -- The drawing is taken from where the render starts, so that the step comes to the same values.
  have hstart : EndsAlike E S ((x >>= f).run.run s).1 ((y >>= g).run.run s.journal.nextId).1 ∧
      m ≤ ((x >>= f).run.run s).2.journal.nextId ∧
        ((x >>= f).run.run s).2.mounts.renders = s.mounts.renders := by
    obtain ⟨hend, hnext, hstill⟩ := hx s
    obtain ⟨hgrown, hgiven⟩ := hy _ hs
    have hlater := Nat.le_trans hs hgrown
    rw [Sound.run_bind, Sound.run_bind]
    cases hrx : x.run.run s with
    | mk rx s' =>
      cases hry : y.run.run s.journal.nextId with
      | mk ry k =>
        rw [hrx, hry] at hend hnext
        rw [hrx] at hstill
        rw [hry] at hgiven hlater
        match rx, ry, hend with
        | .ok a, .ok b, hR =>
          obtain ⟨hrest, hns, -, hthen⟩ := hf k hlater a b hR hgiven s' (Nat.le_of_eq hnext.symm) k
            (Nat.le_refl k)
          exact ⟨hrest, Nat.le_trans hlater hns, hthen.trans hstill⟩
        | .error f, .error e, hE => exact ⟨hE, hnext ▸ hlater, hstill⟩
  obtain ⟨hsame, -, hni⟩ := hyg _ hs i hi
  have hresult : ((y >>= g).run.run s.journal.nextId).1 = ((y >>= g).run.run i).1 := hsame.eq
  rw [hresult] at hstart
  exact ⟨hstart.1, hstart.2.1, hni, hstart.2.2⟩

/-- Placing places every fault that is not placed yet. -/
theorem placing {source : Source} (hx : Redraws m (Raised source) R x y) :
    Redraws m (PlacedFault source) R (Render.placing source x) y := by
  intro s hs i hi
  obtain ⟨hend, hrest⟩ := hx s hs i hi
  rw [Render.placing, run_tryCatch]
  cases hrx : x.run.run s with
  | mk rx s' =>
    rw [hrx] at hend hrest
    cases hry : (y.run.run i).1 with
    | ok b =>
      rw [hry] at hend
      cases rx with
      | ok a => exact ⟨hend, hrest⟩
      | error f => exact hend.elim
    | error e =>
      rw [hry] at hend
      cases rx with
      | ok a => exact hend.elim
      | error f =>
        rcases hend with rfl | rfl
        · cases e <;> exact ⟨rfl, hrest⟩
        · cases e <;> exact ⟨rfl, hrest⟩

theorem emit (event : Event) : Redraws m E (fun _ _ => True) (Render.emit event) (Pure.pure ()) :=
  fun _ hs _ hi => ⟨trivial, hs, hi, rfl⟩

theorem newPart : Redraws m E (fun _ _ => True) Render.newPart (Pure.pure ()) :=
  fun _ hs _ hi => ⟨trivial, hs, hi, rfl⟩

theorem newDynamic {content : Content} {R : Dynamic → β → Prop} {b : β}
    (h : ∀ id, R ⟨id, content⟩ b) : Redraws m E R (Render.newDynamic content) (Pure.pure b) :=
  fun _ hs _ hi => ⟨h _, hs, hi, rfl⟩

theorem ofTree {x : Except TreeError α} {a : α} {b : β} (hx : x = .ok a) (h : R a b) :
    Redraws m E R (Render.ofTree x) (Pure.pure b) := by
  subst hx
  exact fun _ hs _ hi => ⟨h, hs, hi, rfl⟩

end Redraws

/-! ### What was drawn earlier -/

/-- What steps in turn come to, if the first goes on to what was given out by its end. -/
theorem ComesTo.bind_advances {n : Identity} {α β : Type} {P : Identity → α → Prop} {x : Eval α}
    {f : α → Eval β} (hx : Advances n P x) {b : β} (h : ComesTo n (x >>= f) b) :
    ∃ k ≥ n, ∃ a, P k a ∧ ComesTo n x a ∧ ComesTo k (f a) b := by
  obtain ⟨i, hi, h⟩ := h
  obtain ⟨hgrown, hgiven⟩ := hx i hi
  rw [Sound.run_bind] at h
  cases hrun : x.run.run i with
  | mk result k =>
    rw [hrun] at h hgrown hgiven
    cases result with
    | error e => cases h
    | ok a => exact ⟨k, Nat.le_trans hi hgrown, a, hgiven, ⟨i, hi, by rw [hrun]⟩, k, Nat.le_refl k, h⟩

theorem ComesTo.mapM_advances {n : Identity} {α β : Type} {P : Identity → β → Prop} {f : α → Eval β}
    {xs : List α} (hf : ∀ x ∈ xs, Advances n P (f x)) {ys : List β}
    (h : ComesTo n (xs.mapM f) ys) : List.Forall₂ (fun x y => ComesTo n (f x) y) xs ys := by
  induction xs generalizing ys with
  | nil =>
    rw [List.mapM_nil] at h
    exact h.pure ▸ .nil
  | cons x rest ih =>
    rw [List.forall_mem_cons] at hf
    rw [List.mapM_cons] at h
    obtain ⟨k, hk, y, -, hy, h⟩ := h.bind_advances hf.1
    obtain ⟨j, -, more, -, hmore, h⟩ := h.bind_advances
      (Advances.mapM (Q := fun _ _ => True) (fun _ _ => trivial)
        fun x hx => ((hf.2 x hx).later hk).imp fun _ _ _ _ => trivial)
    exact h.pure ▸ .cons hy (ih hf.2 (hmore.mono hk))

theorem mem_foldl_putName {held names : List String} {x : String} :
    x ∈ names.foldl putName held ↔ x ∈ held ∨ x ∈ names := by
  induction names generalizing held with
  | nil => simp
  | cons name rest ih =>
    have hput : x ∈ putName held name ↔ x ∈ held ∨ x = name := by
      rw [putName]
      split
      · rename_i hname
        exact ⟨.inl, fun h => h.elim id fun hx => hx ▸ hname⟩
      · rw [List.mem_append, List.mem_singleton]
    rw [List.foldl_cons, ih, hput, List.mem_cons, or_assoc]

/-- The names a pattern binds come to those bound before. -/
theorem Pattern.yields_bindOver (p : Pattern) (v : Value) (s : Scope)
    (names : Assoc String Value) : Yields (fun _ : Nat => True)
      (fun ns => ∀ x, x ∈ Assoc.keys ns ↔ x ∈ Assoc.keys names ∨ x ∈ p.boundNames)
      (p.bindOver v s names) := by
  intro n _
  refine ⟨?_, trivial⟩
  have hover : ((Layer.over names p.makesFunction).run n).1.names = names := by
    cases p.makesFunction <;> rfl
  have hputs := Pattern.puts Value.call s p v ((Layer.over names p.makesFunction).run n).1
    ((Layer.over names p.makesFunction).run n).2
  rw [hover] at hputs
  change IfOk _ (((StateT.run (p.bind Value.call s v).run
    ((Layer.over names p.makesFunction).run n).1).run
      ((Layer.over names p.makesFunction).run n).2).1.1.map fun _ =>
        ((StateT.run (p.bind Value.call s v).run ((Layer.over names p.makesFunction).run n).1).run
          ((Layer.over names p.makesFunction).run n).2).1.2.finished)
  revert hputs
  cases ((StateT.run (p.bind Value.call s v).run ((Layer.over names p.makesFunction).run n).1).run
    ((Layer.over names p.makesFunction).run n).2).1.1 with
  | error e => exact fun _ => trivial
  | ok _ =>
    intro hputs x
    rw [keys_finished, show Assoc.keys _ = _ from hputs]
    exact mem_foldl_putName

/-! #### Drawn parts -/

/-- A content stands for a drawn one: it is the same apart from identities, and mounts nothing. -/
def Content.StandsFor (c drawn : Content) : Prop := c.Same drawn ∧ c.refs = []

def Dynamic.StandsFor (d drawn : Dynamic) : Prop := d.content.StandsFor drawn.content

def Row.StandsFor (r drawn : Row) : Prop :=
  List.Forall₂ Dynamic.StandsFor r.dynamics drawn.dynamics

def Tree.StandsFor (t drawn : Tree) : Prop := t.Same drawn ∧ t.refs = []

theorem Dynamic.allStandFor_iff {ds es : List Dynamic} :
    List.Forall₂ Dynamic.StandsFor ds es ↔ Dynamic.AllSame ds es ∧ Dynamic.allRefs ds = [] := by
  induction ds generalizing es with
  | nil =>
    cases es with
    | nil => exact ⟨fun _ => ⟨rfl, rfl⟩, fun _ => .nil⟩
    | cons e es => exact ⟨nofun, fun h => nomatch h.1⟩
  | cons d ds ih =>
    cases es with
    | nil => exact ⟨nofun, fun h => nomatch h.1⟩
    | cons e es =>
      have hfirst : d.StandsFor e ↔ d.anonymous = e.anonymous ∧ d.refs = [] :=
        and_congr Dynamic.same_iff.symm (by rw [Dynamic.refs_eq])
      rw [List.forall₂_cons, ih, hfirst, Dynamic.AllSame, Dynamic.AllSame, Dynamic.allAnonymous.eq_2,
        Dynamic.allAnonymous.eq_2, List.cons.injEq, Dynamic.allRefs, List.append_eq_nil_iff]
      exact and_and_and_comm

theorem Row.allStandFor_iff {rs qs : List Row} : List.Forall₂ Row.StandsFor rs qs ↔
    Row.allAnonymous rs = Row.allAnonymous qs ∧ Row.allRefs rs = [] := by
  induction rs generalizing qs with
  | nil =>
    cases qs with
    | nil => exact ⟨fun _ => ⟨rfl, rfl⟩, fun _ => .nil⟩
    | cons q qs => exact ⟨nofun, fun h => nomatch h.1⟩
  | cons r rs ih =>
    cases qs with
    | nil => exact ⟨nofun, fun h => nomatch h.1⟩
    | cons q qs =>
      have hfirst : r.StandsFor q ↔ r.anonymous = q.anonymous ∧ r.refs = [] :=
        Dynamic.allStandFor_iff.trans (and_congr Row.same_iff.symm (by rw [Row.refs_eq]))
      rw [List.forall₂_cons, ih, hfirst, Row.allAnonymous.eq_2, Row.allAnonymous.eq_2,
        List.cons.injEq, Row.allRefs, List.append_eq_nil_iff]
      exact and_and_and_comm

theorem Tree.standsFor_mk {id id' : Identity} {statics : List String} {ds es : List Dynamic}
    {fingerprint : String} {root : Bool} (h : List.Forall₂ Dynamic.StandsFor ds es) :
    Tree.StandsFor ⟨id, statics, ds, fingerprint, root⟩ ⟨id', statics, es, fingerprint, root⟩ :=
  ⟨Tree.same_iff.mpr ⟨rfl, (Dynamic.allStandFor_iff.mp h).1, rfl, rfl⟩,
    (Dynamic.allStandFor_iff.mp h).2⟩

theorem Tree.StandsFor.dynamics {t drawn : Tree} (h : t.StandsFor drawn) :
    List.Forall₂ Dynamic.StandsFor t.dynamics drawn.dynamics :=
  Dynamic.allStandFor_iff.mpr ⟨(Tree.same_iff.mp h.1).2.1, t.refs_eq ▸ h.2⟩

theorem Content.standsFor_nested {t drawn : Tree} :
    (Content.nested t).StandsFor (.nested drawn) ↔ t.StandsFor drawn := by
  rw [Content.StandsFor, Content.Same, Content.anonymous, Content.anonymous, Content.nested.injEq]
  rfl

theorem Content.standsFor_rows {fingerprint : String} {statics : List String} {rs qs : List Row} :
    (Content.rows fingerprint statics rs).StandsFor (.rows fingerprint statics qs) ↔
      List.Forall₂ Row.StandsFor rs qs := by
  rw [Content.StandsFor, Content.Same, Content.anonymous, Content.anonymous, Row.allStandFor_iff,
    Content.rows.injEq]
  simp only [true_and]
  rfl

/-! #### What plans left behind -/

theorem exists_of_forall₂ {α β : Type} {R : α → β → Prop} {xs : List α} {ys : List β}
    (h : List.Forall₂ R xs ys) {x : α} (hx : x ∈ xs) : ∃ y ∈ ys, R x y := by
  induction h with
  | nil => cases hx
  | cons hxy _ ih =>
    rcases List.mem_cons.mp hx with rfl | hx
    · exact ⟨_, List.mem_cons_self, hxy⟩
    · obtain ⟨y, hy, hR⟩ := ih hx
      exact ⟨y, List.mem_cons_of_mem _ hy, hR⟩

/-- A dynamic that a plan left behind when it was drawn in a frame. -/
def Plan.Left (f : Frame) (n : Identity) (p : Plan) (d : Dynamic) : Prop :=
  ∃ c, ComesTo n (p.draw f.outer f.locals) c ∧ d.content.StandsFor c

section Left
variable {scope : NameScope} {f : Frame} {n : Identity} (hn : 0 < n) (hf : f.scope.Given n)
include hn hf

/-- The dynamics of drawn plans are what each of them left behind. -/
theorem Plan.left_of_drawAll {plans : List Plan} (ht : Plan.AllTracked scope plans)
    {es ds : List Dynamic} (h : ComesTo n (Plan.drawAll f.outer f.locals plans) es)
    (hds : List.Forall₂ Dynamic.StandsFor ds es) : List.Forall₂ (Plan.Left f n) plans ds := by
  induction plans generalizing es ds with
  | nil =>
    rw [Plan.drawAll] at h
    obtain rfl := h.pure
    cases hds
    exact .nil
  | cons p rest ih =>
    have hall := ht
    rw [Plan.AllTracked] at ht
    rw [Plan.drawAll] at h
    have hfirst : Repeats n n Eq (p.draw f.outer f.locals) (p.draw f.outer f.locals) :=
      Plan.repeats_draw hn hf f.plain_outer ht.1
    obtain ⟨c, hc, h⟩ := h.bind hfirst
    obtain ⟨k, -, more, -, hmore, h⟩ :=
      h.bind_advances (Plan.advances_drawAll hn hf f.plain_outer ht.2)
    obtain rfl := h.pure
    cases hds with
    | cons hd hrest => exact .cons ⟨c, hc, hd⟩ (ih ht.2 hmore hrest)

/-- A tree that branches are drawn to is of one of them. -/
theorem BranchPlan.exists_of_drawFirst {branches : List BranchPlan}
    (ht : BranchPlan.AllTracked scope branches) {tree : Tree}
    (h : ComesTo n (drawFirst f.outer f.locals branches) (.nested tree)) :
    ∃ b ∈ branches, tree.fingerprint = b.body.fingerprint ∧
      ComesTo n (Plan.drawAll f.outer f.locals b.body.plans) tree.dynamics := by
  induction branches with
  | nil =>
    rw [drawFirst] at h
    cases h.pure
  | cons b rest ih =>
    obtain ⟨condition, ⟨statics, plans, fingerprint, root, inside⟩⟩ := b
    rw [BranchPlan.AllTracked, Fragment.Tracked] at ht
    have hbody : ComesTo n (Content.nested <$>
          Fragment.draw f.outer f.locals ⟨statics, plans, fingerprint, root, inside⟩) (.nested tree) →
        tree.fingerprint = fingerprint ∧
          ComesTo n (Plan.drawAll f.outer f.locals plans) tree.dynamics := by
      intro hnested
      obtain ⟨t, hdrawn, hsame⟩ := hnested.map
      rw [Fragment.draw] at hdrawn
      obtain ⟨k, -, es, -, hes, hdrawn⟩ :=
        hdrawn.bind_advances (Plan.advances_drawAll hn hf f.plain_outer ht.2.1.2.1)
      obtain rfl := Content.nested.inj hsame
      obtain rfl := hdrawn.pure
      exact ⟨rfl, hes⟩
    cases condition with
    | none =>
      rw [drawFirst] at h
      exact ⟨_, List.mem_cons_self, hbody h⟩
    | some e =>
      rw [drawFirst] at h
      obtain ⟨k, hk, v, -, -, h⟩ := h.bind_advances (Expr.supplied_eval hn hf e)
      split at h
      · exact ⟨_, List.mem_cons_self, hbody (h.mono hk)⟩
      · obtain ⟨b, hb, hrest⟩ := ih ht.2.2 (h.mono hk)
        exact ⟨b, List.mem_cons_of_mem _ hb, hrest⟩

/-- The tree that a conditional left behind is of one of its branches. -/
theorem Plan.Left.branch {branches : List BranchPlan} (ht : BranchPlan.AllTracked scope branches)
    {reads : Reads} {span : Span} {d : Dynamic} (h : Plan.Left f n (.conditional branches reads span) d)
    {tree : Tree} (htree : earlierTree (some d) = some tree) :
    ∃ b ∈ branches, tree.fingerprint = b.body.fingerprint ∧ ∃ es,
      ComesTo n (Plan.drawAll f.outer f.locals b.body.plans) es ∧
        List.Forall₂ Dynamic.StandsFor tree.dynamics es := by
  obtain ⟨c, hc, hd⟩ := h
  rw [Plan.draw] at hc
  obtain ⟨id, content⟩ := d
  cases content with
  | nested t =>
    obtain rfl : t = tree := Option.some.inj htree
    cases c with
    | nested drawn =>
      obtain ⟨b, hb, hfingerprint, hes⟩ := BranchPlan.exists_of_drawFirst hn hf ht hc
      have hstands : t.StandsFor drawn := Content.standsFor_nested.mp hd
      exact ⟨b, hb, (Tree.same_iff.mp hstands.1).2.2.1.trans hfingerprint, _, hes, hstands.dynamics⟩
    | _ => cases hd.1
  | _ => cases htree

/-- Each row that a loop left behind was drawn with the names of its pattern bound to some values. -/
theorem Plan.Left.rows {header : ForHeader} {statics : List String} {plans : List Plan}
    {fingerprint : String} {root : Bool} {inside reads : Reads} {span : Span} (ht : Plan.Tracked scope
      (.comprehension header ⟨statics, plans, fingerprint, root, inside⟩ reads span)) {d : Dynamic}
    (h : Plan.Left f n (.comprehension header ⟨statics, plans, fingerprint, root, inside⟩ reads span) d)
    {rows : List Row} (hrows : earlierRows (some d) fingerprint = some rows) :
    ∀ row ∈ rows, ∃ k ≥ n, ∃ names : Assoc String Value, NamesGiven k names ∧
      (∀ x, x ∈ Assoc.keys names ↔ x ∈ Assoc.keys f.locals ∨ x ∈ header.pattern.boundNames) ∧
        ∃ es, ComesTo k (Plan.drawAll f.outer names plans) es ∧
          List.Forall₂ Dynamic.StandsFor row.dynamics es := by
  obtain ⟨known, hc⟩ := ht.confined
  rw [Plan.Confined] at hc
  obtain ⟨-, hpattern, hfunction, hplans⟩ := hc
  rw [Plan.Tracked, Fragment.Tracked] at ht
  obtain ⟨c, hc, hd⟩ := h
  rw [Plan.draw] at hc
  obtain ⟨k, hk, source, hsource, -, hc⟩ := hc.bind_advances (Expr.supplied_eval hn hf header.items)
  obtain ⟨drawn, hdrawn, rfl⟩ := hc.map
  have hpos := Nat.lt_of_lt_of_le hn hk
  rw [drawRows] at hdrawn
  obtain ⟨j, hj, items, hitems, -, hdrawn⟩ :=
    hdrawn.bind_advances (advances_items hpos supplies_call hsource header.items.span)
  have hpos' := Nat.lt_of_lt_of_le hpos hj
  have hlater := hf.later (Nat.le_trans hk hj)
  have hnames : ∀ item ∈ items, Advances j (fun i ns => NamesGiven i ns ∧
      ∀ x, x ∈ Assoc.keys ns ↔ x ∈ Assoc.keys f.locals ∨ x ∈ header.pattern.boundNames)
      (header.pattern.bindOver item f.scope f.locals) := fun item hitem =>
    (header.pattern.advances_bindOver hpos' hlater (List.forall₂_same.mp hitems item hitem)
      (List.forall₂_cons.mp hlater).1.names).and_yields (header.pattern.yields_bindOver _ _ _)
  have hbody : ∀ {i : Identity}, 0 < i → f.outer.Given i → ∀ {ns : Assoc String Value},
      NamesGiven i ns → Advances i (fun _ _ => True) (Plan.drawAll f.outer ns plans) :=
    fun hi houter _ hns => Plan.advances_drawAll hi (.cons ⟨.inl ⟨rfl, rfl⟩, hns⟩ houter)
      f.plain_outer ht.2.1.2.1
  have houter := (List.forall₂_cons.mp hlater).2
  have hrow : ∀ item ∈ items, Advances j (fun _ _ => True) (drawRow header.pattern f.outer f.locals
      (fun names => Plan.drawAll f.outer names plans) item) := fun item hitem =>
    (hnames item hitem).bind fun i hi ns hns => (hbody (Nat.lt_of_lt_of_le hpos' hi)
      (Scope.Given.later hi houter) hns.1).map fun _ _ _ _ => trivial
  obtain ⟨id, content⟩ := d
  cases content with
  | rows before statics' rows' =>
    have hbefore : before = fingerprint ∧ rows' = rows := by
      rw [earlierRows] at hrows
      split at hrows
      · exact ⟨‹_›, Option.some.inj hrows⟩
      · cases hrows
    obtain ⟨rfl, rfl⟩ := hbefore
    obtain rfl : statics' = statics := (Content.rows.inj hd.1).2.1
    intro row hmem
    obtain ⟨q, hq, hstands⟩ := exists_of_forall₂ (Content.standsFor_rows.mp hd) hmem
    obtain ⟨item, hitem, hdrawnRow⟩ := exists_of_forall₂ (ComesTo.mapM_advances hrow hdrawn).flip hq
    obtain ⟨i, hi, ns, hns, -, hdrawnRow⟩ := ComesTo.bind_advances (hnames item hitem) hdrawnRow
    obtain ⟨es, hes, rfl⟩ := hdrawnRow.map
    exact ⟨i, Nat.le_trans (Nat.le_trans hk hj) hi, ns, hns.1, hns.2, es, hes, hstands⟩
  | _ => cases hrows

end Left

end LiveTemplate
