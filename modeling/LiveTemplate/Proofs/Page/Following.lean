import LiveTemplate.Proofs.Render.Soundness
import Mathlib.Data.List.Forall2

/-!
A render next to an evaluation. The render follows the evaluation if, from the same unused
identities, both come to an end that is told alike, and leave the same identities unused, while the
render mounts nothing. Steps of the render that evaluate nothing follow an evaluation that does nothing.
-/

namespace LiveTemplate

set_option autoImplicit false

/-- The fault of a render for a fault of evaluation, placed in a source. -/
def RenderError.placedIn (source : Source) : EvalError → RenderError
  | .failed cause span => .placed cause source.file (source.positionAt span.start)
  | e => .eval e

/-- A fault that a plan may raise before it is placed. -/
def Raised (source : Source) (f : RenderError) (e : EvalError) : Prop :=
  f = .eval e ∨ f = .placedIn source e

def PlacedFault (source : Source) (f : RenderError) (e : EvalError) : Prop := f = .placedIn source e

/-- Faults, or results, that stand for each other. -/
def EndsAlike {α β : Type} (E : RenderError → EvalError → Prop) (R : α → β → Prop) :
    Except RenderError α → Except EvalError β → Prop
  | .ok a, .ok b => R a b
  | .error f, .error e => E f e
  | _, _ => False

def Follows {α β : Type} (E : RenderError → EvalError → Prop) (R : α → β → Prop) (x : Render α)
    (y : Eval β) : Prop :=
  ∀ s : RenderState, EndsAlike E R (x.run.run s).1 (y.run.run s.journal.nextId).1 ∧
    (x.run.run s).2.journal.nextId = (y.run.run s.journal.nextId).2 ∧
      (x.run.run s).2.mounts.renders = s.mounts.renders

namespace Follows

variable {α β α' β' : Type} {E F : RenderError → EvalError → Prop} {R : α → β → Prop}
  {S : α' → β' → Prop} {x : Render α} {y : Eval β}

theorem pure {a : α} {b : β} (h : R a b) : Follows E R (Pure.pure a) (Pure.pure b) :=
  fun _ => ⟨h, rfl, rfl⟩

theorem bind {f : α → Render α'} {g : β → Eval β'} (hx : Follows E R x y)
    (hf : ∀ a b, R a b → Follows E S (f a) (g b)) : Follows E S (x >>= f) (y >>= g) := by
  intro s
  obtain ⟨hend, hnext, hstill⟩ := hx s
  rw [Sound.run_bind, Sound.run_bind]
  cases hrx : x.run.run s with
  | mk rx s' =>
    cases hry : y.run.run s.journal.nextId with
    | mk ry n =>
      rw [hrx, hry] at hend hnext
      rw [hrx] at hstill
      match rx, ry, hend with
      | .ok a, .ok b, hR =>
        simp only at hnext hstill ⊢
        rw [← hnext, ← hstill]
        exact hf a b hR s'
      | .error f, .error e, hE => exact ⟨hE, hnext, hstill⟩

theorem imp {T : α → β → Prop} (hx : Follows E R x y) (hE : ∀ f e, E f e → F f e)
    (hR : ∀ a b, R a b → T a b) : Follows F T x y := by
  intro s
  obtain ⟨hend, hnext⟩ := hx s
  refine ⟨?_, hnext⟩
  revert hend
  cases (x.run.run s).1 <;> cases (y.run.run s.journal.nextId).1 <;> intro hend
  · exact hE _ _ hend
  · exact hend
  · exact hend
  · exact hR _ _ hend

theorem map {k : α → α'} {l : β → β'} (hx : Follows E R x y) (h : ∀ a b, R a b → S (k a) (l b)) :
    Follows E S (k <$> x) (l <$> y) := by
  rw [← bind_pure_comp, ← bind_pure_comp]
  exact hx.bind fun a b hab => pure (h a b hab)

/-- A step that follows doing nothing may come before. -/
theorem after {step : Render α'} {f : α' → Render α} {T : α' → Unit → Prop}
    (hstep : Follows E T step (Pure.pure ())) (hf : ∀ a, T a () → Follows E R (f a) y) :
    Follows E R (step >>= f) y := by
  have h := hstep.bind (g := fun _ => y) fun a _ ha => hf a ha
  rwa [pure_bind] at h

theorem mapM {γ δ : Type} {Q : γ → δ → Prop} {f : γ → Render α} {g : δ → Eval β} {xs : List γ}
    {ys : List δ} (h : List.Forall₂ Q xs ys) (hf : ∀ c d, Q c d → Follows E R (f c) (g d)) :
    Follows E (List.Forall₂ R) (xs.mapM f) (ys.mapM g) := by
  induction h with
  | nil => exact pure .nil
  | cons hcd _ ih =>
    rw [List.mapM_cons, List.mapM_cons]
    exact (hf _ _ hcd).bind fun a b hab => ih.bind fun as bs habs => pure (.cons hab habs)

/-- Placing places every fault that is not placed yet. -/
theorem placing {source : Source} (hx : Follows (Raised source) R x y) :
    Follows (PlacedFault source) R (Render.placing source x) y := by
  intro s
  obtain ⟨hend, hnext⟩ := hx s
  rw [Render.placing, run_tryCatch]
  cases hrx : x.run.run s with
  | mk rx s' =>
    rw [hrx] at hend hnext
    cases hry : (y.run.run s.journal.nextId).1 with
    | ok b =>
      rw [hry] at hend
      cases rx with
      | ok a => exact ⟨hend, hnext⟩
      | error f => exact hend.elim
    | error e =>
      rw [hry] at hend
      cases rx with
      | ok a => exact hend.elim
      | error f =>
        rcases hend with rfl | rfl
        · cases e <;> exact ⟨rfl, hnext⟩
        · cases e <;> exact ⟨rfl, hnext⟩

theorem ofEval (source : Source) (y : Eval β) :
    Follows (Raised source) Eq (Render.ofEval y) y := by
  intro s
  have hrun : (Render.ofEval y).run.run s =
      ((y.run.run s.journal.nextId).1.mapError .eval,
        { s with journal := { s.journal with nextId := (y.run.run s.journal.nextId).2 } }) := rfl
  rw [hrun]
  refine ⟨?_, rfl, rfl⟩
  cases (y.run.run s.journal.nextId).1 with
  | ok b => exact rfl
  | error e => exact .inl rfl

theorem value {source : Source} (frame : Frame) (e : Expr) :
    Follows (Raised source) Eq (Render.value frame e) (e.eval frame.scope) := ofEval source _

theorem ofEval_map {source : Source} {k : β → α} {R : α → β → Prop} (y : Eval β)
    (h : ∀ b, R (k b) b) : Follows (Raised source) R (k <$> Render.ofEval y) y := by
  have hmap : Follows (Raised source) R (k <$> Render.ofEval y) (id <$> y) :=
    (ofEval source y).map fun a b hab => hab ▸ h a
  rwa [id_map] at hmap

theorem emit (event : Event) : Follows E (fun _ _ => True) (Render.emit event) (Pure.pure ()) :=
  fun _ => ⟨trivial, rfl, rfl⟩

theorem newPart : Follows E (fun _ _ => True) Render.newPart (Pure.pure ()) :=
  fun _ => ⟨trivial, rfl, rfl⟩

theorem newDynamic {content : Content} {R : Dynamic → β → Prop} {b : β}
    (h : ∀ id, R ⟨id, content⟩ b) : Follows E R (Render.newDynamic content) (Pure.pure b) :=
  fun _ => ⟨h _, rfl, rfl⟩

theorem ofTree {x : Except TreeError α} {a : α} {b : β} (hx : x = .ok a) (h : R a b) :
    Follows E R (Render.ofTree x) (Pure.pure b) := by
  subst hx
  exact fun _ => ⟨h, rfl, rfl⟩

end Follows

end LiveTemplate
