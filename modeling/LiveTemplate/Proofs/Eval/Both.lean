import LiveTemplate.Proofs.Eval.Members

/-!
Two evaluations at once. They are related when, from identities that stand for each other, both fail
with the same fault or both come to results that are related.
-/

namespace LiveTemplate

set_option autoImplicit false

/-- The identities given out from here on stand for each other in turn. -/
def Pairing.Ahead (σ : Pairing) (n m : Identity) : Prop := ∀ k, σ (n + k) (m + k)

theorem Pairing.Ahead.here {σ : Pairing} {n m : Identity} (h : σ.Ahead n m) : σ n m := h 0

theorem Pairing.Ahead.next {σ : Pairing} {n m : Identity} (h : σ.Ahead n m) :
    σ.Ahead (n + 1) (m + 1) := fun k => by
  rw [Nat.add_right_comm n 1 k, Nat.add_right_comm m 1 k]
  exact h (k + 1)

/-- The same fault, or related results. -/
def SameOutcome {ε α β : Type} (R : α → β → Prop) : Except ε α → Except ε β → Prop
  | .ok a, .ok b => R a b
  | .error e, .error f => e = f
  | _, _ => False

/-- Two steps that may give out identities come to related results. -/
def FreshBoth (σ : Pairing) {α β : Type} (R : α → β → Prop) (x : Fresh α) (y : Fresh β) : Prop :=
  ∀ n m, σ.Ahead n m → R (x.run n).1 (y.run m).1 ∧ σ.Ahead (x.run n).2 (y.run m).2

/-- Two evaluations come to the same fault or to related results. -/
def Both (σ : Pairing) {α β : Type} (R : α → β → Prop) (x : Eval α) (y : Eval β) : Prop :=
  FreshBoth σ (SameOutcome R) x.run y.run

section Fresh
variable {σ : Pairing} {α β α' β' : Type} {R : α → β → Prop} {S : α' → β' → Prop}

theorem FreshBoth.pure {a : α} {b : β} (h : R a b) :
    FreshBoth σ R (Pure.pure a) (Pure.pure b) := fun _ _ hnm => ⟨h, hnm⟩

theorem FreshBoth.bind {x : Fresh α} {y : Fresh β} {f : α → Fresh α'} {g : β → Fresh β'}
    (hx : FreshBoth σ R x y) (hf : ∀ a b, R a b → FreshBoth σ S (f a) (g b)) :
    FreshBoth σ S (x >>= f) (y >>= g) := fun n m hnm => by
  obtain ⟨hR, hahead⟩ := hx n m hnm
  exact hf _ _ hR _ _ hahead

theorem FreshBoth.imp {T : α → β → Prop} {x : Fresh α} {y : Fresh β} (hx : FreshBoth σ R x y)
    (h : ∀ a b, R a b → T a b) : FreshBoth σ T x y :=
  fun n m hnm => ⟨h _ _ (hx n m hnm).1, (hx n m hnm).2⟩

theorem freshBoth_freshId : FreshBoth σ σ freshId freshId := fun _ _ hnm => ⟨hnm.here, hnm.next⟩

theorem SameOutcome.imp {ε : Type} {T : α → β → Prop} {x : Except ε α} {y : Except ε β}
    (hx : SameOutcome R x y) (h : ∀ a b, R a b → T a b) : SameOutcome T x y := by
  match x, y, hx with
  | .ok a, .ok b, hx => exact h a b hx
  | .error e, .error f, hx => exact hx

end Fresh

namespace Both

variable {σ : Pairing} {α β α' β' : Type} {R : α → β → Prop} {S : α' → β' → Prop}

theorem pure {a : α} {b : β} (h : R a b) : Both σ R (Pure.pure a) (Pure.pure b) :=
  FreshBoth.pure h

theorem throw (e : EvalError) :
    Both σ R (MonadExcept.throw e : Eval α) (MonadExcept.throw e : Eval β) := FreshBoth.pure rfl

theorem fail (cause : EvalCause) (span : Span) :
    Both σ R (Eval.fail cause span) (Eval.fail cause span) := throw _

theorem bind {x : Eval α} {y : Eval β} {f : α → Eval α'} {g : β → Eval β'} (hx : Both σ R x y)
    (hf : ∀ a b, R a b → Both σ S (f a) (g b)) : Both σ S (x >>= f) (y >>= g) := by
  change FreshBoth σ _ (x.run >>= ExceptT.bindCont f) (y.run >>= ExceptT.bindCont g)
  refine FreshBoth.bind hx fun a b hab => ?_
  match a, b, hab with
  | .ok a, .ok b, hab => exact hf a b hab
  | .error e, .error f, hab => exact FreshBoth.pure hab

theorem imp {T : α → β → Prop} {x : Eval α} {y : Eval β} (hx : Both σ R x y)
    (h : ∀ a b, R a b → T a b) : Both σ T x y := FreshBoth.imp hx fun _ _ ho => ho.imp h

theorem map {x : Eval α} {y : Eval β} {f : α → α'} {g : β → β'} (hx : Both σ R x y)
    (hf : ∀ a b, R a b → S (f a) (g b)) : Both σ S (f <$> x) (g <$> y) := by
  rw [← bind_pure_comp, ← bind_pure_comp]
  exact hx.bind fun a b hab => pure (hf a b hab)

theorem freshId : Both σ σ (liftM LiveTemplate.freshId : Eval Identity)
    (liftM LiveTemplate.freshId : Eval Identity) := fun _ _ hnm => ⟨hnm.here, hnm.next⟩

theorem newList {xs ys : List Value} (h : List.Forall₂ (Alike σ) xs ys) :
    Both σ (Alike σ) (Eval.newList xs) (Eval.newList ys) :=
  freshId.bind fun _ _ hid => pure (.of_list hid h)

theorem newRecord {fs gs : List (String × Value)} (h : NamesAlike σ fs gs) :
    Both σ (Alike σ) (Eval.newRecord fs) (Eval.newRecord gs) :=
  freshId.bind fun _ _ hid => pure (.of_record hid .plain h)

/-- Tests that agree choose alike. -/
theorem ite {c d : Bool} (hcd : c = d) {x x' : Eval α} {y y' : Eval β}
    (hx : c = true → Both σ R x y) (hx' : c = false → Both σ R x' y') :
    Both σ R (if c then x else x') (if d then y else y') := by
  subst hcd
  cases c with
  | true => exact hx rfl
  | false => exact hx' rfl

/-- A choice between two steps before what comes after both. -/
theorem ite_bind {c d : Bool} (hcd : c = d) {x x' : Eval α} {y y' : Eval β} {f : α → Eval α'}
    {g : β → Eval β'} (hx : c = true → Both σ R x y) (hx' : c = false → Both σ R x' y')
    (hf : ∀ a b, R a b → Both σ S (f a) (g b)) :
    Both σ S (if c then x >>= f else x' >>= f) (if d then y >>= g else y' >>= g) :=
  ite hcd (fun hc => (hx hc).bind hf) fun hc => (hx' hc).bind hf

section Lists
variable {xs : List α} {ys : List β} (h : List.Forall₂ R xs ys)
include h

theorem mapM {f : α → Eval α'} {g : β → Eval β'} (hf : ∀ x y, R x y → Both σ S (f x) (g y)) :
    Both σ (List.Forall₂ S) (xs.mapM f) (ys.mapM g) := by
  induction h with
  | nil => exact pure .nil
  | cons hxy _ ih =>
    rw [List.mapM_cons, List.mapM_cons]
    exact (hf _ _ hxy).bind fun a b hab => ih.bind fun as bs habs => pure (.cons hab habs)

theorem filterAuxM {f : α → Eval Bool} {g : β → Eval Bool}
    (hf : ∀ x y, R x y → Both σ Eq (f x) (g y)) {as : List α} {bs : List β}
    (hacc : List.Forall₂ R as bs) :
    Both σ (List.Forall₂ R) (List.filterAuxM f xs as) (List.filterAuxM g ys bs) := by
  induction h generalizing as bs with
  | nil => exact pure hacc
  | cons hxy _ ih =>
    refine (hf _ _ hxy).bind fun c d hcd => ?_
    subst hcd
    cases c with
    | true => exact ih (.cons hxy hacc)
    | false => exact ih hacc

theorem filterM {f : α → Eval Bool} {g : β → Eval Bool}
    (hf : ∀ x y, R x y → Both σ Eq (f x) (g y)) :
    Both σ (List.Forall₂ R) (xs.filterM f) (ys.filterM g) :=
  (filterAuxM h hf .nil).bind fun _ _ hab => pure (List.rel_reverse hab)

theorem filterMapM {f : α → Eval (Option α')} {g : β → Eval (Option β')}
    (hf : ∀ x y, R x y → Both σ (Option.Rel S) (f x) (g y)) :
    Both σ (List.Forall₂ S) (xs.filterMapM f) (ys.filterMapM g) := by
  induction h with
  | nil => exact pure .nil
  | cons hxy _ ih =>
    rw [List.filterMapM_cons, List.filterMapM_cons]
    refine (hf _ _ hxy).bind fun a b hab => ?_
    cases hab with
    | none => exact ih
    | some hab => exact ih.bind fun as bs habs => pure (.cons hab habs)

theorem findM? {f : α → Eval Bool} {g : β → Eval Bool}
    (hf : ∀ x y, R x y → Both σ Eq (f x) (g y)) :
    Both σ (Option.Rel R) (xs.findM? f) (ys.findM? g) := by
  induction h with
  | nil => exact pure .none
  | cons hxy _ ih =>
    refine (hf _ _ hxy).bind fun c d hcd => ?_
    subst hcd
    cases c with
    | true => exact pure (.some hxy)
    | false => exact ih

theorem anyM {f : α → Eval Bool} {g : β → Eval Bool}
    (hf : ∀ x y, R x y → Both σ Eq (f x) (g y)) : Both σ Eq (xs.anyM f) (ys.anyM g) := by
  induction h with
  | nil => exact pure rfl
  | cons hxy _ ih =>
    refine (hf _ _ hxy).bind fun c d hcd => ?_
    subst hcd
    cases c with
    | true => exact pure rfl
    | false => exact ih

theorem allM {f : α → Eval Bool} {g : β → Eval Bool}
    (hf : ∀ x y, R x y → Both σ Eq (f x) (g y)) : Both σ Eq (xs.allM f) (ys.allM g) := by
  induction h with
  | nil => exact pure rfl
  | cons hxy _ ih =>
    refine (hf _ _ hxy).bind fun c d hcd => ?_
    subst hcd
    cases c with
    | true => exact ih
    | false => exact pure rfl

theorem foldlM {f : α' → α → Eval α'} {g : β' → β → Eval β'}
    (hf : ∀ s t x y, S s t → R x y → Both σ S (f s x) (g t y)) {s : α'} {t : β'} (hst : S s t) :
    Both σ S (xs.foldlM f s) (ys.foldlM g t) := by
  induction h generalizing s t with
  | nil => exact pure hst
  | cons hxy _ ih =>
    rw [List.foldlM_cons, List.foldlM_cons]
    exact (hf _ _ _ _ hst hxy).bind fun _ _ hst => ih hst

end Lists

end Both

end LiveTemplate
