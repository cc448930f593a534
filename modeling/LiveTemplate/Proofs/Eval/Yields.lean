import LiveTemplate.Eval.Fault
import Mathlib.Data.List.Forall2

/-!
What work on a state comes to. It keeps an invariant of the state, and unless it fails its result
has a property. Evaluation gives out identities from its state, which are to be among some.
-/

namespace LiveTemplate

set_option autoImplicit false

/-- A step keeps an invariant of the state and comes to a result with a property. -/
def Maintains {σ : Type} (I : σ → Prop) {α : Type} (P : α → Prop) (x : StateM σ α) : Prop :=
  ∀ s, I s → P (x.run s).1 ∧ I (x.run s).2

/-- A result that is no fault has a property. -/
def IfOk {ε α : Type} (P : α → Prop) : Except ε α → Prop
  | .ok a => P a
  | .error _ => True

/-- Work that may fail keeps an invariant, and comes to a result with a property if it comes to one.
-/
def Yields {σ ε : Type} (I : σ → Prop) {α : Type} (P : α → Prop) (x : ExceptT ε (StateM σ) α) :
    Prop := Maintains I (IfOk P) x.run

section Steps
variable {σ : Type} {I : σ → Prop} {α β : Type} {P : α → Prop} {Q : β → Prop}

theorem IfOk.imp {ε : Type} {P' : α → Prop} {x : Except ε α} (hx : IfOk P x)
    (h : ∀ a, P a → P' a) : IfOk P' x := by
  cases x with
  | ok a => exact h a hx
  | error e => trivial

theorem Maintains.pure {a : α} (h : P a) : Maintains I P (Pure.pure a) := fun _ hs => ⟨h, hs⟩

theorem Maintains.bind {x : StateM σ α} {f : α → StateM σ β} (hx : Maintains I P x)
    (hf : ∀ a, P a → Maintains I Q (f a)) : Maintains I Q (x >>= f) := fun s hs =>
  hf _ (hx s hs).1 _ (hx s hs).2

theorem Maintains.imp {P' : α → Prop} {x : StateM σ α} (hx : Maintains I P x)
    (h : ∀ a, P a → P' a) : Maintains I P' x := fun s hs => ⟨h _ (hx s hs).1, (hx s hs).2⟩

end Steps

namespace Yields

variable {σ ε : Type} {I : σ → Prop} {α β : Type} {P : α → Prop} {Q : β → Prop}

theorem pure {a : α} (h : P a) : Yields I P (Pure.pure a : ExceptT ε (StateM σ) α) :=
  Maintains.pure h

theorem throw (e : ε) : Yields I P (MonadExcept.throw e : ExceptT ε (StateM σ) α) :=
  Maintains.pure trivial

theorem fail {I : Identity → Prop} (cause : EvalCause) (span : Span) :
    Yields I P (Eval.fail cause span) := throw _

theorem bind {x : ExceptT ε (StateM σ) α} {f : α → ExceptT ε (StateM σ) β} (hx : Yields I P x)
    (hf : ∀ a, P a → Yields I Q (f a)) : Yields I Q (x >>= f) := by
  change Maintains I _ (x.run >>= ExceptT.bindCont f)
  refine Maintains.bind hx fun a ha => ?_
  cases a with
  | ok a => exact hf a ha
  | error e => exact Maintains.pure trivial

theorem imp {P' : α → Prop} {x : ExceptT ε (StateM σ) α} (hx : Yields I P x)
    (h : ∀ a, P a → P' a) : Yields I P' x := Maintains.imp hx fun _ ha => ha.imp h

/-- What work comes to, from a state with the invariant. -/
theorem of_run {x : ExceptT ε (StateM σ) α} (hx : Yields I P x) {s : σ} (hs : I s) {a : α}
    (ha : (x.run.run s).1 = .ok a) : P a := by
  have hp := (hx s hs).1
  change IfOk P (x.run.run s).1 at hp
  rwa [ha] at hp

/-- Where nothing is to be kept, nothing is to be shown of work that is not looked at. -/
theorem unseen (x : ExceptT ε (StateM σ) α) : Yields (fun _ => True) (fun _ => True) x := by
  intro s _
  refine ⟨?_, trivial⟩
  cases (x.run.run s).1 <;> trivial

/-- Work that cannot fail, among work that can. -/
theorem lift {x : StateM σ α} (hx : Maintains I P x) :
    Yields I P (liftM x : ExceptT ε (StateM σ) α) := by
  intro s hs
  exact hx s hs

/-- What is only wanted to be a result of some kind. -/
theorem any {x : ExceptT ε (StateM σ) α} (hx : Yields I P x) : Yields I (fun _ => True) x :=
  hx.imp fun _ _ => trivial

theorem map {x : ExceptT ε (StateM σ) α} {f : α → β} (hx : Yields I P x) (hf : ∀ a, P a → Q (f a)) :
    Yields I Q (f <$> x) := by
  rw [← bind_pure_comp]
  exact hx.bind fun a ha => pure (hf a ha)

theorem get : Yields I I (MonadState.get : ExceptT ε (StateM σ) σ) := fun _ hs => ⟨hs, hs⟩

theorem set {s : σ} (h : I s) :
    Yields I (fun _ => True) (MonadStateOf.set s : ExceptT ε (StateM σ) PUnit) :=
  fun _ _ => ⟨trivial, h⟩

theorem modified {f : σ → σ} (h : ∀ s, I s → I (f s)) :
    Yields I (fun _ => True) (modify f : ExceptT ε (StateM σ) PUnit) :=
  fun s hs => ⟨trivial, h s hs⟩

theorem ite {c : Prop} [Decidable c] {x y : ExceptT ε (StateM σ) α} (hx : c → Yields I P x)
    (hy : ¬c → Yields I P y) : Yields I P (if c then x else y) := by
  split
  · exact hx ‹_›
  · exact hy ‹_›

/-- A choice between two steps before what comes after both. -/
theorem ite_bind {c : Prop} [Decidable c] {x y : ExceptT ε (StateM σ) α}
    {f : α → ExceptT ε (StateM σ) β} (hx : c → Yields I P x) (hy : ¬c → Yields I P y)
    (hf : ∀ a, P a → Yields I Q (f a)) :
    Yields I Q (if c then x >>= f else y >>= f) :=
  ite (fun hc => (hx hc).bind hf) fun hc => (hy hc).bind hf

section Lists
variable {xs : List α} (h : ∀ x ∈ xs, P x)
include h

theorem mapM {f : α → ExceptT ε (StateM σ) β} (hf : ∀ x, P x → Yields I Q (f x)) :
    Yields I (fun ys => ∀ y ∈ ys, Q y) (xs.mapM f) := by
  induction xs with
  | nil => exact pure fun _ hy => absurd hy List.not_mem_nil
  | cons x rest ih =>
    rw [List.forall_mem_cons] at h
    rw [List.mapM_cons]
    exact (hf x h.1).bind fun y hy => (ih h.2).bind fun ys hys =>
      pure (List.forall_mem_cons.mpr ⟨hy, hys⟩)

/-- Each result stands in a relation to what it is the result of. -/
theorem mapM_forall₂ {R : α → β → Prop} {f : α → ExceptT ε (StateM σ) β}
    (hf : ∀ x, P x → Yields I (R x) (f x)) : Yields I (List.Forall₂ R xs) (xs.mapM f) := by
  induction xs with
  | nil => exact pure .nil
  | cons x rest ih =>
    rw [List.forall_mem_cons] at h
    rw [List.mapM_cons]
    exact (hf x h.1).bind fun y hy => (ih h.2).bind fun ys hys => pure (.cons hy hys)

theorem forM {f : α → ExceptT ε (StateM σ) PUnit}
    (hf : ∀ x, P x → Yields I (fun _ => True) (f x)) : Yields I (fun _ => True) (xs.forM f) := by
  induction xs with
  | nil => exact pure trivial
  | cons x rest ih =>
    rw [List.forall_mem_cons] at h
    exact (hf x h.1).bind fun _ _ => ih h.2

theorem filterAuxM {f : α → ExceptT ε (StateM σ) Bool}
    (hf : ∀ x, P x → Yields I (fun _ => True) (f x)) {kept : List α} (hkept : ∀ x ∈ kept, P x) :
    Yields I (fun ys => ∀ y ∈ ys, P y) (List.filterAuxM f xs kept) := by
  induction xs generalizing kept with
  | nil => exact pure hkept
  | cons x rest ih =>
    rw [List.forall_mem_cons] at h
    refine (hf x h.1).bind fun c _ => ?_
    cases c with
    | true => exact ih h.2 (List.forall_mem_cons.mpr ⟨h.1, hkept⟩)
    | false => exact ih h.2 hkept

theorem filterM {f : α → ExceptT ε (StateM σ) Bool}
    (hf : ∀ x, P x → Yields I (fun _ => True) (f x)) :
    Yields I (fun ys => ∀ y ∈ ys, P y) (xs.filterM f) :=
  (filterAuxM h hf fun _ hx => absurd hx List.not_mem_nil).bind fun _ hys =>
    pure fun y hy => hys y (List.mem_reverse.mp hy)

theorem findM? {f : α → ExceptT ε (StateM σ) Bool}
    (hf : ∀ x, P x → Yields I (fun _ => True) (f x)) :
    Yields I (fun found => ∀ x ∈ found, P x) (xs.findM? f) := by
  induction xs with
  | nil => exact pure fun _ hx => by cases hx
  | cons x rest ih =>
    rw [List.forall_mem_cons] at h
    refine (hf x h.1).bind fun c _ => ?_
    cases c with
    | true =>
      refine pure fun y hy => ?_
      cases hy
      exact h.1
    | false => exact ih h.2

theorem anyM {f : α → ExceptT ε (StateM σ) Bool} (hf : ∀ x, P x → Yields I (fun _ => True) (f x)) :
    Yields I (fun _ => True) (xs.anyM f) := by
  induction xs with
  | nil => exact pure trivial
  | cons x rest ih =>
    rw [List.forall_mem_cons] at h
    refine (hf x h.1).bind fun c _ => ?_
    cases c with
    | true => exact pure trivial
    | false => exact ih h.2

theorem allM {f : α → ExceptT ε (StateM σ) Bool} (hf : ∀ x, P x → Yields I (fun _ => True) (f x)) :
    Yields I (fun _ => True) (xs.allM f) := by
  induction xs with
  | nil => exact pure trivial
  | cons x rest ih =>
    rw [List.forall_mem_cons] at h
    refine (hf x h.1).bind fun c _ => ?_
    cases c with
    | true => exact ih h.2
    | false => exact pure trivial

theorem foldlM {f : β → α → ExceptT ε (StateM σ) β}
    (hf : ∀ s x, Q s → P x → Yields I Q (f s x)) {s : β} (hs : Q s) :
    Yields I Q (xs.foldlM f s) := by
  induction xs generalizing s with
  | nil => exact pure hs
  | cons x rest ih =>
    rw [List.forall_mem_cons] at h
    rw [List.foldlM_cons]
    exact (hf s x hs h.1).bind fun t ht => ih h.2 ht

end Lists

end Yields

/-! ### Identities -/

/-- The identities given out from here on are among some. -/
def Supplies (ids : Identity → Prop) (n : Identity) : Prop := ∀ k, ids (n + k)

section Supply
variable {ids : Identity → Prop}

theorem Supplies.here {n : Identity} (h : Supplies ids n) : ids n := h 0

theorem Supplies.next {n : Identity} (h : Supplies ids n) : Supplies ids (n + 1) := by
  intro k
  rw [Nat.add_right_comm n 1 k]
  exact h (k + 1)

theorem maintains_freshId : Maintains (Supplies ids) ids freshId := fun _ hn => ⟨hn.here, hn.next⟩

theorem Yields.freshId :
    Yields (Supplies ids) ids (liftM LiveTemplate.freshId : Eval Identity) :=
  fun _ hn => ⟨hn.here, hn.next⟩

end Supply

end LiveTemplate
