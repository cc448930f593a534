/-!
Computations that may fail, taken apart: what it takes for a sequence or a map to succeed, and what
holds of a failure.
-/

namespace LiveTemplate

set_option autoImplicit false

theorem bind_eq_ok {ε α β : Type} {x : Except ε α} {f : α → Except ε β} {b : β} :
    (x >>= f) = .ok b ↔ ∃ a, x = .ok a ∧ f a = .ok b := by
  cases x with
  | error e => simp [bind, Except.bind]
  | ok a => simp [bind, Except.bind]

theorem map_eq_ok {ε α β : Type} {x : Except ε α} {f : α → β} {b : β} :
    x.map f = .ok b ↔ ∃ a, x = .ok a ∧ f a = b := by
  cases x with
  | error e => simp [Except.map]
  | ok a => simp [Except.map]

theorem map_eq_error {ε α β : Type} {x : Except ε α} {f : α → β} {e : ε} :
    x.map f = .error e ↔ x = .error e := by
  cases x <;> simp [Except.map]

theorem toOption_eq_some {ε α : Type} {x : Except ε α} {a : α} :
    x.toOption = some a ↔ x = .ok a := by
  cases x <;> simp [Except.toOption]

/-- A sequence of steps that may fail, on a state that stays and on one more beside it. -/
theorem run_bind {ε σ ρ α β : Type} (x : ExceptT ε (StateT σ (StateM ρ)) α)
    (f : α → ExceptT ε (StateT σ (StateM ρ)) β) (s : σ) (r : ρ) :
    ((x >>= f).run.run s).run r =
      (match (x.run.run s).run r with
        | ((.ok a, s'), r') => ((f a).run.run s').run r'
        | ((.error e, s'), r') => ((.error e, s'), r')) := by
  change (StateT.run (StateT.run (ExceptT.bindCont f ((x.run.run s).run r).1.1)
    ((x.run.run s).run r).1.2) ((x.run.run s).run r).2) = _
  cases (x.run.run s).run r with
  | mk result r' =>
    obtain ⟨result, s'⟩ := result
    cases result <;> rfl

/-- What holds of a failure, and what of a result. -/
def Ends {ε α : Type} (P : ε → Prop) (Q : α → Prop) : Except ε α → Prop
  | .error e => P e
  | .ok a => Q a

namespace Ends

variable {ε α β : Type} {P P' : ε → Prop} {Q Q' : α → Prop} {R : β → Prop}

theorem bind {x : Except ε α} {f : α → Except ε β} (hx : Ends P Q x)
    (hf : ∀ a, x = .ok a → Q a → Ends P R (f a)) : Ends P R (x >>= f) := by
  cases x with
  | error e => exact hx
  | ok a => exact hf a rfl hx

theorem map {x : Except ε α} {f : α → β} (hx : Ends P (fun a => R (f a)) x) : Ends P R (x.map f) := by
  cases x with
  | error e => exact hx
  | ok a => exact hx

theorem imp {x : Except ε α} (hx : Ends P Q x) (hP : ∀ e, P e → P' e) (hQ : ∀ a, Q a → Q' a) :
    Ends P' Q' x := by
  cases x with
  | error e => exact hP e hx
  | ok a => exact hQ a hx

end Ends

end LiveTemplate
