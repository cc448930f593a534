import LiveTemplate.Proofs.Eval.Unaffected

/-!
Evaluations that start at different identities. What is made next stands for what is made next, as
long as all that the scope holds is older; so an expression comes to the same content wherever it
starts, and no identity is given out twice.
-/

namespace LiveTemplate

set_option autoImplicit false

/-! ### Older identities -/

section Older
variable {p q : Identity → Prop} (hpq : ∀ i, p i → q i)
include hpq

set_option linter.unusedSectionVars false in
mutual

/-- What all identities in a value have in common may be weakened. -/
theorem Value.Uses.imp : ∀ {v : Value}, v.Uses p → v.Uses q
  | .undefined, _ => trivial
  | .null, _ => trivial
  | .flag _, _ => trivial
  | .number _, _ => trivial
  | .text _, _ => trivial
  | .list i items, h => by
    rw [Value.Uses] at h ⊢
    exact ⟨hpq i h.1, Value.AllUse.imp h.2⟩
  | .record i parent fields, h => by
    rw [Value.Uses] at h ⊢
    exact ⟨hpq i h.1, Parent.Uses.imp h.2.1, Value.NamesUse.imp h.2.2⟩
  | .map i entries, h => by
    rw [Value.Uses] at h ⊢
    exact ⟨hpq i h.1, Value.PairsUse.imp h.2⟩
  | .set i items, h => by
    rw [Value.Uses] at h ⊢
    exact ⟨hpq i h.1, Value.AllUse.imp h.2⟩
  | .date i _, h => hpq i h
  | .html i _, h => hpq i h
  | .method _, _ => trivial
  | .helper _, _ => trivial
  | .closure i _ _ scope, h => by
    rw [Value.Uses] at h ⊢
    exact ⟨hpq i h.1, Value.LayersUse.imp h.2⟩
  | .block i _, h => hpq i h

theorem Parent.Uses.imp : ∀ {parent : Parent}, parent.Uses p → parent.Uses q
  | .plain, _ => trivial
  | .nothing, _ => trivial
  | .value _, h => by
    rw [Parent.Uses] at h ⊢
    exact Value.Uses.imp h

theorem Value.AllUse.imp : ∀ {vs : List Value}, Value.AllUse p vs → Value.AllUse q vs
  | [], _ => trivial
  | _ :: _, h => by
    rw [Value.AllUse] at h ⊢
    exact ⟨Value.Uses.imp h.1, Value.AllUse.imp h.2⟩

theorem Value.NamesUse.imp : ∀ {fs : List (String × Value)}, Value.NamesUse p fs →
    Value.NamesUse q fs
  | [], _ => trivial
  | (_, _) :: _, h => by
    rw [Value.NamesUse] at h ⊢
    exact ⟨Value.Uses.imp h.1, Value.NamesUse.imp h.2⟩

theorem Value.PairsUse.imp : ∀ {es : List (Value × Value)}, Value.PairsUse p es →
    Value.PairsUse q es
  | [], _ => trivial
  | (_, _) :: _, h => by
    rw [Value.PairsUse] at h ⊢
    exact ⟨⟨Value.Uses.imp h.1.1, Value.Uses.imp h.1.2⟩, Value.PairsUse.imp h.2⟩

theorem Value.LayersUse.imp : ∀ {layers : List Layer}, Value.LayersUse p layers →
    Value.LayersUse q layers
  | [], _ => trivial
  | ⟨_, _⟩ :: _, h => by
    rw [Value.LayersUse] at h ⊢
    exact ⟨⟨fun i hi => hpq i (h.1.1 i hi), Value.NamesUse.imp h.1.2⟩, Value.LayersUse.imp h.2⟩

end

end Older

/-- All that can be looked up in a frame is older than what is made next. -/
structure Frame.Before (n : Identity) (f : Frame) : Prop where
  shared : 0 < n
  scope : Value.LayersUse (· < n) f.scope

/-- The later two evaluations start, the more is older than what they make. -/
theorem Frame.Older.mono {changed : ChangedSet} {f g : Frame} {n m i j : Identity}
    (h : f.Older changed g n m) (hi : n ≤ i) (hj : m ≤ j) : f.Older changed g i j := by
  have hshares : ∀ k, f.Shares changed g n m k → f.Shares changed g i j k :=
    fun k hk => ⟨Nat.lt_of_lt_of_le hk.1 hi, Nat.lt_of_lt_of_le hk.2.1 hj, hk.2.2⟩
  exact ⟨⟨Nat.lt_of_lt_of_le h.assigns.1 hi, Nat.lt_of_lt_of_le h.assigns.2 hj⟩,
    hshares 0 h.common, h.bindings.imp hshares, h.parent.imp hshares, h.helpers.imp hshares⟩

/-! ### Pairings of two starts -/

/-- What is older stands for itself, what is made next from one start on for what is made next from
the other. -/
def Pairing.shift (n a b : Identity) : Pairing := fun i j =>
  (i = j ∧ i < n) ∨ ∃ k, i = a + k ∧ j = b + k

section Shift
variable {n a b : Identity}

theorem Pairing.shift_exact (hn : 0 < n) (ha : n ≤ a) (hb : n ≤ b) : (Pairing.shift n a b).Exact where
  eq_iff := by
    have harith : ∀ n a b i j k l : Nat, n ≤ a → n ≤ b →
        (i = j ∧ i < n) ∨ (∃ d, i = a + d ∧ j = b + d) →
        (k = l ∧ k < n) ∨ (∃ d, k = a + d ∧ l = b + d) → (i = k ↔ j = l) := by
      rintro n a b i j k l ha hb (hij | ⟨d, hi, hj⟩) (hkl | ⟨e, hk, hl⟩) <;> omega
    exact fun {i j k l} hij hkl => harith n a b i j k l ha hb hij hkl
  shared := .inl ⟨rfl, hn⟩

theorem Pairing.shift_ahead : (Pairing.shift n a b).Ahead a b := fun k => .inr ⟨k, rfl, rfl⟩

theorem Pairing.shift_self {i : Identity} (hi : i < n) : Pairing.shift n a b i i := .inl ⟨rfl, hi⟩

/-- Two starts that differ by one cannot both have gone back to what is older. -/
theorem Pairing.le_of_ahead (ha : n ≤ a) {i j : Identity}
    (h : (Pairing.shift n a (a + 1)).Ahead i j) : n ≤ i := by
  have harith : ∀ n a i j d : Nat, n ≤ a → i + d = n →
      (i = j ∧ i < n) ∨ (∃ k, i = a + k ∧ j = a + 1 + k) →
      (i + d = j + d ∧ i + d < n) ∨ (∃ k, i + d = a + k ∧ j + d = a + 1 + k) → n ≤ i := by
    rintro n a i j d ha hd (hij | ⟨k, hi, hj⟩) (hnext | ⟨l, hi', hj'⟩) <;> omega
  -- Counting on from below `n`, both starts would come to `n` at once, but it stands for itself only
  -- among what is older.
  rcases Nat.le_total n i with hle | hle
  · exact hle
  · exact harith n a i j (n - i) ha (Nat.add_sub_cancel' hle) h.here (h (n - i))

end Shift

/-! ### Evaluations from any start -/

/-- Wherever they start from some identities on, two steps come to related results, and they do not
go back to what is older. -/
def FreshRepeats (n m : Identity) {α β : Type} (R : α → β → Prop) (x : Fresh α) (y : Fresh β) :
    Prop := ∀ i ≥ n, ∀ j ≥ m, R (x.run i).1 (y.run j).1 ∧ n ≤ (x.run i).2 ∧ m ≤ (y.run j).2

/-- So do two evaluations, unless both come to the same fault. -/
def Repeats (n m : Identity) {α β : Type} (R : α → β → Prop) (x : Eval α) (y : Eval β) : Prop :=
  FreshRepeats n m (SameOutcome R) x.run y.run

/-- From some identities on, an evaluation can come to a result. -/
def ComesTo (n : Identity) {α : Type} (x : Eval α) (a : α) : Prop :=
  ∃ i ≥ n, (x.run.run i).1 = .ok a

section Steps
variable {n m : Identity} {α β α' β' : Type} {R : α → β → Prop} {S : α' → β' → Prop}

theorem SameOutcome.refl {ε : Type} {T : α → α → Prop} (hT : ∀ a, T a a) (x : Except ε α) :
    SameOutcome T x x := by
  cases x with
  | ok a => exact hT a
  | error e => rfl

theorem SameOutcome.of_ok {ε : Type} {a : α} {y : Except ε β} (h : SameOutcome R (.ok a) y) :
    ∃ b, y = .ok b ∧ R a b := by
  cases y with
  | ok b => exact ⟨b, rfl, h⟩
  | error e => exact h.elim

theorem SameOutcome.of_error {ε : Type} {e : ε} {y : Except ε β} (h : SameOutcome R (.error e) y) :
    y = .error e := by
  cases y with
  | ok b => exact h.elim
  | error e' => exact congrArg _ (Eq.symm h)

namespace FreshRepeats

theorem pure {a : α} {b : β} (h : R a b) : FreshRepeats n m R (Pure.pure a) (Pure.pure b) :=
  fun _ hi _ hj => ⟨h, hi, hj⟩

theorem bind {x : Fresh α} {y : Fresh β} {f : α → Fresh α'} {g : β → Fresh β'}
    (hx : FreshRepeats n m R x y) (hf : ∀ a b, R a b → FreshRepeats n m S (f a) (g b)) :
    FreshRepeats n m S (x >>= f) (y >>= g) := by
  intro i hi j hj
  obtain ⟨hR, hni, hmj⟩ := hx i hi j hj
  exact hf _ _ hR _ hni _ hmj

theorem freshId : FreshRepeats n m (fun _ _ => True) LiveTemplate.freshId LiveTemplate.freshId :=
  fun _ hi _ hj => ⟨trivial, Nat.le_succ_of_le hi, Nat.le_succ_of_le hj⟩

theorem mapM {f : α → Fresh α'} {g : β → Fresh β'} {xs : List α} {ys : List β}
    (h : List.Forall₂ (fun x y => FreshRepeats n m S (f x) (g y)) xs ys) :
    FreshRepeats n m (List.Forall₂ S) (xs.mapM f) (ys.mapM g) := by
  induction h with
  | nil => exact pure .nil
  | cons hxy _ ih =>
    rw [List.mapM_cons, List.mapM_cons]
    exact hxy.bind fun a b hab => ih.bind fun as bs habs => pure (.cons hab habs)

end FreshRepeats

namespace Repeats

theorem pure {a : α} {b : β} (h : R a b) : Repeats n m R (Pure.pure a) (Pure.pure b) :=
  FreshRepeats.pure h

theorem bind {x : Eval α} {y : Eval β} {f : α → Eval α'} {g : β → Eval β'} (hx : Repeats n m R x y)
    (hf : ∀ a b, R a b → Repeats n m S (f a) (g b)) : Repeats n m S (x >>= f) (y >>= g) := by
  change FreshRepeats n m _ (x.run >>= ExceptT.bindCont f) (y.run >>= ExceptT.bindCont g)
  refine FreshRepeats.bind hx fun a b hab => ?_
  cases a with
  | ok a =>
    obtain ⟨b, rfl, hab⟩ := hab.of_ok
    exact hf a b hab
  | error e =>
    obtain rfl := hab.of_error
    exact FreshRepeats.pure rfl

theorem imp {T : α → β → Prop} {x : Eval α} {y : Eval β} (hx : Repeats n m R x y)
    (h : ∀ a b, R a b → T a b) : Repeats n m T x y :=
  fun i hi j hj => ⟨(hx i hi j hj).1.imp h, (hx i hi j hj).2⟩

/-- Steps that cannot fail, among steps that can. -/
theorem lift {x : Fresh α} {y : Fresh β} (hx : FreshRepeats n m R x y) :
    Repeats n m R (liftM x : Eval α) (liftM y : Eval β) := fun i hi j hj => hx i hi j hj

theorem map {x : Eval α} {y : Eval β} {f : α → α'} {g : β → β'} (hx : Repeats n m R x y)
    (hf : ∀ a b, R a b → S (f a) (g b)) : Repeats n m S (f <$> x) (g <$> y) := by
  rw [← bind_pure_comp, ← bind_pure_comp]
  exact hx.bind fun a b hab => pure (hf a b hab)

theorem mapM {f : α → Eval α'} {g : β → Eval β'} {xs : List α} {ys : List β}
    (h : List.Forall₂ (fun x y => Repeats n m S (f x) (g y)) xs ys) :
    Repeats n m (List.Forall₂ S) (xs.mapM f) (ys.mapM g) := by
  induction h with
  | nil => exact pure .nil
  | cons hxy _ ih =>
    rw [List.mapM_cons, List.mapM_cons]
    exact hxy.bind fun a b hab => ih.bind fun as bs habs => pure (.cons hab habs)

/-- Related results are results that both can come to. -/
theorem comesTo {x : Eval α} {y : Eval β} (hx : Repeats n m R x y) :
    Repeats n m (fun a b => R a b ∧ ComesTo n x a ∧ ComesTo m y b) x y := by
  intro i hi j hj
  obtain ⟨hR, hgrown⟩ := hx i hi j hj
  refine ⟨?_, hgrown⟩
  change SameOutcome R (x.run.run i).1 (y.run.run j).1 at hR
  cases ha : (x.run.run i).1 with
  | ok a =>
    rw [ha] at hR
    obtain ⟨b, hb, hab⟩ := hR.of_ok
    rw [hb]
    exact ⟨hab, ⟨i, hi, ha⟩, j, hj, hb⟩
  | error e =>
    rw [ha] at hR
    rw [hR.of_error]
    rfl

/-- What two evaluations can come to is related. -/
theorem of_comesTo {x : Eval α} {y : Eval β} (hx : Repeats n m R x y) {a : α} {b : β}
    (ha : ComesTo n x a) (hb : ComesTo m y b) : R a b := by
  obtain ⟨i, hi, ha⟩ := ha
  obtain ⟨j, hj, hb⟩ := hb
  have hR : SameOutcome R (x.run.run i).1 (y.run.run j).1 := (hx i hi j hj).1
  rwa [ha, hb] at hR

/-- If one can come to a result, the other always comes to a related one. -/
theorem of_comesTo_left {γ : Type} {x : Eval α} {y : Eval β} (hx : Repeats n m R x y) {a : α}
    (ha : ComesTo n x a) (c : γ) :
    Repeats m m (fun c' b => c' = c ∧ R a b) (Pure.pure c : Eval γ) y := by
  obtain ⟨i, hi, ha⟩ := ha
  intro j hj k hk
  obtain ⟨hR, -, hgrown⟩ := hx i hi k hk
  change SameOutcome R (x.run.run i).1 (y.run.run k).1 at hR
  rw [ha] at hR
  obtain ⟨b, hb, hab⟩ := hR.of_ok
  refine ⟨?_, hj, hgrown⟩
  change SameOutcome _ (Except.ok c : Except EvalError γ) (y.run.run k).1
  rw [hb]
  exact ⟨rfl, hab⟩

theorem exists_comesTo {x : Eval α} {y : Eval β} (hx : Repeats n m R x y) {a : α}
    (ha : ComesTo n x a) : ∃ b, ComesTo m y b ∧ R a b := by
  obtain ⟨i, hi, ha⟩ := ha
  have hR : SameOutcome R (x.run.run i).1 (y.run.run m).1 := (hx i hi m (Nat.le_refl m)).1
  rw [ha] at hR
  obtain ⟨b, hb, hab⟩ := hR.of_ok
  exact ⟨b, ⟨m, Nat.le_refl m, hb⟩, hab⟩

/-- An evaluation that comes to alike results whatever is made next for what is made next. -/
theorem of_both (hn : 0 < n) {x : Eval α} {P : Pairing → α → α → Prop} {R : α → α → Prop}
    (h : ∀ σ : Pairing, σ.Exact → (∀ i < n, σ i i) → Both σ (P σ) x x)
    (hP : ∀ σ a b, P σ a b → R a b) : Repeats n n R x x := by
  -- Both runs of the same pair of starts cannot tell whether they went back, so one of them starts
  -- one later.
  have hgrows : ∀ i ≥ n, n ≤ (x.run.run i).2 := fun i hi =>
    Pairing.le_of_ahead hi (h _ (Pairing.shift_exact hn hi (Nat.le_succ_of_le hi))
      (fun _ => Pairing.shift_self) i (i + 1) Pairing.shift_ahead).2
  intro i hi j hj
  have hboth := h _ (Pairing.shift_exact hn hi hj) (fun _ => Pairing.shift_self) i j
    Pairing.shift_ahead
  exact ⟨hboth.1.imp (hP _), hgrows i hi, hgrows j hj⟩

end Repeats

/-! #### Results of steps in turn -/

namespace ComesTo

theorem mono {x : Eval α} {a : α} (h : ComesTo m x a) (hle : n ≤ m) : ComesTo n x a :=
  h.imp fun _ hi => ⟨Nat.le_trans hle hi.1, hi.2⟩

/-- What steps in turn come to, if the first does not go back to what is older. -/
theorem bind {x : Eval α} {f : α → Eval α'} {T : α → α → Prop} (hx : Repeats n n T x x) {b : α'}
    (h : ComesTo n (x >>= f) b) : ∃ a, ComesTo n x a ∧ ComesTo n (f a) b := by
  obtain ⟨i, hi, h⟩ := h
  have hgrown : n ≤ (x.run.run i).2 := (hx i hi i hi).2.1
  change (StateT.run (ExceptT.bindCont f (x.run.run i).1) (x.run.run i).2).1 = .ok b at h
  cases ha : (x.run.run i).1 with
  | error e =>
    rw [ha] at h
    cases h
  | ok a =>
    rw [ha] at h
    exact ⟨a, ⟨i, hi, ha⟩, _, hgrown, h⟩

theorem pure {a b : α} (h : ComesTo n (Pure.pure a) b) : a = b := by
  obtain ⟨i, -, h⟩ := h
  exact Except.ok.inj h

theorem map {x : Eval α} {f : α → α'} {b : α'} (h : ComesTo n (f <$> x) b) :
    ∃ a, ComesTo n x a ∧ f a = b := by
  obtain ⟨i, hi, h⟩ := h
  rw [← bind_pure_comp] at h
  change (StateT.run (ExceptT.bindCont (fun a => (Pure.pure (f a) : Eval α')) (x.run.run i).1)
    (x.run.run i).2).1 = Except.ok b at h
  cases ha : (x.run.run i).1 with
  | error e =>
    rw [ha] at h
    cases h
  | ok a =>
    rw [ha] at h
    exact ⟨a, ⟨i, hi, ha⟩, Except.ok.inj h⟩

theorem mapM {f : α → Eval α'} {T : α' → α' → Prop} {xs : List α}
    (hf : ∀ x ∈ xs, Repeats n n T (f x) (f x)) {ys : List α'} (h : ComesTo n (xs.mapM f) ys) :
    List.Forall₂ (fun x y => ComesTo n (f x) y) xs ys := by
  induction xs generalizing ys with
  | nil =>
    rw [List.mapM_nil] at h
    exact h.pure ▸ .nil
  | cons x rest ih =>
    rw [List.forall_mem_cons] at hf
    have hrest : Repeats n n (List.Forall₂ T) (rest.mapM f) (rest.mapM f) :=
      .mapM (List.forall₂_same.mpr hf.2)
    rw [List.mapM_cons] at h
    obtain ⟨y, hy, h⟩ := h.bind hf.1
    obtain ⟨more, hmore, h⟩ := h.bind hrest
    exact h.pure ▸ .cons hy (ih hf.2 hmore)

end ComesTo

end Steps

/-! ### Expressions -/

section Expressions
variable {f g : Frame} {n m : Identity}

/-- Where everything that can be looked up stands for itself, an expression comes to alike values. -/
theorem Expr.both_eval_self {σ : Pairing} (hσ : σ.Exact) (hn : ∀ i < n, σ i i) (hf : f.Before n)
    (e : Expr) : Both σ (Alike σ) (e.eval f.scope) (e.eval f.scope) := by
  have hscopes : Scopes σ (fun _ _ => True) [] f.scope f.scope :=
    ⟨f.scope, f.scope, [], [], (List.append_nil _).symm, (List.append_nil _).symm,
      .of_layers (layersAlike_refl hn f.scope hf.scope)⟩
  have hconfined : e.Confined (fun _ _ => True) [] :=
    Expr.confined_of_granted (fun _ _ => trivial) [] e
  exact both_settle (both_link hσ (steady_call hσ) hscopes e hconfined)

/-- An expression comes to the same content wherever it starts. -/
theorem Expr.repeats_eval (hf : f.Before n) (e : Expr) :
    Repeats n n (fun v w => v.content = w.content) (e.eval f.scope) (e.eval f.scope) :=
  .of_both hf.shared (fun _ hσ hn => e.both_eval_self hσ hn hf) fun _ _ _ h => h.content_eq

/-- So does one that no change affects, before and after the change. -/
theorem Expr.repeats_eval_of_unaffected {scope : NameScope} {changed : ChangedSet}
    (hdiffer : f.DifferBy changed g) (hold : f.Older changed g n m) (hf : f.Before n)
    (hg : g.Before m) (hscope : scope.Describes f) {e : Expr}
    (hspelled : ∀ s ∈ e.spelled, Unseparated s)
    (hunaffected : (e.reads scope).isAffected (some changed) = false) :
    Repeats n m (fun v w => v.content = w.content) (e.eval f.scope) (e.eval g.scope) := by
  intro i hi j hj
  have heval := Expr.both_eval_of_unaffected hdiffer (hold.mono hi hj) hscope hspelled hunaffected
  have hsame := (heval i j Frame.pairing_ahead).1.imp fun _ _ h => h.content_eq
  exact ⟨hsame, (e.repeats_eval hf i hi i hi).2.1, (e.repeats_eval hg j hj j hj).2.1⟩

end Expressions

end LiveTemplate
