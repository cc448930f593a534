import LiveTemplate.Proofs.Eval.Operations
import LiveTemplate.Proofs.Eval.Scopes

/-!
Two bindings of names at once. They start from layers that are related and keep them so as long as
neither fails. How the layers are related depends on the names that have been bound so far.
-/

namespace LiveTemplate

set_option autoImplicit false

variable {σ : Pairing}

/-- A layer with a name bound. -/
def Layer.put (layer : Layer) (name : String) (v : Value) : Layer :=
  { layer with names := Assoc.set layer.names name v }

/-- Two bindings do the same to related layers: both fail with the same fault, or bind certain names.
-/
def BindBoth (σ : Pairing) (Rel : List String → Layer → Layer → Prop) (names : List String)
    (x y : Bind Unit) : Prop :=
  ∀ bound a b, Rel bound a b →
    FreshBoth σ (fun p q => SameOutcome (fun _ _ => Rel (bound ++ names) p.2 q.2) p.1 q.1)
      (StateT.run x.run a) (StateT.run y.run b)

theorem mem_keys_set {fs : List (String × Value)} {name x : String} (v : Value)
    (h : x ∈ Assoc.keys fs ∨ x = name) : x ∈ Assoc.keys (Assoc.set fs name v) := by
  rw [Assoc.keys_set]
  split
  · rename_i hmem
    exact h.elim id fun hx => hx ▸ hmem
  · rw [List.mem_append, List.mem_singleton]
    exact h

namespace BindBoth

variable {Rel : List String → Layer → Layer → Prop} {names more : List String}

theorem pure : BindBoth σ Rel [] (Pure.pure ()) (Pure.pure ()) := fun bound _ _ hab =>
  FreshBoth.pure ((List.append_nil bound).symm ▸ hab)

theorem throw (e : EvalError) :
    BindBoth σ Rel names (MonadExcept.throw e : Bind Unit) (MonadExcept.throw e : Bind Unit) :=
  fun _ _ _ _ => FreshBoth.pure rfl

theorem set {v w : Value} (name : String)
    (h : ∀ bound a b, Rel bound a b → Rel (bound ++ [name]) (a.put name v) (b.put name w)) :
    BindBoth σ Rel [name] (Bind.set name v) (Bind.set name w) := fun bound a b hab =>
  FreshBoth.pure (h bound a b hab)

/-- An evaluation in the midst of binding leaves the layer alone. -/
theorem eval {α β : Type} {R : α → β → Prop} {x : Eval α} {y : Eval β} {f : α → Bind Unit}
    {g : β → Bind Unit} (hx : Both σ R x y) (hf : ∀ a b, R a b → BindBoth σ Rel names (f a) (g b)) :
    BindBoth σ Rel names (Bind.ofEval x >>= f) (Bind.ofEval y >>= g) := fun bound l l' hl => by
  change FreshBoth σ _ (x.run >>= fun p => StateT.run (ExceptT.bindCont f p) l)
    (y.run >>= fun q => StateT.run (ExceptT.bindCont g q) l')
  refine FreshBoth.bind hx fun p q hpq => ?_
  match p, q, hpq with
  | .ok a, .ok b, hab => exact hf a b hab bound l l' hl
  | .error e, .error _, rfl => exact FreshBoth.pure rfl

theorem get {f g : Layer → Bind Unit}
    (hf : ∀ bound a b, Rel bound a b → BindBoth σ Rel names (f a) (g b)) :
    BindBoth σ Rel names (MonadState.get >>= f) (MonadState.get >>= g) :=
  fun bound a b hab => hf bound a b hab bound a b hab

/-- One binding after another binds the names of both. -/
theorem seq {x y : Bind Unit} {f g : Unit → Bind Unit} (hx : BindBoth σ Rel names x y)
    (hf : BindBoth σ Rel more (f ()) (g ())) :
    BindBoth σ Rel (names ++ more) (x >>= f) (y >>= g) := fun bound l l' hl => by
  change FreshBoth σ _ (StateT.run x.run l >>= fun p => StateT.run (ExceptT.bindCont f p.1) p.2)
    (StateT.run y.run l' >>= fun q => StateT.run (ExceptT.bindCont g q.1) q.2)
  refine FreshBoth.bind (hx bound l l' hl) ?_
  rintro ⟨p, a⟩ ⟨q, b⟩ hpq
  match p, q, hpq with
  | .error e, .error _, rfl => exact FreshBoth.pure rfl
  | .ok (), .ok (), hab =>
    have hmore := hf (bound ++ names) a b hab
    rwa [List.append_assoc] at hmore

end BindBoth

/-! ### Layers -/

/-- Names bound over those of before are those of related layers. -/
theorem both_names {Rel : List String → Layer → Layer → Prop} {names : List String} {x y : Bind Unit}
    (hxy : BindBoth σ Rel names x y) {isCaptured : Bool} {fs gs : List (String × Value)}
    (hstart : FreshBoth σ (Rel []) (Layer.over fs isCaptured) (Layer.over gs isCaptured)) :
    Both σ (fun ms ns => ∃ a b, Rel names a b ∧ a.finished = ms ∧ b.finished = ns)
      (x.names isCaptured fs) (y.names isCaptured gs) := by
  refine FreshBoth.bind hstart fun a b hab => ?_
  refine FreshBoth.bind (hxy [] a b hab) ?_
  rintro ⟨p, a'⟩ ⟨q, b'⟩ hpq
  refine FreshBoth.pure ?_
  match p, q, hpq with
  | .error e, .error _, rfl => exact rfl
  | .ok (), .ok (), hab' => exact ⟨a', b', hab', rfl, rfl⟩

/-- Layers that are alike, in which certain names are bound. -/
structure Bound (σ : Pairing) (names : List String) (a b : Layer) : Prop where
  layers : LayerAlike σ a b
  keys : ∀ x ∈ names, x ∈ Assoc.keys a.names

theorem Bound.put {bound : List String} {a b : Layer} (h : Bound σ bound a b) (name : String)
    {v w : Value} (hvw : Alike σ v w) : Bound σ (bound ++ [name]) (a.put name v) (b.put name w) := by
  refine ⟨⟨h.layers.ids, h.layers.names.set hvw name⟩, fun x hx => mem_keys_set v ?_⟩
  rw [List.mem_append, List.mem_singleton] at hx
  exact hx.imp_left (h.keys x)

theorem freshBoth_over {fs gs : List (String × Value)} (h : NamesAlike σ fs gs) (isCaptured : Bool) :
    FreshBoth σ (Bound σ []) (Layer.over fs isCaptured) (Layer.over gs isCaptured) := by
  cases isCaptured with
  | false => exact .pure ⟨⟨.inl ⟨rfl, rfl⟩, h⟩, fun _ hx => absurd hx List.not_mem_nil⟩
  | true =>
    exact freshBoth_freshId.bind fun i j hid =>
      .pure ⟨⟨.inr ⟨i, j, rfl, rfl, hid⟩, h⟩, fun _ hx => absurd hx List.not_mem_nil⟩

theorem keys_finished (layer : Layer) : Assoc.keys layer.finished = Assoc.keys layer.names := by
  rw [Layer.finished]
  split
  · rfl
  · rw [Assoc.keys, Assoc.keys, List.map_map]
    rfl

theorem finished_alike (hσ : σ.Exact) {a b : Layer} (h : LayerAlike σ a b) :
    NamesAlike σ a.finished b.finished := by
  rcases h.ids with ⟨ha, hb⟩ | ⟨i, j, ha, hb, hid⟩
  · rw [Layer.finished, Layer.finished, ha, hb]
    exact h.names
  · rw [Layer.finished, Layer.finished, ha, hb]
    exact List.rel_map (fun _ _ he => ⟨he.1, h.current hσ he.2⟩) h.names

/-- Names bound over names that are alike come out alike, and all of them are there. -/
theorem both_boundNames (hσ : σ.Exact) {names : List String} {x y : Bind Unit}
    (hxy : BindBoth σ (Bound σ) names x y) (isCaptured : Bool) {fs gs : List (String × Value)}
    (h : NamesAlike σ fs gs) :
    Both σ (fun ms ns => NamesAlike σ ms ns ∧ ∀ n ∈ names, n ∈ Assoc.keys ms)
      (x.names isCaptured fs) (y.names isCaptured gs) := by
  refine (both_names hxy (freshBoth_over h isCaptured)).imp ?_
  rintro _ _ ⟨a, b, hab, rfl, rfl⟩
  exact ⟨finished_alike hσ hab.layers, (keys_finished a).symm ▸ hab.keys⟩

end LiveTemplate
