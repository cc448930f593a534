import LiveTemplate.Proofs.Eval.Alike
import Mathlib.Data.List.Forall2

/-!
What alike values share. A value is alike to itself as soon as the identities in it stand for
themselves; values that are alike have the same content.
-/

namespace LiveTemplate

set_option autoImplicit false

/-! ### Identities of a value -/

section
variable (p : Identity → Prop)

mutual

/-- All identities in a value have a property. -/
def Value.Uses : Value → Prop
  | .list i items | .set i items => p i ∧ Value.AllUse items
  | .record i parent fields => p i ∧ Parent.Uses parent ∧ Value.NamesUse fields
  | .map i entries => p i ∧ Value.PairsUse entries
  | .closure i _ _ scope => p i ∧ Value.LayersUse scope
  | .date i _ | .html i _ | .block i _ => p i
  | _ => True

def Parent.Uses : Parent → Prop
  | .value v => Value.Uses v
  | _ => True

def Value.AllUse : List Value → Prop
  | [] => True
  | v :: rest => Value.Uses v ∧ Value.AllUse rest

def Value.NamesUse : List (String × Value) → Prop
  | [] => True
  | (_, v) :: rest => Value.Uses v ∧ Value.NamesUse rest

def Value.PairsUse : List (Value × Value) → Prop
  | [] => True
  | (a, b) :: rest => (Value.Uses a ∧ Value.Uses b) ∧ Value.PairsUse rest

def Value.LayersUse : List Layer → Prop
  | [] => True
  | ⟨i, names⟩ :: rest => ((∀ j, i = some j → p j) ∧ Value.NamesUse names) ∧ Value.LayersUse rest

end

end

section
variable {σ : Pairing}

/-- Scopes that are alike as a whole confine nothing. -/
theorem ScopeAlike.of_layers {scope scope' : Scope} (h : List.Forall₂ (LayerAlike σ) scope scope') :
    ScopeAlike σ (fun _ _ => True) [] scope scope' [] [] where
  layers := h
  plain := fun _ hl => absurd hl List.not_mem_nil
  plain' := fun _ hl => absurd hl List.not_mem_nil
  meet := fun _ => .none
  known := fun _ hx => absurd hx List.not_mem_nil

variable {p : Identity → Prop} (hp : ∀ i, p i → σ i i)
include hp

set_option linter.unusedSectionVars false in
mutual

/-- A value is alike to itself if each identity in it stands for itself. -/
theorem Alike.refl : ∀ v : Value, v.Uses p → Alike σ v v
  | .undefined, _ => .undefined
  | .null, _ => .null
  | .flag b, _ => .flag b
  | .number x, _ => .number x
  | .text s, _ => .text s
  | .list i items, h => by
    rw [Value.Uses] at h
    exact .of_list (hp i h.1) (allAlike_refl items h.2)
  | .record i parent fields, h => by
    rw [Value.Uses] at h
    exact .of_record (hp i h.1) (parentAlike_refl parent h.2.1) (namesAlike_refl fields h.2.2)
  | .map i entries, h => by
    rw [Value.Uses] at h
    exact .of_map (hp i h.1) (pairsAlike_refl entries h.2)
  | .set i items, h => by
    rw [Value.Uses] at h
    exact .of_set (hp i h.1) (allAlike_refl items h.2)
  | .date i t, h => by
    rw [Value.Uses] at h
    exact .date t (hp i h)
  | .html i s, h => by
    rw [Value.Uses] at h
    exact .html s (hp i h)
  | .method m, _ => .method m
  | .helper f, _ => .helper f
  | .closure i params body scope, h => by
    rw [Value.Uses] at h
    have hall : ∀ (x : String) (path : List String), (fun _ _ => True) x path := fun _ _ => trivial
    have halike := Alike.of_closure (hp i h.1) (.of_layers (layersAlike_refl scope h.2))
      (Pattern.allConfined_of_granted hall [] params) (Expr.confined_of_granted hall _ body)
    rwa [List.append_nil] at halike
  | .block i content, h => by
    rw [Value.Uses] at h
    exact .block content (hp i h)

theorem parentAlike_refl : ∀ q : Parent, q.Uses p → ParentAlike σ q q
  | .plain, _ => .plain
  | .nothing, _ => .nothing
  | .value v, h => by
    rw [Parent.Uses] at h
    exact .value (Alike.refl v h)

theorem allAlike_refl : ∀ vs : List Value, Value.AllUse p vs →
    List.Forall₂ (Alike σ) vs vs
  | [], _ => .nil
  | v :: rest, h => by
    rw [Value.AllUse] at h
    exact .cons (Alike.refl v h.1) (allAlike_refl rest h.2)

theorem namesAlike_refl : ∀ fs : List (String × Value), Value.NamesUse p fs →
    NamesAlike σ fs fs
  | [], _ => .nil
  | (_, v) :: rest, h => by
    rw [Value.NamesUse] at h
    exact .cons ⟨rfl, Alike.refl v h.1⟩ (namesAlike_refl rest h.2)

theorem pairsAlike_refl : ∀ es : List (Value × Value), Value.PairsUse p es →
    PairsAlike σ es es
  | [], _ => .nil
  | (a, b) :: rest, h => by
    rw [Value.PairsUse] at h
    exact .cons ⟨Alike.refl a h.1.1, Alike.refl b h.1.2⟩ (pairsAlike_refl rest h.2)

theorem layersAlike_refl : ∀ layers : List Layer, Value.LayersUse p layers →
    List.Forall₂ (LayerAlike σ) layers layers
  | [], _ => .nil
  | ⟨i, names⟩ :: rest, h => by
    rw [Value.LayersUse] at h
    refine .cons ⟨?_, namesAlike_refl names h.1.2⟩ (layersAlike_refl rest h.2)
    cases i with
    | none => exact .inl ⟨rfl, rfl⟩
    | some i => exact .inr ⟨i, i, rfl, rfl, hp i (h.1.1 i rfl)⟩

end

end

/-! ### Content -/

mutual

/-- A value without its identities; of a function, what it does is left, but not its scope. -/
def Value.content : Value → Value
  | .list _ items => .list 0 (Value.contents items)
  | .record _ parent fields => .record 0 (Parent.content parent) (Value.namesContent fields)
  | .map _ entries => .map 0 (Value.pairsContent entries)
  | .set _ items => .set 0 (Value.contents items)
  | .date _ t => .date 0 t
  | .html _ s => .html 0 s
  | .closure _ params body _ => .closure 0 params body []
  | .block _ content => .block 0 content
  | v => v

def Parent.content : Parent → Parent
  | .value v => .value (Value.content v)
  | p => p

def Value.contents : List Value → List Value
  | [] => []
  | v :: rest => Value.content v :: Value.contents rest

def Value.namesContent : List (String × Value) → List (String × Value)
  | [] => []
  | (name, v) :: rest => (name, Value.content v) :: Value.namesContent rest

def Value.pairsContent : List (Value × Value) → List (Value × Value)
  | [] => []
  | (a, b) :: rest => (Value.content a, Value.content b) :: Value.pairsContent rest

end

namespace Value

theorem contents_eq (vs : List Value) : contents vs = vs.map content := by
  induction vs with
  | nil => rfl
  | cons v rest ih => rw [contents, List.map_cons, ih]

theorem namesContent_eq (fs : List (String × Value)) :
    namesContent fs = fs.map fun f => (f.1, f.2.content) := by
  induction fs with
  | nil => rfl
  | cons f rest ih => rw [namesContent, List.map_cons, ih]

theorem pairsContent_eq (es : List (Value × Value)) :
    pairsContent es = es.map fun e => (e.1.content, e.2.content) := by
  induction es with
  | nil => rfl
  | cons e rest ih => rw [pairsContent, List.map_cons, ih]

end Value

theorem map_eq_map_of_forall₂ {α β γ : Type} {R : α → β → Prop} {f : α → γ} {g : β → γ} {xs : List α}
    {ys : List β} (h : List.Forall₂ R xs ys) (hR : ∀ x y, R x y → f x = g y) :
    xs.map f = ys.map g := by
  induction h with
  | nil => rfl
  | cons hxy _ ih => rw [List.map_cons, List.map_cons, hR _ _ hxy, ih]

/-- Values that are alike have the same content. -/
theorem Alike.content_eq {σ : Pairing} {v w : Value} (h : Alike σ v w) : v.content = w.content := by
  induction h with
  | list _ hlength _ ih =>
    rw [Value.content, Value.content, Value.contents_eq, Value.contents_eq]
    exact congrArg _ (map_eq_map_of_forall₂ (forall₂_of_zip hlength ih) fun _ _ h => h)
  | set _ hlength _ ih =>
    rw [Value.content, Value.content, Value.contents_eq, Value.contents_eq]
    exact congrArg _ (map_eq_map_of_forall₂ (forall₂_of_zip hlength ih) fun _ _ h => h)
  | map _ hlength _ _ ihk ihv =>
    rw [Value.content, Value.content, Value.pairsContent_eq, Value.pairsContent_eq]
    refine congrArg _ (map_eq_map_of_forall₂ (R := fun a b => a.1.content = b.1.content ∧
      a.2.content = b.2.content) ?_ fun _ _ h => ?_)
    · exact forall₂_of_zip hlength fun p hp => ⟨ihk p hp, ihv p hp⟩
    · rw [h.1, h.2]
  | @record i j p q fs gs _ hsort _ hnames _ ihp ih =>
    have hparents : p.content = q.content := by
      cases hsort with
      | plain => rfl
      | nothing => rfl
      | value v w => exact congrArg Parent.value (ihp v w rfl rfl)
    have hfields : fs.map (fun f => (f.1, f.2.content)) = gs.map fun f => (f.1, f.2.content) :=
      map_eq_map_of_forall₂
        (forall₂_of_names (R := fun v w => v.content = w.content) hnames ih) fun _ _ h =>
          Prod.ext h.1 h.2
    rw [Value.content, Value.content, Value.namesContent_eq, Value.namesContent_eq, hparents, hfields]
  | closure => rfl
  | undefined => rfl
  | null => rfl
  | flag => rfl
  | number => rfl
  | text => rfl
  | date => rfl
  | html => rfl
  | method => rfl
  | helper => rfl
  | block => rfl

end LiveTemplate
