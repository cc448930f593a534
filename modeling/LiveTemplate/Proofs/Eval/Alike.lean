import LiveTemplate.Eval
import LiveTemplate.Proofs.Expr.Confined
import Mathlib.Data.List.Forall2

/-!
Values of two evaluations that a template cannot tell apart. Identities of one evaluation stand for
identities of the other. Functions may have been made where different names are in reach, as long as
they look up nothing there but what is alike on both sides.
-/

namespace LiveTemplate

set_option autoImplicit false

/-! ### Following fields -/

namespace Value

/-- What a member of a value is, if that can be told. -/
def member? (v : Value) (name : String) : Option Value :=
  if name = "size" && v.borrowsSize then none
  else if name = parentName && v.takesParent then some v.parent
  else some ((v.lookup? name).getD undefined)

theorem member_eq (v : Value) (name : String) :
    v.member name = match v.member? name with
      | some u => pure u
      | none => throw .badOperand := by
  rw [member, member?]
  split
  · rfl
  · split <;> rfl

/-- The value at the end of a path of fields, if it can be read. -/
def follow : Value → List String → Option Value
  | v, [] => some v
  | v, name :: path =>
    if v.isAbsent || name ∈ blockedFields then none
    else (v.member? name).bind fun u => follow u path

/-- Reads along a path go on in step: they end on the way for both values in the same manner, or for
neither. -/
def InStep : List String → Value → Value → Prop
  | [], _, _ => True
  | name :: path, v, w =>
    (v.isAbsent = true ∧ v = w) ∨
      (v.isAbsent = false ∧ w.isAbsent = false ∧
        (name ∈ blockedFields ∨ match v.member? name, w.member? name with
          | some u, some t => InStep path u t
          | none, none => True
          | _, _ => False))

end Value

/-! ### Alike values -/

/-- Which identities of one evaluation stand for which of another. -/
abbrev Pairing := Identity → Identity → Prop

/-- Identities stand for each other one to one; that of what all values have in common stands for
itself. -/
structure Pairing.Exact (σ : Pairing) : Prop where
  eq_iff : ∀ {i j k l : Identity}, σ i j → σ k l → (i = k ↔ j = l)
  shared : σ 0 0

/-- Layers have no identities, or such that stand for each other. -/
def Layer.IdsMatch (σ : Pairing) (a b : Layer) : Prop :=
  (a.id = none ∧ b.id = none) ∨ ∃ i j, a.id = some i ∧ b.id = some j ∧ σ i j

/-- Parents of the same sort. -/
inductive Parent.SameSort : Parent → Parent → Prop
  | plain : SameSort .plain .plain
  | nothing : SameSort .nothing .nothing
  | value (v w : Value) : SameSort (.value v) (.value w)

/-- Values that a template cannot tell apart. Lists are compared place by place. The scope of a
function is split in two: its inner layers are alike, and beyond them the function looks up only
what is granted, where both sides lead to values that are alike. -/
inductive Alike (σ : Pairing) : Value → Value → Prop
  | undefined : Alike σ .undefined .undefined
  | null : Alike σ .null .null
  | flag (b : Bool) : Alike σ (.flag b) (.flag b)
  | number (x : Float) : Alike σ (.number x) (.number x)
  | text (s : String) : Alike σ (.text s) (.text s)
  | list {i j : Identity} {xs ys : List Value} (hid : σ i j) (hlength : xs.length = ys.length)
      (hall : ∀ p ∈ xs.zip ys, Alike σ p.1 p.2) : Alike σ (.list i xs) (.list j ys)
  | record {i j : Identity} {p q : Parent} {fs gs : List (String × Value)} (hid : σ i j)
      (hsort : p.SameSort q) (hparent : ∀ v w, p = .value v → q = .value w → Alike σ v w)
      (hnames : fs.map Prod.fst = gs.map Prod.fst)
      (hall : ∀ e ∈ fs.zip gs, Alike σ e.1.2 e.2.2) : Alike σ (.record i p fs) (.record j q gs)
  | map {i j : Identity} {xs ys : List (Value × Value)} (hid : σ i j)
      (hlength : xs.length = ys.length) (hkeys : ∀ p ∈ xs.zip ys, Alike σ p.1.1 p.2.1)
      (hvalues : ∀ p ∈ xs.zip ys, Alike σ p.1.2 p.2.2) : Alike σ (.map i xs) (.map j ys)
  | set {i j : Identity} {xs ys : List Value} (hid : σ i j) (hlength : xs.length = ys.length)
      (hall : ∀ p ∈ xs.zip ys, Alike σ p.1 p.2) : Alike σ (.set i xs) (.set j ys)
  | date {i j : Identity} (time : Option Int) (hid : σ i j) : Alike σ (.date i time) (.date j time)
  | html {i j : Identity} (markup : String) (hid : σ i j) :
      Alike σ (.html i markup) (.html j markup)
  | method (m : Method) : Alike σ (.method m) (.method m)
  | helper (h : Helper) : Alike σ (.helper h) (.helper h)
  | closure {i j : Identity} {params : List Pattern} {body : Expr} {inner inner' outer outer' : Scope}
      {granted : String → List String → Prop} {known : List String} (hid : σ i j)
      (hlength : inner.length = inner'.length)
      (hids : ∀ p ∈ inner.zip inner', p.1.IdsMatch σ p.2)
      (hnames : ∀ p ∈ inner.zip inner', p.1.names.map Prod.fst = p.2.names.map Prod.fst)
      (hinner : ∀ p ∈ inner.zip inner', ∀ e ∈ p.1.names.zip p.2.names, Alike σ e.1.2 e.2.2)
      (houter : ∀ layer ∈ outer, layer.id = none) (houter' : ∀ layer ∈ outer', layer.id = none)
      (hfound : ∀ x path, granted x path → (outer.lookup x).isSome = (outer'.lookup x).isSome)
      (hstep : ∀ x path v w, granted x path → outer.lookup x = some v → outer'.lookup x = some w →
        Value.InStep path v w)
      (hend : ∀ x path v w u t, granted x path → outer.lookup x = some v →
        outer'.lookup x = some w → v.follow path = some u → w.follow path = some t → Alike σ u t)
      (hknown : ∀ x ∈ known, ∃ layer ∈ inner, layer.id = none ∧ x ∈ Assoc.keys layer.names)
      (hparams : Pattern.AllConfined granted known params)
      (hbody : body.Confined granted (known ++ Pattern.allNames params)) :
      Alike σ (.closure i params body (inner ++ outer)) (.closure j params body (inner' ++ outer'))
  | block {i j : Identity} (content : Block) (hid : σ i j) :
      Alike σ (.block i content) (.block j content)

/-- Names in the same order, with values that are alike. -/
def NamesAlike (σ : Pairing) : List (String × Value) → List (String × Value) → Prop :=
  List.Forall₂ fun a b => a.1 = b.1 ∧ Alike σ a.2 b.2

def PairsAlike (σ : Pairing) : List (Value × Value) → List (Value × Value) → Prop :=
  List.Forall₂ fun a b => Alike σ a.1 b.1 ∧ Alike σ a.2 b.2

structure LayerAlike (σ : Pairing) (a b : Layer) : Prop where
  ids : a.IdsMatch σ b
  names : NamesAlike σ a.names b.names

inductive ParentAlike (σ : Pairing) : Parent → Parent → Prop
  | plain : ParentAlike σ .plain .plain
  | nothing : ParentAlike σ .nothing .nothing
  | value {v w : Value} (h : Alike σ v w) : ParentAlike σ (.value v) (.value w)

/-- Reads along a path go on in step and end at values that are alike. -/
structure Value.Meet (σ : Pairing) (path : List String) (v w : Value) : Prop where
  inStep : Value.InStep path v w
  alike : ∀ {u t : Value}, v.follow path = some u → w.follow path = some t → Alike σ u t

/-- Scopes in which what is confined evaluates alike. -/
structure ScopeAlike (σ : Pairing) (granted : String → List String → Prop) (known : List String)
    (inner inner' outer outer' : Scope) : Prop where
  layers : List.Forall₂ (LayerAlike σ) inner inner'
  plain : ∀ layer ∈ outer, layer.id = none
  plain' : ∀ layer ∈ outer', layer.id = none
  meet : ∀ {x : String} {path : List String}, granted x path →
    Option.Rel (Value.Meet σ path) (outer.lookup x) (outer'.lookup x)
  known : ∀ x ∈ known, ∃ layer ∈ inner, layer.id = none ∧ x ∈ Assoc.keys layer.names

section Lists
variable {α β : Type} {R : α → β → Prop} {xs : List α} {ys : List β}

theorem forall₂_of_zip (hlength : xs.length = ys.length) (h : ∀ p ∈ xs.zip ys, R p.1 p.2) :
    List.Forall₂ R xs ys := List.forall₂_iff_zip.mpr ⟨hlength, fun hp => h _ hp⟩

theorem zip_of_forall₂ (h : List.Forall₂ R xs ys) : ∀ p ∈ xs.zip ys, R p.1 p.2 :=
  fun _ hp => List.forall₂_zip h hp

end Lists

theorem forall₂_of_names {α β : Type} {R : α → β → Prop} {fs : List (String × α)}
    {gs : List (String × β)} (hnames : fs.map Prod.fst = gs.map Prod.fst)
    (hall : ∀ e ∈ fs.zip gs, R e.1.2 e.2.2) :
    List.Forall₂ (fun a b => a.1 = b.1 ∧ R a.2 b.2) fs gs := by
  induction fs generalizing gs with
  | nil =>
    cases gs with
    | nil => exact .nil
    | cons g rest => cases hnames
  | cons f more ih =>
    cases gs with
    | nil => cases hnames
    | cons g rest =>
      rw [List.map_cons, List.map_cons, List.cons.injEq] at hnames
      rw [List.zip_cons_cons, List.forall_mem_cons] at hall
      exact .cons ⟨hnames.1, hall.1⟩ (ih hnames.2 hall.2)

theorem isSome_eq_of_rel {α β : Type} {R : α → β → Prop} {a : Option α} {b : Option β}
    (h : Option.Rel R a b) : a.isSome = b.isSome := by
  cases h with
  | none => rfl
  | some _ => rfl

theorem rel_of_isSome_eq {α β : Type} {R : α → β → Prop} {a : Option α} {b : Option β}
    (hsome : a.isSome = b.isSome) (h : ∀ x y, a = some x → b = some y → R x y) :
    Option.Rel R a b := by
  cases a with
  | none =>
    cases b with
    | none => exact .none
    | some y => cases hsome
  | some x =>
    cases b with
    | none => cases hsome
    | some y => exact .some (h x y rfl rfl)

namespace Alike

variable {σ : Pairing}

/-! ### Making and taking apart -/

theorem of_list {i j : Identity} {xs ys : List Value} (hid : σ i j)
    (h : List.Forall₂ (Alike σ) xs ys) : Alike σ (.list i xs) (.list j ys) :=
  .list hid h.length_eq (zip_of_forall₂ h)

theorem of_set {i j : Identity} {xs ys : List Value} (hid : σ i j)
    (h : List.Forall₂ (Alike σ) xs ys) : Alike σ (.set i xs) (.set j ys) :=
  .set hid h.length_eq (zip_of_forall₂ h)

theorem of_map {i j : Identity} {xs ys : List (Value × Value)} (hid : σ i j)
    (h : PairsAlike σ xs ys) : Alike σ (.map i xs) (.map j ys) :=
  .map hid h.length_eq (fun p hp => (zip_of_forall₂ h p hp).1) fun p hp => (zip_of_forall₂ h p hp).2

theorem of_record {i j : Identity} {p q : Parent} {fs gs : List (String × Value)} (hid : σ i j)
    (hparent : ParentAlike σ p q) (h : NamesAlike σ fs gs) :
    Alike σ (.record i p fs) (.record j q gs) := by
  refine .record hid ?_ ?_ ?_ fun e he => (zip_of_forall₂ h e he).2
  · cases hparent with
    | plain => exact .plain
    | nothing => exact .nothing
    | value => exact .value _ _
  · rintro v w rfl rfl
    cases hparent with
    | value h => exact h
  · exact List.forall₂_eq_eq_eq ▸ List.rel_map (fun _ _ hp => hp.1) h

theorem parentAlike_of {p q : Parent} (hsort : p.SameSort q)
    (hparent : ∀ v w, p = .value v → q = .value w → Alike σ v w) : ParentAlike σ p q := by
  cases hsort with
  | plain => exact .plain
  | nothing => exact .nothing
  | value v w => exact .value (hparent v w rfl rfl)

theorem record_inv {i : Identity} {p : Parent} {fs : List (String × Value)} {w : Value}
    (h : Alike σ (.record i p fs) w) :
    ∃ j q gs, w = .record j q gs ∧ σ i j ∧ ParentAlike σ p q ∧ NamesAlike σ fs gs := by
  cases h with
  | record hid hsort hparent hnames hall =>
    exact ⟨_, _, _, rfl, hid, parentAlike_of hsort hparent, forall₂_of_names hnames hall⟩

theorem of_closure {i j : Identity} {params : List Pattern} {body : Expr}
    {granted : String → List String → Prop} {known : List String}
    {inner inner' outer outer' : Scope} (hid : σ i j)
    (h : ScopeAlike σ granted known inner inner' outer outer')
    (hparams : Pattern.AllConfined granted known params)
    (hbody : body.Confined granted (known ++ Pattern.allNames params)) :
    Alike σ (.closure i params body (inner ++ outer)) (.closure j params body (inner' ++ outer')) := by
  refine .closure hid h.layers.length_eq (fun p hp => (zip_of_forall₂ h.layers p hp).ids)
    (fun p hp => ?_) (fun p hp e he => ?_) h.plain h.plain' (fun x path hx => ?_)
    (fun x path v w hx hv hw => ?_) (fun x path v w u t hx hv hw hu ht => ?_) h.known hparams hbody
  · exact List.forall₂_eq_eq_eq ▸
      List.rel_map (fun _ _ hp => hp.1) (zip_of_forall₂ h.layers p hp).names
  · exact (zip_of_forall₂ (zip_of_forall₂ h.layers p hp).names e he).2
  all_goals have hmeet := h.meet hx
  · exact isSome_eq_of_rel hmeet
  · rw [hv, hw] at hmeet
    cases hmeet with
    | some hmeet => exact hmeet.inStep
  · rw [hv, hw] at hmeet
    cases hmeet with
    | some hmeet => exact hmeet.alike hu ht

theorem closure_inv {i : Identity} {params : List Pattern} {body : Expr} {scope : Scope} {w : Value}
    (h : Alike σ (.closure i params body scope) w) :
    ∃ j granted known, ∃ inner inner' outer outer' : Scope, scope = inner ++ outer ∧
      w = .closure j params body (inner' ++ outer') ∧ σ i j ∧
      ScopeAlike σ granted known inner inner' outer outer' ∧
      Pattern.AllConfined granted known params ∧
      body.Confined granted (known ++ Pattern.allNames params) := by
  cases h with
  | @closure _ j _ _ inner inner' outer outer' granted known hid hlength hids hnames hinner houter
      houter' hfound hstep hend hknown hparams hbody =>
    refine ⟨j, granted, known, inner, inner', outer, outer', rfl, rfl, hid, ?_, hparams, hbody⟩
    refine ⟨forall₂_of_zip hlength fun p hp => ?_, houter, houter', fun {x path} hx => ?_, hknown⟩
    · exact ⟨hids p hp, forall₂_of_names (hnames p hp) (hinner p hp)⟩
    · exact rel_of_isSome_eq (hfound x path hx) fun v w hv hw =>
        ⟨hstep x path v w hx hv hw, hend x path v w _ _ hx hv hw⟩

end Alike

end LiveTemplate
