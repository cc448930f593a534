import LiveTemplate.Proofs.Eval.Operations

/-!
Lookups in scopes that are alike, and reads along chains of fields that start from them.
-/

namespace LiveTemplate

set_option autoImplicit false

variable {σ : Pairing}

/-! ### Reads that meet -/

theorem Value.Meet.nil_iff {v w : Value} : Value.Meet σ [] v w ↔ Alike σ v w :=
  ⟨fun h => h.alike rfl rfl, fun h => ⟨trivial, fun hu ht => by cases hu; cases ht; exact h⟩⟩

section Meet
variable {name : String} {path : List String} {v w : Value} (h : Value.Meet σ (name :: path) v w)
include h

theorem Value.Meet.isAbsent_eq : v.isAbsent = w.isAbsent := by
  rcases h.inStep with ⟨-, rfl⟩ | ⟨hv, hw, -⟩
  · rfl
  · rw [hv, hw]

theorem Value.Meet.read (span : Span) :
    Both σ (Value.Meet σ path) (v.read name span) (w.read name span) := by
  rw [Value.read, Value.read]
  rcases h.inStep with ⟨hv, rfl⟩ | ⟨hv, hw, hrest⟩
  · rw [if_pos hv]
    exact .fail _ _
  · rw [hv, hw, if_neg Bool.false_ne_true, if_neg Bool.false_ne_true]
    by_cases hblocked : name ∈ blockedFields
    · rw [if_pos hblocked, if_pos hblocked]
      exact .fail _ _
    · rw [if_neg hblocked, if_neg hblocked, Value.member_eq, Value.member_eq]
      have hin := hrest.resolve_left hblocked
      have hfollow : ∀ {x u : Value}, x.isAbsent = false → x.member? name = some u →
          x.follow (name :: path) = u.follow path := by
        intro x u hx hu
        rw [Value.follow, hx, hu]
        simp [hblocked]
      cases hu : v.member? name with
      | none =>
        cases ht : w.member? name with
        | none => exact .throw _
        | some t =>
          rw [hu, ht] at hin
          exact hin.elim
      | some u =>
        cases ht : w.member? name with
        | none =>
          rw [hu, ht] at hin
          exact hin.elim
        | some t =>
          rw [hu, ht] at hin
          refine .pure ⟨hin, fun {x y} hx hy => ?_⟩
          rw [← hfollow hv hu] at hx
          rw [← hfollow hw ht] at hy
          exact h.alike hx hy

end Meet

/-! ### Lookups -/

theorem Scope.lookup_append (inner outer : Scope) (x : String) :
    Scope.lookup (inner ++ outer) x = (inner.lookup x).or (outer.lookup x) := by
  induction inner with
  | nil => rfl
  | cons layer rest ih =>
    rw [List.cons_append, Scope.lookup, Scope.lookup]
    cases Assoc.get? layer.names x with
    | none => exact ih
    | some v => rfl

theorem get?_isSome_of_mem_keys {names : List (String × Value)} {x : String}
    (h : x ∈ Assoc.keys names) : (Assoc.get? names x).isSome = true := by
  induction names with
  | nil => cases h
  | cons e rest ih =>
    obtain ⟨k, v⟩ := e
    rw [Assoc.get?]
    split
    · rfl
    · rename_i hk
      rcases List.mem_cons.mp h with rfl | h
      · exact absurd rfl hk
      · exact ih h

theorem lookup_isSome_of_mem {scope : Scope} {layer : Layer} (hlayer : layer ∈ scope) {x : String}
    (hx : x ∈ Assoc.keys layer.names) : (scope.lookup x).isSome = true := by
  induction scope with
  | nil => cases hlayer
  | cons first rest ih =>
    rw [Scope.lookup]
    cases hget : Assoc.get? first.names x with
    | some v => rfl
    | none =>
      rcases List.mem_cons.mp hlayer with rfl | hlayer
      · have hsome := get?_isSome_of_mem_keys hx
        rw [hget] at hsome
        cases hsome
      · exact ih hlayer

theorem LayerAlike.current (hσ : σ.Exact) {a b : Layer} (h : LayerAlike σ a b) {v w : Value}
    (hvw : Alike σ v w) : Alike σ (a.current v) (b.current w) := by
  rcases h.ids with ⟨ha, hb⟩ | ⟨i, j, ha, hb, hid⟩
  · rw [current_of_plain ha, current_of_plain hb]
    exact hvw
  · rw [Layer.current, Layer.current, ha, hb]
    exact hvw.rebind hσ hid h

theorem lookup_alike (hσ : σ.Exact) {inner inner' : Scope}
    (h : List.Forall₂ (LayerAlike σ) inner inner') (x : String) :
    Option.Rel (Alike σ) (inner.lookup x) (inner'.lookup x) := by
  induction h with
  | nil => exact .none
  | @cons a b as bs hab _ ih =>
    have hget := hab.names.get? x
    rw [Scope.lookup, Scope.lookup]
    generalize Assoc.get? a.names x = c at hget
    generalize Assoc.get? b.names x = d at hget
    cases hget with
    | none => exact ih
    | some hvw => exact .some (hab.current hσ hvw)

/-- Two scopes in which what is confined evaluates alike. -/
def Scopes (σ : Pairing) (granted : String → List String → Prop) (known : List String)
    (s s' : Scope) : Prop :=
  ∃ inner inner' outer outer' : Scope, s = inner ++ outer ∧ s' = inner' ++ outer' ∧
    ScopeAlike σ granted known inner inner' outer outer'

section Scopes
variable {granted : String → List String → Prop} {known : List String} {s s' : Scope}
  (h : Scopes σ granted known s s')
include h

theorem Scopes.lookup (hσ : σ.Exact) {x : String} {path : List String}
    (hx : x ∈ known ∨ granted x path) :
    Option.Rel (Value.Meet σ path) (s.lookup x) (s'.lookup x) := by
  obtain ⟨inner, inner', outer, outer', rfl, rfl, h⟩ := h
  have hinner := lookup_alike hσ h.layers x
  rw [Scope.lookup_append, Scope.lookup_append]
  cases hv : inner.lookup x with
  | some v =>
    cases hw : inner'.lookup x with
    | some w =>
      rw [hv, hw] at hinner
      cases hinner with
      | some hvw => exact .some (hvw.meet hσ path)
    | none =>
      rw [hv, hw] at hinner
      cases hinner
  | none =>
    cases hw : inner'.lookup x with
    | some w =>
      rw [hv, hw] at hinner
      cases hinner
    | none =>
      refine h.meet (hx.resolve_left fun hknown => ?_)
      obtain ⟨layer, hlayer, -, hkey⟩ := h.known x hknown
      have hsome := lookup_isSome_of_mem hlayer hkey
      rw [hv] at hsome
      cases hsome

/-- Scopes stay alike under a further layer, whose names become known if it is a finished one. -/
theorem Scopes.extend {a b : Layer} (hab : LayerAlike σ a b) {more : List String}
    (hmore : ∀ x ∈ more, a.id = none ∧ x ∈ Assoc.keys a.names) :
    Scopes σ granted (known ++ more) (s.extend a) (s'.extend b) := by
  obtain ⟨inner, inner', outer, outer', rfl, rfl, h⟩ := h
  have hempty : a.names.isEmpty = b.names.isEmpty := by
    rw [Bool.eq_iff_iff, List.isEmpty_iff_length_eq_zero, List.isEmpty_iff_length_eq_zero,
      hab.names.length_eq]
  rw [Scope.extend, Scope.extend, ← hempty]
  split
  · rename_i hnone
    refine ⟨inner, inner', outer, outer', rfl, rfl,
      ⟨h.layers, h.plain, h.plain', h.meet, fun x hx => ?_⟩⟩
    rcases List.mem_append.mp hx with hx | hx
    · exact h.known x hx
    · have hkey := (hmore x hx).2
      rw [List.isEmpty_iff.mp hnone] at hkey
      cases hkey
  · refine ⟨a :: inner, b :: inner', outer, outer', rfl, rfl,
      ⟨.cons hab h.layers, h.plain, h.plain', h.meet, fun x hx => ?_⟩⟩
    rcases List.mem_append.mp hx with hx | hx
    · obtain ⟨layer, hlayer, hrest⟩ := h.known x hx
      exact ⟨layer, List.mem_cons_of_mem _ hlayer, hrest⟩
    · exact ⟨a, List.mem_cons_self, (hmore x hx).1, (hmore x hx).2⟩

theorem Scopes.closure {i j : Identity} (hid : σ i j) {params : List Pattern} {body : Expr}
    (hparams : Pattern.AllConfined granted known params)
    (hbody : body.Confined granted (known ++ Pattern.allNames params)) :
    Alike σ (.closure i params body s) (.closure j params body s') := by
  obtain ⟨inner, inner', outer, outer', rfl, rfl, h⟩ := h
  exact .of_closure hid h hparams hbody

end Scopes

theorem Alike.closure_scopes {i : Identity} {params : List Pattern} {body : Expr} {scope : Scope}
    {w : Value} (h : Alike σ (.closure i params body scope) w) :
    ∃ j scope' granted known, w = .closure j params body scope' ∧ σ i j ∧
      Scopes σ granted known scope scope' ∧ Pattern.AllConfined granted known params ∧
      body.Confined granted (known ++ Pattern.allNames params) := by
  obtain ⟨j, granted, known, inner, inner', outer, outer', rfl, rfl, hid, hscope, hparams, hbody⟩ :=
    h.closure_inv
  exact ⟨j, _, granted, known, rfl, hid, ⟨_, _, _, _, rfl, rfl, hscope⟩, hparams, hbody⟩

/-! ### Chains -/

theorem link_literal (call : Call) (scope : Scope) (value : Literal) (span : Span) :
    settle (Expr.link call scope (.literal value span)) = pure (Value.ofLiteral value) := by
  rw [Expr.link, settle, map_pure]
  rfl

theorem link_keyed (call : Call) (scope : Scope) (target key : Expr) (opt : Bool) (span : Span) :
    Expr.link call scope (.keyed target key opt span) = (do
      match ← Expr.link call scope target with
      | none => return none
      | some v =>
        if opt && v.isAbsent then return none
        else
          let k ← settle (Expr.link call scope key)
          let n ← k.fieldName key.span
          some <$> v.read n span) := by
  rewrite [Expr.link]
  rfl

theorem fieldName_ofLiteral {value : Literal} {field : String} (h : value.fieldName? = some field)
    (span : Span) : (Value.ofLiteral value).fieldName span = pure field := by
  cases value <;> cases h <;> rfl

/-- Reads along a chain of fields meet as long as those from its root do. -/
theorem both_chain {call : Call} {s s' : Scope} {root : String} (e : Expr) :
    ∀ {path : List String}, e.chain? = some (root, path) → ∀ rest : List String,
      Option.Rel (Value.Meet σ (path ++ rest)) (s.lookup root) (s'.lookup root) →
        Both σ (Option.Rel (Value.Meet σ rest)) (e.link call s) (e.link call s') := by
  induction e using Expr.chain?.induct with
  | case1 n span =>
    intro path hchain rest h
    rw [Expr.chain?, Option.some.injEq, Prod.mk.injEq] at hchain
    obtain ⟨rfl, rfl⟩ := hchain
    rw [Expr.link, Expr.link]
    rw [List.nil_append] at h
    generalize s.lookup n = a at h
    generalize s'.lookup n = b at h
    cases h with
    | none => exact .fail _ _
    | some h => exact .pure (.some h)
  | case2 target field opt span ih =>
    intro path hchain rest h
    rw [Expr.chain?] at hchain
    obtain ⟨⟨root', before⟩, htarget, hpath⟩ := Option.bind_eq_some_iff.mp hchain
    rw [Option.some.injEq, Prod.mk.injEq] at hpath
    obtain ⟨rfl, rfl⟩ := hpath
    rw [List.append_assoc, List.singleton_append] at h
    rw [Expr.link, Expr.link]
    refine (ih htarget (field :: rest) h).bind fun a b hab => ?_
    cases hab with
    | none => exact .pure .none
    | some hmeet =>
      refine Both.ite (by rw [hmeet.isAbsent_eq]) (fun _ => .pure .none) fun _ => ?_
      exact (hmeet.read span).map fun _ _ hut => .some hut
  | case3 target value place opt span ih =>
    intro path hchain rest h
    rw [Expr.chain?] at hchain
    obtain ⟨field, hfield, hchain⟩ := Option.bind_eq_some_iff.mp hchain
    obtain ⟨⟨root', before⟩, htarget, hpath⟩ := Option.bind_eq_some_iff.mp hchain
    rw [Option.some.injEq, Prod.mk.injEq] at hpath
    obtain ⟨rfl, rfl⟩ := hpath
    rw [List.append_assoc, List.singleton_append] at h
    rw [link_keyed, link_keyed]
    refine (ih htarget (field :: rest) h).bind fun a b hab => ?_
    cases hab with
    | none => exact .pure .none
    | some hmeet =>
      refine Both.ite (by rw [hmeet.isAbsent_eq]) (fun _ => .pure .none) fun _ => ?_
      simp only [link_literal, pure_bind, fieldName_ofLiteral hfield]
      exact (hmeet.read span).map fun _ _ hut => .some hut
  | case4 e hname hmember hkeyed =>
    intro path hchain
    rw [Expr.chain?] at hchain
    · cases hchain
    · exact hname
    · exact hmember
    · exact hkeyed

end LiveTemplate
