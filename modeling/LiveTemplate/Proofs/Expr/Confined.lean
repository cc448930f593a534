import LiveTemplate.Expr.Reads

/-!
Confined expressions. Beyond the names that are known, a confined expression looks up only names that
are granted, and each of them only to follow a path of fields that is granted with it.
-/

namespace LiveTemplate

set_option autoImplicit false

section
variable (granted : String → List String → Prop)

mutual

/-- All lookups of an expression are of known names or along granted paths. -/
def Expr.Confined (known : List String) : Expr → Prop
  | .literal _ _ => True
  | .template _ parts _ => Expr.PartsConfined known parts
  | .name n _ => n ∈ known ∨ granted n []
  | .member target field opt span =>
    match Expr.chain? (.member target field opt span) with
    | some (root, path) => root ∈ known ∨ granted root path
    | none => Expr.Confined known target
  | .keyed target key opt span =>
    match Expr.chain? (.keyed target key opt span) with
    | some (root, path) => root ∈ known ∨ granted root path
    | none => Expr.Confined known target ∧ Expr.Confined known key
  | .call (.member target _ _ _) args _ _ =>
    Expr.Confined known target ∧ Expr.ListConfined known args
  | .call (.keyed target key _ _) args _ _ =>
    Expr.Confined known target ∧ Expr.Confined known key ∧ Expr.ListConfined known args
  | .call callee args _ _ => Expr.Confined known callee ∧ Expr.ListConfined known args
  | .unary _ e _ => Expr.Confined known e
  | .binary _ l r _ => Expr.Confined known l ∧ Expr.Confined known r
  | .conditional c y n _ =>
    Expr.Confined known c ∧ Expr.Confined known y ∧ Expr.Confined known n
  | .array es _ => Expr.ListConfined known es
  | .object fields _ => Expr.FieldsConfined known fields
  | .arrow params body _ =>
    Pattern.AllConfined known params ∧ Expr.Confined (known ++ Pattern.allNames params) body

def Expr.ListConfined (known : List String) : List Expr → Prop
  | [] => True
  | e :: rest => Expr.Confined known e ∧ Expr.ListConfined known rest

def Expr.PartsConfined (known : List String) : List (Expr × String) → Prop
  | [] => True
  | (e, _) :: rest => Expr.Confined known e ∧ Expr.PartsConfined known rest

def Expr.FieldsConfined (known : List String) : List (String × Expr) → Prop
  | [] => True
  | (_, e) :: rest => Expr.Confined known e ∧ Expr.FieldsConfined known rest

def Pattern.AllConfined (known : List String) : List Pattern → Prop
  | [] => True
  | p :: rest => Pattern.Confined known p ∧ Pattern.AllConfined known rest

/-- All lookups of the defaults of a pattern are of known names or along granted paths. -/
def Pattern.Confined (known : List String) : Pattern → Prop
  | .name _ _ => True
  | .array elements _ => Pattern.ElementsConfined known elements
  | .object properties _ => Pattern.PropertiesConfined known properties
  | .fallback target value _ => Expr.Confined known value ∧ Pattern.Confined known target

def Pattern.ElementsConfined (known : List String) : List (Option Pattern) → Prop
  | [] => True
  | none :: rest => Pattern.ElementsConfined known rest
  | some p :: rest => Pattern.Confined known p ∧ Pattern.ElementsConfined known rest

def Pattern.PropertiesConfined (known : List String) : List (String × Pattern) → Prop
  | [] => True
  | (_, p) :: rest => Pattern.Confined known p ∧ Pattern.PropertiesConfined known rest

end

end

section
variable {granted : String → List String → Prop} (h : ∀ x path, granted x path)
include h

set_option linter.unusedSectionVars false in
mutual

/-- Where everything is granted, every expression is confined. -/
theorem Expr.confined_of_granted (known : List String) : ∀ e : Expr, e.Confined granted known
  | .literal _ _ => by rw [Expr.Confined]; trivial
  | .template _ parts _ => by
    rw [Expr.Confined]
    exact Expr.partsConfined_of_granted known parts
  | .name n _ => by
    rw [Expr.Confined]
    exact .inr (h n [])
  | .member target field opt span => by
    rw [Expr.Confined]
    split
    · exact .inr (h _ _)
    · exact Expr.confined_of_granted known target
  | .keyed target key opt span => by
    rw [Expr.Confined]
    split
    · exact .inr (h _ _)
    · exact ⟨Expr.confined_of_granted known target, Expr.confined_of_granted known key⟩
  | .call callee args _ _ => by
    have hcallee := Expr.confined_of_granted known callee
    have hargs := Expr.listConfined_of_granted known args
    cases callee with
    | member target _ _ _ =>
      rw [Expr.Confined]
      exact ⟨Expr.confined_of_granted known target, hargs⟩
    | keyed target key _ _ =>
      rw [Expr.Confined]
      exact ⟨Expr.confined_of_granted known target, Expr.confined_of_granted known key, hargs⟩
    | _ =>
      simp only [Expr.Confined] at hcallee ⊢
      exact ⟨hcallee, hargs⟩
  | .unary _ e _ => by
    rw [Expr.Confined]
    exact Expr.confined_of_granted known e
  | .binary _ l r _ => by
    rw [Expr.Confined]
    exact ⟨Expr.confined_of_granted known l, Expr.confined_of_granted known r⟩
  | .conditional c y n _ => by
    rw [Expr.Confined]
    exact ⟨Expr.confined_of_granted known c, Expr.confined_of_granted known y,
      Expr.confined_of_granted known n⟩
  | .array es _ => by
    rw [Expr.Confined]
    exact Expr.listConfined_of_granted known es
  | .object fields _ => by
    rw [Expr.Confined]
    exact Expr.fieldsConfined_of_granted known fields
  | .arrow params body _ => by
    rw [Expr.Confined]
    exact ⟨Pattern.allConfined_of_granted known params, Expr.confined_of_granted _ body⟩

theorem Expr.listConfined_of_granted (known : List String) :
    ∀ es : List Expr, Expr.ListConfined granted known es
  | [] => by rw [Expr.ListConfined]; trivial
  | e :: rest => by
    rw [Expr.ListConfined]
    exact ⟨Expr.confined_of_granted known e, Expr.listConfined_of_granted known rest⟩

theorem Expr.partsConfined_of_granted (known : List String) :
    ∀ parts : List (Expr × String), Expr.PartsConfined granted known parts
  | [] => by rw [Expr.PartsConfined]; trivial
  | (e, _) :: rest => by
    rw [Expr.PartsConfined]
    exact ⟨Expr.confined_of_granted known e, Expr.partsConfined_of_granted known rest⟩

theorem Expr.fieldsConfined_of_granted (known : List String) :
    ∀ fields : List (String × Expr), Expr.FieldsConfined granted known fields
  | [] => by rw [Expr.FieldsConfined]; trivial
  | (_, e) :: rest => by
    rw [Expr.FieldsConfined]
    exact ⟨Expr.confined_of_granted known e, Expr.fieldsConfined_of_granted known rest⟩

theorem Pattern.allConfined_of_granted (known : List String) :
    ∀ params : List Pattern, Pattern.AllConfined granted known params
  | [] => by rw [Pattern.AllConfined]; trivial
  | p :: rest => by
    rw [Pattern.AllConfined]
    exact ⟨Pattern.confined_of_granted known p, Pattern.allConfined_of_granted known rest⟩

theorem Pattern.confined_of_granted (known : List String) :
    ∀ p : Pattern, p.Confined granted known
  | .name _ _ => by rw [Pattern.Confined]; trivial
  | .array elements _ => by
    rw [Pattern.Confined]
    exact Pattern.elementsConfined_of_granted known elements
  | .object properties _ => by
    rw [Pattern.Confined]
    exact Pattern.propertiesConfined_of_granted known properties
  | .fallback target value _ => by
    rw [Pattern.Confined]
    exact ⟨Expr.confined_of_granted known value, Pattern.confined_of_granted known target⟩

theorem Pattern.elementsConfined_of_granted (known : List String) :
    ∀ elements : List (Option Pattern), Pattern.ElementsConfined granted known elements
  | [] => by rw [Pattern.ElementsConfined]; trivial
  | none :: rest => by
    rw [Pattern.ElementsConfined]
    exact Pattern.elementsConfined_of_granted known rest
  | some p :: rest => by
    rw [Pattern.ElementsConfined]
    exact ⟨Pattern.confined_of_granted known p, Pattern.elementsConfined_of_granted known rest⟩

theorem Pattern.propertiesConfined_of_granted (known : List String) :
    ∀ properties : List (String × Pattern), Pattern.PropertiesConfined granted known properties
  | [] => by rw [Pattern.PropertiesConfined]; trivial
  | (_, p) :: rest => by
    rw [Pattern.PropertiesConfined]
    exact ⟨Pattern.confined_of_granted known p, Pattern.propertiesConfined_of_granted known rest⟩

end

end

/-! ### More names and more paths -/

section
variable {granted granted' : String → List String → Prop}

/-- What may be looked up in one setting may be in another. -/
def Allows (granted granted' : String → List String → Prop) (known known' : List String) : Prop :=
  ∀ x path, x ∈ known ∨ granted x path → x ∈ known' ∨ granted' x path

theorem Allows.append {known known' : List String} (h : Allows granted granted' known known')
    (names : List String) : Allows granted granted' (known ++ names) (known' ++ names) := by
  intro x path hx
  rw [List.mem_append] at hx ⊢
  rcases hx with (hx | hx) | hx
  · exact (h x path (.inl hx)).imp_left .inl
  · exact .inl (.inr hx)
  · exact (h x path (.inr hx)).imp_left .inl

mutual

theorem Expr.Confined.imp {known known' : List String} (h : Allows granted granted' known known') :
    ∀ {e : Expr}, e.Confined granted known → e.Confined granted' known'
  | .literal _ _, _ => by rw [Expr.Confined]; trivial
  | .template _ parts _, hc => by
    rw [Expr.Confined] at hc ⊢
    exact Expr.PartsConfined.imp h hc
  | .name x _, hc => by
    rw [Expr.Confined] at hc ⊢
    exact h x [] hc
  | .member target field opt span, hc => by
    rw [Expr.Confined] at hc ⊢
    split at hc
    · exact h _ _ hc
    · exact Expr.Confined.imp h hc
  | .keyed target key opt span, hc => by
    rw [Expr.Confined] at hc ⊢
    split at hc
    · exact h _ _ hc
    · exact ⟨Expr.Confined.imp h hc.1, Expr.Confined.imp h hc.2⟩
  | .call callee args _ _, hc => by
    have hcallee : callee.Confined granted known → callee.Confined granted' known' :=
      Expr.Confined.imp h
    cases callee with
    | member target _ _ _ =>
      rw [Expr.Confined] at hc ⊢
      exact ⟨Expr.Confined.imp h hc.1, Expr.ListConfined.imp h hc.2⟩
    | keyed target key _ _ =>
      rw [Expr.Confined] at hc ⊢
      exact ⟨Expr.Confined.imp h hc.1, Expr.Confined.imp h hc.2.1, Expr.ListConfined.imp h hc.2.2⟩
    | _ =>
      simp only [Expr.Confined] at hcallee hc ⊢
      exact ⟨hcallee hc.1, Expr.ListConfined.imp h hc.2⟩
  | .unary _ e _, hc => by
    rw [Expr.Confined] at hc ⊢
    exact Expr.Confined.imp h hc
  | .binary _ l r _, hc => by
    rw [Expr.Confined] at hc ⊢
    exact ⟨Expr.Confined.imp h hc.1, Expr.Confined.imp h hc.2⟩
  | .conditional c y n _, hc => by
    rw [Expr.Confined] at hc ⊢
    exact ⟨Expr.Confined.imp h hc.1, Expr.Confined.imp h hc.2.1, Expr.Confined.imp h hc.2.2⟩
  | .array es _, hc => by
    rw [Expr.Confined] at hc ⊢
    exact Expr.ListConfined.imp h hc
  | .object fields _, hc => by
    rw [Expr.Confined] at hc ⊢
    exact Expr.FieldsConfined.imp h hc
  | .arrow params body _, hc => by
    rw [Expr.Confined] at hc ⊢
    exact ⟨Pattern.AllConfined.imp h hc.1, Expr.Confined.imp (h.append _) hc.2⟩

theorem Expr.ListConfined.imp {known known' : List String}
    (h : Allows granted granted' known known') : ∀ {es : List Expr},
      Expr.ListConfined granted known es → Expr.ListConfined granted' known' es
  | [], _ => by rw [Expr.ListConfined]; trivial
  | _ :: _, hc => by
    rw [Expr.ListConfined] at hc ⊢
    exact ⟨Expr.Confined.imp h hc.1, Expr.ListConfined.imp h hc.2⟩

theorem Expr.PartsConfined.imp {known known' : List String}
    (h : Allows granted granted' known known') : ∀ {parts : List (Expr × String)},
      Expr.PartsConfined granted known parts → Expr.PartsConfined granted' known' parts
  | [], _ => by rw [Expr.PartsConfined]; trivial
  | (_, _) :: _, hc => by
    rw [Expr.PartsConfined] at hc ⊢
    exact ⟨Expr.Confined.imp h hc.1, Expr.PartsConfined.imp h hc.2⟩

theorem Expr.FieldsConfined.imp {known known' : List String}
    (h : Allows granted granted' known known') : ∀ {fields : List (String × Expr)},
      Expr.FieldsConfined granted known fields → Expr.FieldsConfined granted' known' fields
  | [], _ => by rw [Expr.FieldsConfined]; trivial
  | (_, _) :: _, hc => by
    rw [Expr.FieldsConfined] at hc ⊢
    exact ⟨Expr.Confined.imp h hc.1, Expr.FieldsConfined.imp h hc.2⟩

theorem Pattern.AllConfined.imp {known known' : List String}
    (h : Allows granted granted' known known') : ∀ {params : List Pattern},
      Pattern.AllConfined granted known params → Pattern.AllConfined granted' known' params
  | [], _ => by rw [Pattern.AllConfined]; trivial
  | _ :: _, hc => by
    rw [Pattern.AllConfined] at hc ⊢
    exact ⟨Pattern.Confined.imp h hc.1, Pattern.AllConfined.imp h hc.2⟩

theorem Pattern.Confined.imp {known known' : List String}
    (h : Allows granted granted' known known') : ∀ {p : Pattern}, p.Confined granted known →
      p.Confined granted' known'
  | .name _ _, _ => by rw [Pattern.Confined]; trivial
  | .array elements _, hc => by
    rw [Pattern.Confined] at hc ⊢
    exact Pattern.ElementsConfined.imp h hc
  | .object properties _, hc => by
    rw [Pattern.Confined] at hc ⊢
    exact Pattern.PropertiesConfined.imp h hc
  | .fallback target value _, hc => by
    rw [Pattern.Confined] at hc ⊢
    exact ⟨Expr.Confined.imp h hc.1, Pattern.Confined.imp h hc.2⟩

theorem Pattern.ElementsConfined.imp {known known' : List String}
    (h : Allows granted granted' known known') : ∀ {elements : List (Option Pattern)},
      Pattern.ElementsConfined granted known elements →
        Pattern.ElementsConfined granted' known' elements
  | [], _ => by rw [Pattern.ElementsConfined]; trivial
  | none :: _, hc => by
    rw [Pattern.ElementsConfined] at hc ⊢
    exact Pattern.ElementsConfined.imp h hc
  | some _ :: _, hc => by
    rw [Pattern.ElementsConfined] at hc ⊢
    exact ⟨Pattern.Confined.imp h hc.1, Pattern.ElementsConfined.imp h hc.2⟩

theorem Pattern.PropertiesConfined.imp {known known' : List String}
    (h : Allows granted granted' known known') : ∀ {properties : List (String × Pattern)},
      Pattern.PropertiesConfined granted known properties →
        Pattern.PropertiesConfined granted' known' properties
  | [], _ => by rw [Pattern.PropertiesConfined]; trivial
  | (_, _) :: _, hc => by
    rw [Pattern.PropertiesConfined] at hc ⊢
    exact ⟨Pattern.Confined.imp h hc.1, Pattern.PropertiesConfined.imp h hc.2⟩

end

end

end LiveTemplate
