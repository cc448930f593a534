import LiveTemplate.Proofs.Expr.Unaffected

/-!
Which locals an expression is said to read. Each place where a name stands is listed with the
functions around it; a name is free where none of them binds it. Every local of the scope that stands
free is reported. Beyond these there are locals of the scope whose name a parameter has taken, and
parameters that stand in the default of a later one.
-/

namespace LiveTemplate

set_option autoImplicit false

/-! ### Places of names -/

/-- How a function around a place binds names: all its parameters in its body, and in the default of a
parameter those before it. -/
inductive Binder where
  | body (names : List String)
  | fallback (names : List String)

def Binder.names : Binder → List String
  | body names | fallback names => names

/-- A place where a name stands, with the functions around it, the outermost first. -/
structure Occurrence where
  name : String
  around : List Binder

namespace Occurrence

def within (binder : Binder) (o : Occurrence) : Occurrence := { o with around := binder :: o.around }

/-- No function binds the name. -/
def IsFree (o : Occurrence) : Prop := ∀ binder ∈ o.around, o.name ∉ binder.names

end Occurrence

/-- The outermost of the functions that bind a name binds it for the default of a later parameter. -/
def Lingers (name : String) : List Binder → Prop
  | [] => False
  | .body names :: inner => name ∉ names ∧ Lingers name inner
  | .fallback names :: inner => name ∈ names ∨ Lingers name inner

mutual

/-- The places in an expression where names stand. -/
def Expr.occurrences : Expr → List Occurrence
  | .literal _ _ => []
  | .template _ parts _ => Expr.partOccurrences parts
  | .name n _ => [⟨n, []⟩]
  | .member target _ _ _ => Expr.occurrences target
  | .keyed target key _ _ => Expr.occurrences target ++ Expr.occurrences key
  | .call callee args _ _ => Expr.occurrences callee ++ Expr.listOccurrences args
  | .unary _ e _ => Expr.occurrences e
  | .binary _ l r _ => Expr.occurrences l ++ Expr.occurrences r
  | .conditional c y n _ => (Expr.occurrences c ++ Expr.occurrences y) ++ Expr.occurrences n
  | .array es _ => Expr.listOccurrences es
  | .object fields _ => Expr.fieldOccurrences fields
  | .arrow params body _ => Expr.paramOccurrences [] params ++
      (Expr.occurrences body).map (.within (.body (Pattern.allNames params)))

def Expr.listOccurrences : List Expr → List Occurrence
  | [] => []
  | e :: rest => Expr.occurrences e ++ Expr.listOccurrences rest

def Expr.partOccurrences : List (Expr × String) → List Occurrence
  | [] => []
  | (e, _) :: rest => Expr.occurrences e ++ Expr.partOccurrences rest

def Expr.fieldOccurrences : List (String × Expr) → List Occurrence
  | [] => []
  | (_, e) :: rest => Expr.occurrences e ++ Expr.fieldOccurrences rest

/-- The places in the defaults of parameters, after those that bind the names before. -/
def Expr.paramOccurrences (before : List String) : List Pattern → List Occurrence
  | [] => []
  | p :: rest => (Pattern.occurrences p).map (.within (.fallback before)) ++
      Expr.paramOccurrences (before ++ p.boundNames) rest

/-- The places in the defaults of a pattern. -/
def Pattern.occurrences : Pattern → List Occurrence
  | .name _ _ => []
  | .array elements _ => Pattern.elementOccurrences elements
  | .object properties _ => Pattern.propertyOccurrences properties
  | .fallback target value _ => Expr.occurrences value ++ Pattern.occurrences target

def Pattern.elementOccurrences : List (Option Pattern) → List Occurrence
  | [] => []
  | none :: rest => Pattern.elementOccurrences rest
  | some p :: rest => Pattern.occurrences p ++ Pattern.elementOccurrences rest

def Pattern.propertyOccurrences : List (String × Pattern) → List Occurrence
  | [] => []
  | (_, p) :: rest => Pattern.occurrences p ++ Pattern.propertyOccurrences rest

end

/-- A chain of fields holds one name, its root. -/
theorem Expr.occurrences_of_chain? {root : String} (e : Expr) : ∀ {path : List String},
    e.chain? = some (root, path) → e.occurrences = [⟨root, []⟩] := by
  induction e using Expr.chain?.induct with
  | case1 n span =>
    intro path hchain
    rw [Expr.chain?, Option.some.injEq, Prod.mk.injEq] at hchain
    rw [Expr.occurrences, hchain.1]
  | case2 target field opt span ih =>
    intro path hchain
    rw [Expr.chain?] at hchain
    obtain ⟨⟨root', before⟩, htarget, hpath⟩ := Option.bind_eq_some_iff.mp hchain
    rw [Option.some.injEq, Prod.mk.injEq] at hpath
    obtain ⟨rfl, rfl⟩ := hpath
    rw [Expr.occurrences]
    exact ih htarget
  | case3 target value place opt span ih =>
    intro path hchain
    rw [Expr.chain?] at hchain
    obtain ⟨field, hfield, hchain⟩ := Option.bind_eq_some_iff.mp hchain
    obtain ⟨⟨root', before⟩, htarget, hpath⟩ := Option.bind_eq_some_iff.mp hchain
    rw [Option.some.injEq, Prod.mk.injEq] at hpath
    obtain ⟨rfl, rfl⟩ := hpath
    rw [Expr.occurrences, ih htarget, Expr.occurrences, List.append_nil]
  | case4 e hname hmember hkeyed =>
    intro path hchain
    rw [Expr.chain?] at hchain
    · cases hchain
    · exact hname
    · exact hmember
    · exact hkeyed

/-! ### What is reported -/

/-- A place is noticed if its name is local there, or comes to be. -/
def Occurrence.Noticed (locals : List String) (o : Occurrence) : Prop :=
  o.name ∈ locals ∨ Lingers o.name o.around

/-- The locals among reads are the names at the places that are noticed. -/
def Reads.Report (r : Reads) (locals : List String) (os : List Occurrence) : Prop :=
  ∀ n, n ∈ r.locals ↔ ∃ o ∈ os, o.name = n ∧ o.Noticed locals

namespace Reads.Report

variable {locals : List String} {a b : Reads} {as bs : List Occurrence}

theorem empty : Reads.empty.Report locals [] := fun _ =>
  ⟨fun h => absurd h List.not_mem_nil, fun ⟨_, h, _⟩ => absurd h List.not_mem_nil⟩

theorem merge (ha : a.Report locals as) (hb : b.Report locals bs) :
    (a.merge b).Report locals (as ++ bs) := by
  intro n
  rw [Reads.merge, mem_foldl_addLocal, ha n, hb n]
  simp only [List.mem_append, or_and_right, exists_or]

theorem ofName (scope : NameScope) (root : String) (path : List String) :
    (Reads.ofName scope root path).Report scope.locals [⟨root, []⟩] := by
  intro n
  have hroot : n ∈ (Reads.ofName scope root path).locals ↔ root = n ∧ root ∈ scope.locals := by
    rw [Reads.ofName.eq_def]
    split
    · rename_i hlocal
      rw [List.mem_singleton]
      exact ⟨fun h => ⟨h.symm, hlocal⟩, fun h => h.1.symm⟩
    · rename_i hlocal
      have hnone : ∀ r : Reads, r.locals = [] → (n ∈ r.locals ↔ root = n ∧ root ∈ scope.locals) := by
        intro r hr
        rw [hr]
        exact ⟨fun h => absurd h List.not_mem_nil, fun h => absurd h.2 hlocal⟩
      split
      · split <;> exact hnone _ rfl
      · split <;> exact hnone _ rfl
  rw [hroot]
  simp [Occurrence.Noticed, Lingers]

/-- Within a default, the parameters before it are local too. -/
theorem fallback {before : List String} (h : a.Report (locals ++ before) as) :
    a.Report locals (as.map (.within (.fallback before))) := by
  intro n
  rw [h n]
  simp only [List.mem_map, exists_exists_and_eq_and]
  refine exists_congr fun o => and_congr_right fun _ => and_congr_right fun _ => ?_
  rw [Occurrence.Noticed, Occurrence.Noticed, List.mem_append, or_assoc]
  rfl

/-- What a function reports of its body is without its own parameters, other than those whose names
are local around it. -/
theorem body {names : List String}
    (h : a.Report (locals ++ names.filter fun n => n ∉ locals) as) :
    (a.without (names.filter fun n => n ∉ locals)).Report locals
      (as.map (.within (.body names))) := by
  intro n
  have hfresh : n ∈ (names.filter fun n => n ∉ locals) ↔ n ∈ names ∧ n ∉ locals := by simp
  rw [Reads.without, List.mem_filter, decide_eq_true_eq, h n, hfresh]
  simp only [List.mem_map, exists_exists_and_eq_and]
  rw [← exists_and_right]
  refine exists_congr fun o => ?_
  rw [and_assoc, and_assoc]
  refine and_congr_right fun _ => and_congr_right fun hname => ?_
  have hlingers : Lingers o.name (.body names :: o.around) ↔
      o.name ∉ names ∧ Lingers o.name o.around := Iff.rfl
  rw [Occurrence.Noticed, Occurrence.Noticed, List.mem_append]
  simp only [Occurrence.within, hlingers]
  rw [show o.name = n from hname, hfresh]
  tauto

end Reads.Report

mutual

/-- What an expression reports of its locals are the places that are noticed. -/
theorem Expr.report (scope : NameScope) : ∀ e : Expr,
    (e.reads scope).Report scope.locals e.occurrences
  | .literal _ _ => by
    rw [Expr.reads, Expr.occurrences]
    exact .empty
  | .template _ parts _ => by
    rw [Expr.reads, Expr.occurrences]
    exact Expr.report_parts scope parts
  | .name n _ => by
    rw [Expr.reads, Expr.occurrences]
    exact .ofName scope n []
  | .member target field opt span => by
    rw [Expr.reads]
    cases hchain : Expr.chain? (.member target field opt span) with
    | some p =>
      rw [Expr.occurrences_of_chain? _ hchain]
      exact .ofName scope p.1 p.2
    | none =>
      rw [Expr.occurrences]
      exact Expr.report scope target
  | .keyed target key opt span => by
    rw [Expr.reads]
    cases hchain : Expr.chain? (.keyed target key opt span) with
    | some p =>
      rw [Expr.occurrences_of_chain? _ hchain]
      exact .ofName scope p.1 p.2
    | none =>
      rw [Expr.occurrences]
      exact (Expr.report scope target).merge (Expr.report scope key)
  | .call callee args opt span => by
    have hcallee := Expr.report scope callee
    have hargs := Expr.report_list scope args
    rw [Expr.occurrences]
    cases callee with
    | member target n chained place =>
      rw [Expr.reads, Expr.occurrences]
      exact (Expr.report scope target).merge hargs
    | keyed target key chained place =>
      rw [Expr.reads, Expr.occurrences]
      exact ((Expr.report scope target).merge (Expr.report scope key)).merge hargs
    | _ =>
      simp only [Expr.reads] at hcallee ⊢
      exact hcallee.merge hargs
  | .unary _ e _ => by
    rw [Expr.reads, Expr.occurrences]
    exact Expr.report scope e
  | .binary _ l r _ => by
    rw [Expr.reads, Expr.occurrences]
    exact (Expr.report scope l).merge (Expr.report scope r)
  | .conditional c y n _ => by
    rw [Expr.reads, Expr.occurrences]
    exact ((Expr.report scope c).merge (Expr.report scope y)).merge (Expr.report scope n)
  | .array es _ => by
    rw [Expr.reads, Expr.occurrences]
    exact Expr.report_list scope es
  | .object fields _ => by
    rw [Expr.reads, Expr.occurrences]
    exact Expr.report_fields scope fields
  | .arrow params body _ => by
    rw [Expr.reads, Expr.occurrences]
    have hparams := Expr.report_params scope [] params
    rw [NameScope.bind, List.append_nil] at hparams
    exact hparams.merge (Expr.report (scope.bind (scope.fresh params)) body).body

theorem Expr.report_list (scope : NameScope) : ∀ es : List Expr,
    (Expr.listReads scope es).Report scope.locals (Expr.listOccurrences es)
  | [] => by
    rw [Expr.listReads, Expr.listOccurrences]
    exact .empty
  | e :: rest => by
    rw [Expr.listReads, Expr.listOccurrences]
    exact (Expr.report scope e).merge (Expr.report_list scope rest)

theorem Expr.report_parts (scope : NameScope) : ∀ parts : List (Expr × String),
    (Expr.partReads scope parts).Report scope.locals (Expr.partOccurrences parts)
  | [] => by
    rw [Expr.partReads, Expr.partOccurrences]
    exact .empty
  | (e, _) :: rest => by
    rw [Expr.partReads, Expr.partOccurrences]
    exact (Expr.report scope e).merge (Expr.report_parts scope rest)

theorem Expr.report_fields (scope : NameScope) : ∀ fields : List (String × Expr),
    (Expr.fieldReads scope fields).Report scope.locals (Expr.fieldOccurrences fields)
  | [] => by
    rw [Expr.fieldReads, Expr.fieldOccurrences]
    exact .empty
  | (_, e) :: rest => by
    rw [Expr.fieldReads, Expr.fieldOccurrences]
    exact (Expr.report scope e).merge (Expr.report_fields scope rest)

theorem Expr.report_params (scope : NameScope) (before : List String) : ∀ params : List Pattern,
    (Expr.paramReads (scope.bind before) params).Report scope.locals
      (Expr.paramOccurrences before params)
  | [] => by
    rw [Expr.paramReads, Expr.paramOccurrences]
    exact .empty
  | p :: rest => by
    rw [Expr.paramReads, Expr.paramOccurrences]
    have hrest := Expr.report_params scope (before ++ p.boundNames) rest
    rw [NameScope.bind, ← List.append_assoc] at hrest
    exact (Pattern.report (scope.bind before) p).fallback.merge hrest

/-- What the defaults of a pattern report. -/
theorem Pattern.report (scope : NameScope) : ∀ p : Pattern,
    (p.reads scope).Report scope.locals p.occurrences
  | .name _ _ => by
    rw [Pattern.reads, Pattern.occurrences]
    exact .empty
  | .array elements _ => by
    rw [Pattern.reads, Pattern.occurrences]
    exact Pattern.report_elements scope elements
  | .object properties _ => by
    rw [Pattern.reads, Pattern.occurrences]
    exact Pattern.report_properties scope properties
  | .fallback target value _ => by
    rw [Pattern.reads, Pattern.occurrences]
    exact (Expr.report scope value).merge (Pattern.report scope target)

theorem Pattern.report_elements (scope : NameScope) : ∀ elements : List (Option Pattern),
    (Pattern.elementReads scope elements).Report scope.locals (Pattern.elementOccurrences elements)
  | [] => by
    rw [Pattern.elementReads, Pattern.elementOccurrences]
    exact .empty
  | none :: rest => by
    rw [Pattern.elementReads, Pattern.elementOccurrences]
    exact Pattern.report_elements scope rest
  | some p :: rest => by
    rw [Pattern.elementReads, Pattern.elementOccurrences]
    exact (Pattern.report scope p).merge (Pattern.report_elements scope rest)

theorem Pattern.report_properties (scope : NameScope) : ∀ properties : List (String × Pattern),
    (Pattern.propertyReads scope properties).Report scope.locals
      (Pattern.propertyOccurrences properties)
  | [] => by
    rw [Pattern.propertyReads, Pattern.propertyOccurrences]
    exact .empty
  | (_, p) :: rest => by
    rw [Pattern.propertyReads, Pattern.propertyOccurrences]
    exact (Pattern.report scope p).merge (Pattern.report_properties scope rest)

end

/-! ### Locals that are free, and others -/

namespace Expr

/-- A name stands where no function binds it. -/
def Free (e : Expr) (name : String) : Prop := ∃ o ∈ e.occurrences, o.name = name ∧ o.IsFree

/-- A name stands where some function binds it. -/
def Taken (e : Expr) (name : String) : Prop := ∃ o ∈ e.occurrences, o.name = name ∧ ¬ o.IsFree

/-- A parameter stands in the default of a later one, and no function around binds its name in its
body. -/
def Lingering (e : Expr) (name : String) : Prop :=
  ∃ o ∈ e.occurrences, o.name = name ∧ Lingers name o.around

/-- The locals that an expression is said to read are those of the scope that stand free in it, those
that stand where a parameter has taken their name, and the parameters that linger. -/
theorem local_reported_iff (scope : NameScope) (e : Expr) (name : String) :
    name ∈ (e.reads scope).locals ↔
      (name ∈ scope.locals ∧ e.Free name) ∨ (name ∈ scope.locals ∧ e.Taken name) ∨
        (name ∉ scope.locals ∧ e.Lingering name) := by
  rw [Expr.report scope e name]
  by_cases hlocal : name ∈ scope.locals
  · have hnoticed : (∃ o ∈ e.occurrences, o.name = name ∧ o.Noticed scope.locals) ↔
        ∃ o ∈ e.occurrences, o.name = name :=
      exists_congr fun o => and_congr_right fun _ =>
        ⟨And.left, fun hname => ⟨hname, .inl (hname ▸ hlocal)⟩⟩
    have hsplit : (∃ o ∈ e.occurrences, o.name = name) ↔ e.Free name ∨ e.Taken name := by
      rw [Free, Taken, ← exists_or]
      refine exists_congr fun o => ?_
      rw [← and_or_left, ← and_or_left, and_iff_left (Classical.em o.IsFree)]
    rw [hnoticed, hsplit]
    simp [hlocal]
  · have hnoticed : (∃ o ∈ e.occurrences, o.name = name ∧ o.Noticed scope.locals) ↔
        e.Lingering name := by
      refine exists_congr fun o => and_congr_right fun _ => and_congr_right fun hname => ?_
      rw [Occurrence.Noticed, hname]
      exact or_iff_right hlocal
    rw [hnoticed]
    simp [hlocal]

/-- Of `(a, b = a) => b`, where no name is local, the parameter that the default reads is left. -/
example : ((arrow [.name "a" default, .fallback (.name "b" default) (.name "a" default) default]
    (.name "b" default) default).reads ⟨[], []⟩).locals = ["a"] := rfl

end Expr

end LiveTemplate
