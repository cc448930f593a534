import LiveTemplate.Proofs.Eval.Alike

/-!
Replacing a layer inside the functions of a value keeps what a template can tell of it, and it keeps
alike values alike.
-/

namespace LiveTemplate

set_option autoImplicit false

namespace Value

/-- Induction along the line of parents. -/
theorem parent_induction {motive : Value → Prop}
    (value : ∀ i v fields, motive v → motive (.record i (.value v) fields))
    (plain : ∀ i fields, motive (.record i .plain fields))
    (nothing : ∀ i fields, motive (.record i .nothing fields))
    (other : ∀ v, (∀ i parent fields, v ≠ .record i parent fields) → motive v) (v : Value) :
    motive v := by
  induction v using origin.induct with
  | case1 i v fields ih => exact value i v fields ih
  | case2 v hv =>
    match v with
    | .record i .plain fields => exact plain i fields
    | .record i .nothing fields => exact nothing i fields
    | .record i (.value u) fields => exact (hv i u fields rfl).elim
    | .undefined | .null | .flag _ | .number _ | .text _ | .list _ _ | .map _ _ | .set _ _
    | .date _ _ | .html _ _ | .method _ | .helper _ | .closure _ _ _ _ | .block _ _ =>
      exact other _ fun i parent fields h => by cases h

/-- Maps and sets, of which a size is told. -/
def isSized : Value → Bool
  | map _ _ | set _ _ => true
  | _ => false

theorem borrowsSize_under (i : Identity) (v : Value) (fields : List (String × Value)) :
    (record i (.value v) fields).borrowsSize =
      (!Assoc.contains fields "size" && (v.isSized || v.borrowsSize)) := by
  cases v <;> rfl

theorem lookup?_record (i : Identity) (p : Parent) (fields : List (String × Value))
    (name : String) : (record i p fields).lookup? name =
      (Assoc.get? fields name).or (match p with
        | .plain => (record i .plain []).kindMember? name
        | .nothing => none
        | .value v => v.lookup? name) := by
  conv_lhs => unfold lookup?
  cases Assoc.get? fields name with
  | none => rfl
  | some v => rfl

section Other
variable {v : Value} (h : ∀ i parent fields, v ≠ .record i parent fields)
include h

theorem lookup?_other (name : String) :
    v.lookup? name = (v.own? name).or (v.kindMember? name) := by
  cases v with
  | record i p fields => exact (h _ _ _ rfl).elim
  | _ => rfl

theorem origin_other : v.origin = v := by
  cases v with
  | record i p fields => exact (h _ _ _ rfl).elim
  | _ => rfl

theorem takesParent_other : v.takesParent = true := by
  cases v with
  | record i p fields => exact (h _ _ _ rfl).elim
  | _ => rfl

theorem borrowsSize_other : v.borrowsSize = false := by
  cases v with
  | record i p fields => exact (h _ _ _ rfl).elim
  | _ => rfl

end Other

/-- Values that hold nothing. -/
inductive Bare : Value → Prop
  | number (x : Float) : Bare (.number x)
  | text (s : String) : Bare (.text s)
  | method (m : Method) : Bare (.method m)

theorem bare_of_sharedMember? {kind name : String} {u : Value}
    (h : sharedMember? kind name = some u) : u.Bare := by
  unfold sharedMember? at h
  split at h
  all_goals first | (cases h; exact .method _) | skip
  split at h
  · cases h
    exact .method _
  · cases h

theorem bare_of_conversion? {table : List (String × Conversion)} {name : String} {u : Value}
    (h : conversion? table name = some u) : u.Bare := by
  obtain ⟨c, -, rfl⟩ := Option.map_eq_some_iff.mp h
  exact .method _

theorem bare_of_or {a b : Option Value} {u : Value} (h : a.or b = some u)
    (ha : a = some u → u.Bare) (hb : b = some u → u.Bare) : u.Bare := by
  cases a with
  | none => exact hb h
  | some v => exact ha h

theorem bare_of_map {α : Type} {a : Option α} {f : α → Method} {u : Value}
    (h : (a.map fun m => Value.method (f m)) = some u) : u.Bare := by
  obtain ⟨m, -, rfl⟩ := Option.map_eq_some_iff.mp h
  exact .method _

/-- What comes with the kind of a value holds nothing. -/
theorem bare_of_kindMember? {v : Value} {name : String} {u : Value}
    (h : v.kindMember? name = some u) : u.Bare := by
  cases v with
  | undefined | null => cases h
  | text _ | number _ | list _ _ =>
    exact bare_of_or h (fun h => bare_of_or h bare_of_map bare_of_conversion?) bare_of_sharedMember?
  | flag _ | date _ _ | html _ _ | method _ | helper _ | closure _ _ _ _ =>
    exact bare_of_or h bare_of_conversion? bare_of_sharedMember?
  | map _ entries =>
    simp only [kindMember?] at h
    split at h
    · cases h
      exact .number _
    · cases h
      exact .method _
    · cases h
      exact .method _
    · exact bare_of_sharedMember? h
  | set _ items =>
    simp only [kindMember?] at h
    split at h
    · cases h
      exact .number _
    · cases h
      exact .method _
    · exact bare_of_sharedMember? h
  | record _ _ _ | block _ _ => exact bare_of_sharedMember? h

section
variable (id : Identity) (layer : Layer)

attribute [local simp] rebind rebindParent rebindAll rebindNames rebindPairs

theorem rebindAll_eq (vs : List Value) : rebindAll id layer vs = vs.map (rebind id layer) := by
  induction vs with
  | nil => rfl
  | cons v rest ih => simp [ih]

theorem rebindNames_eq (names : List (String × Value)) :
    rebindNames id layer names = names.map fun e => (e.1, e.2.rebind id layer) := by
  induction names with
  | nil => rfl
  | cons e rest ih => simp [ih]

theorem rebindPairs_eq (pairs : List (Value × Value)) : rebindPairs id layer pairs =
    pairs.map fun e => (e.1.rebind id layer, e.2.rebind id layer) := by
  induction pairs with
  | nil => rfl
  | cons e rest ih => simp [ih]

theorem get?_rebindNames (names : List (String × Value)) (x : String) :
    Assoc.get? (rebindNames id layer names) x = (Assoc.get? names x).map (rebind id layer) := by
  induction names with
  | nil => rfl
  | cons e rest ih =>
    obtain ⟨name, v⟩ := e
    rw [rebindNames, Assoc.get?, Assoc.get?]
    split
    · rfl
    · exact ih

theorem contains_rebindNames (names : List (String × Value)) (x : String) :
    Assoc.contains (rebindNames id layer names) x = Assoc.contains names x := by
  rw [Assoc.contains, get?_rebindNames, Option.isSome_map, Assoc.contains]

theorem isAbsent_rebind (v : Value) : (v.rebind id layer).isAbsent = v.isAbsent := by
  cases v <;> rfl

theorem rebind_of_isAbsent {v : Value} (h : v.isAbsent = true) : v.rebind id layer = v := by
  cases v <;> first | rfl | cases h

theorem rebind_of_bare {v : Value} (h : v.Bare) : v.rebind id layer = v := by
  cases h <;> rfl

/-- A value that is no record stays none. -/
theorem rebind_ne_record {v : Value} (h : ∀ i parent fields, v ≠ .record i parent fields) :
    ∀ i parent fields, v.rebind id layer ≠ .record i parent fields := by
  intro i parent fields he
  cases v <;> first | exact h _ _ _ rfl | cases he

theorem takesParent_rebind (v : Value) : (v.rebind id layer).takesParent = v.takesParent := by
  induction v using parent_induction with
  | value i v fields ih =>
    rw [rebind, rebindParent, takesParent, takesParent, contains_rebindNames, ih]
  | plain i fields => rw [rebind, rebindParent, takesParent, takesParent, contains_rebindNames]
  | nothing i fields => rw [rebind, rebindParent, takesParent, takesParent, contains_rebindNames]
  | other v hv => rw [takesParent_other hv, takesParent_other (rebind_ne_record id layer hv)]

theorem isSized_rebind (v : Value) : (v.rebind id layer).isSized = v.isSized := by
  cases v <;> rfl

theorem borrowsSize_rebind (v : Value) : (v.rebind id layer).borrowsSize = v.borrowsSize := by
  induction v using parent_induction with
  | value i v fields ih =>
    rw [rebind, rebindParent, borrowsSize_under, borrowsSize_under, contains_rebindNames,
      isSized_rebind, ih]
  | plain i fields => rfl
  | nothing i fields => rfl
  | other v hv => rw [borrowsSize_other hv, borrowsSize_other (rebind_ne_record id layer hv)]

theorem parent_rebind (v : Value) : (v.rebind id layer).parent = v.parent.rebind id layer := by
  cases v with
  | record i p fields => cases p <;> rfl
  | _ => rfl

theorem kindMember?_rebind (v : Value) (name : String) :
    (v.rebind id layer).kindMember? name = (v.kindMember? name).map (rebind id layer) := by
  have hsame : (v.rebind id layer).kindMember? name = v.kindMember? name := by
    cases v with
    | map i entries => simp only [rebind, kindMember?, rebindPairs_eq, List.length_map]
    | set i items => simp only [rebind, kindMember?, rebindAll_eq, List.length_map]
    | _ => rfl
  rw [hsame]
  cases h : v.kindMember? name with
  | none => rfl
  | some u => rw [Option.map_some, rebind_of_bare id layer (bare_of_kindMember? h)]

theorem own?_rebind (v : Value) (name : String) :
    (v.rebind id layer).own? name = (v.own? name).map (rebind id layer) := by
  cases v with
  | record i p fields => exact get?_rebindNames id layer fields name
  | html i markup =>
    simp only [rebind, own?]
    split <;> rfl
  | list i items =>
    simp only [rebind, own?, length?, rebindAll_eq, List.length_map]
    split
    · rfl
    · cases Record.index? name with
      | none => rfl
      | some n => exact List.getElem?_map
  | text s =>
    simp only [rebind, own?, length?]
    split
    · rfl
    · cases Record.index? name with
      | none => rfl
      | some n =>
        simp only [unitAt?]
        split <;> rfl
  | _ =>
    simp only [rebind, own?]
    split <;> rfl

theorem lookup?_rebind (v : Value) (name : String) :
    (v.rebind id layer).lookup? name = (v.lookup? name).map (rebind id layer) := by
  induction v using parent_induction with
  | value i v fields ih =>
    rw [rebind, rebindParent, lookup?_record, lookup?_record, get?_rebindNames, Option.map_or]
    exact congrArg (Option.or _) ih
  | plain i fields =>
    rw [rebind, rebindParent, lookup?_record, lookup?_record, get?_rebindNames, Option.map_or,
      ← kindMember?_rebind]
    rfl
  | nothing i fields =>
    rw [rebind, rebindParent, lookup?_record, lookup?_record, get?_rebindNames, Option.map_or]
    rfl
  | other v hv =>
    rw [lookup?_other hv, lookup?_other (rebind_ne_record id layer hv), own?_rebind,
      kindMember?_rebind, Option.map_or]

theorem member?_rebind (v : Value) (name : String) :
    (v.rebind id layer).member? name = (v.member? name).map (rebind id layer) := by
  rw [member?, member?, borrowsSize_rebind, takesParent_rebind, parent_rebind, lookup?_rebind]
  split
  · rfl
  · split
    · rfl
    · cases v.lookup? name <;> rfl

theorem follow_rebind (path : List String) (v : Value) :
    (v.rebind id layer).follow path = (v.follow path).map (rebind id layer) := by
  induction path generalizing v with
  | nil => rfl
  | cons name path ih =>
    rw [follow, follow, isAbsent_rebind, member?_rebind]
    split
    · rfl
    · cases v.member? name with
      | none => rfl
      | some u => exact ih u

end

theorem inStep_rebind {i j : Identity} {a b : Layer} {path : List String} {v w : Value}
    (h : InStep path v w) : InStep path (v.rebind i a) (w.rebind j b) := by
  induction path generalizing v w with
  | nil => trivial
  | cons name path ih =>
    rcases h with ⟨hv, rfl⟩ | ⟨hv, hw, hrest⟩
    · refine .inl ⟨(isAbsent_rebind i a v).trans hv, ?_⟩
      rw [rebind_of_isAbsent i a hv, rebind_of_isAbsent j b hv]
    · refine .inr ⟨(isAbsent_rebind i a v).trans hv, (isAbsent_rebind j b w).trans hw,
        hrest.imp_right fun hrest => ?_⟩
      rw [member?_rebind, member?_rebind]
      cases hu : v.member? name with
      | none =>
        cases ht : w.member? name with
        | none => trivial
        | some t =>
          rw [hu, ht] at hrest
          exact hrest.elim
      | some u =>
        cases ht : w.member? name with
        | none =>
          rw [hu, ht] at hrest
          exact hrest.elim
        | some t =>
          rw [hu, ht] at hrest
          exact ih hrest

end Value

/-! ### Scopes -/

theorem current_of_plain {layer : Layer} (h : layer.id = none) (v : Value) :
    layer.current v = v := by
  obtain ⟨i, names⟩ := layer
  obtain rfl : i = none := h
  rfl

theorem lookup_of_plain {scope : Scope} (hscope : ∀ layer ∈ scope, layer.id = none) (x : String) :
    scope.lookup x = scope.findSome? fun layer => Assoc.get? layer.names x := by
  induction scope with
  | nil => rfl
  | cons layer rest ih =>
    rw [List.forall_mem_cons] at hscope
    rw [Scope.lookup, List.findSome?_cons]
    cases Assoc.get? layer.names x with
    | some v => exact congrArg some (current_of_plain hscope.1 v)
    | none => exact ih hscope.2

section
variable (id : Identity) (layer : Layer)

theorem rebindScope_plain {scope : Scope} (hscope : ∀ other ∈ scope, other.id = none) :
    Value.rebindScope id layer scope =
      scope.map fun other => ⟨other.id, Value.rebindNames id layer other.names⟩ := by
  induction scope with
  | nil => rfl
  | cons other rest ih =>
    rw [List.forall_mem_cons] at hscope
    obtain ⟨i, names⟩ := other
    obtain rfl : i = none := hscope.1
    rw [Value.rebindScope, if_neg (by simp), List.map_cons, ih hscope.2]

theorem plain_rebindScope {scope : Scope} (hscope : ∀ other ∈ scope, other.id = none) :
    ∀ other ∈ Value.rebindScope id layer scope, other.id = none := by
  rw [rebindScope_plain id layer hscope, List.forall_mem_map]
  exact hscope

/-- Beyond the layer that is replaced, a scope holds the same names with values in which it is
replaced. -/
theorem lookup_rebindScope {scope : Scope} (hscope : ∀ other ∈ scope, other.id = none)
    (x : String) : Scope.lookup (Value.rebindScope id layer scope) x =
      (scope.lookup x).map (Value.rebind id layer) := by
  rw [lookup_of_plain (plain_rebindScope id layer hscope), lookup_of_plain hscope,
    rebindScope_plain id layer hscope, List.findSome?_map]
  induction scope with
  | nil => rfl
  | cons other rest ih =>
    rw [List.findSome?_cons, List.findSome?_cons, Function.comp_apply, Value.get?_rebindNames]
    cases Assoc.get? other.names x with
    | some v => rfl
    | none => exact ih (List.forall_mem_cons.mp hscope).2

end

section
variable {σ : Pairing} (hσ : σ.Exact) {i j : Identity} (hid : σ i j) {a b : Layer}
  (hab : LayerAlike σ a b)
include hσ hid

/-- Both sides replace the same layers. -/
theorem idsMatch_iff {c d : Layer} (h : c.IdsMatch σ d) : c.id = some i ↔ d.id = some j := by
  rcases h with ⟨hc, hd⟩ | ⟨k, l, hc, hd, hkl⟩
  · rw [hc, hd]
    exact iff_of_false (fun h => by cases h) fun h => by cases h
  · rw [hc, hd, Option.some.injEq, Option.some.injEq]
    exact hσ.eq_iff hkl hid

include hab

/-- Replacing a layer in the inner layers of two scopes, from which it is known for each value: the
inner layers stay alike, and the outer ones are either left alone on both sides or on neither. -/
theorem rebindScope_append {inner inner' : Scope} (outer outer' : Scope)
    (hinner : List.Forall₂ (fun c d => LayerAlike σ c d ∧
      NamesAlike σ (Value.rebindNames i a c.names) (Value.rebindNames j b d.names)) inner inner') :
    ∃ new new' : Scope, List.Forall₂ (LayerAlike σ) new new' ∧
      (∀ x, (∃ layer ∈ inner, layer.id = none ∧ x ∈ Assoc.keys layer.names) →
        ∃ layer ∈ new, layer.id = none ∧ x ∈ Assoc.keys layer.names) ∧
      ((Value.rebindScope i a (inner ++ outer) = new ++ outer ∧
          Value.rebindScope j b (inner' ++ outer') = new' ++ outer') ∨
        (Value.rebindScope i a (inner ++ outer) = new ++ Value.rebindScope i a outer ∧
          Value.rebindScope j b (inner' ++ outer') = new' ++ Value.rebindScope j b outer')) := by
  induction hinner with
  | nil => exact ⟨[], [], .nil, fun x hx => hx, .inr ⟨rfl, rfl⟩⟩
  | @cons c d cs ds hcd hrest ih =>
    obtain ⟨k, names⟩ := c
    obtain ⟨l, names'⟩ := d
    obtain ⟨hcd, hnames⟩ := hcd
    have hiff := idsMatch_iff hσ hid hcd.ids
    have hrestAlike : List.Forall₂ (LayerAlike σ) cs ds := hrest.imp fun _ _ h => h.1
    simp only [List.cons_append, Value.rebindScope]
    by_cases hk : k = some i
    · rw [if_pos hk, if_pos (hiff.mp hk)]
      refine ⟨a :: cs, b :: ds, .cons hab hrestAlike, ?_, .inl ⟨rfl, rfl⟩⟩
      rintro x ⟨layer, hlayer, hplain, hx⟩
      rcases List.mem_cons.mp hlayer with rfl | hlayer
      · cases hk.symm.trans hplain
      · exact ⟨layer, List.mem_cons_of_mem _ hlayer, hplain, hx⟩
    · rw [if_neg hk, if_neg fun hl => hk (hiff.mpr hl)]
      obtain ⟨new, new', hnew, hknown, hsame⟩ := ih
      refine ⟨⟨k, Value.rebindNames i a names⟩ :: new, ⟨l, Value.rebindNames j b names'⟩ :: new',
        .cons ⟨hcd.ids, hnames⟩ hnew, ?_, ?_⟩
      · rintro x ⟨layer, hlayer, hplain, hx⟩
        rcases List.mem_cons.mp hlayer with rfl | hlayer
        · refine ⟨_, List.mem_cons_self, hplain, ?_⟩
          rw [Assoc.keys, Value.rebindNames_eq, List.map_map]
          exact hx
        · obtain ⟨other, hother, hrest⟩ := hknown x ⟨layer, hlayer, hplain, hx⟩
          exact ⟨other, List.mem_cons_of_mem _ hother, hrest⟩
      · rcases hsame with ⟨h, h'⟩ | ⟨h, h'⟩
        · exact .inl ⟨congrArg (List.cons _) h, congrArg (List.cons _) h'⟩
        · exact .inr ⟨congrArg (List.cons _) h, congrArg (List.cons _) h'⟩

omit hσ hid hab in
theorem namesAlike_rebindNames {fs gs : List (String × Value)}
    (hnames : fs.map Prod.fst = gs.map Prod.fst)
    (hall : ∀ e ∈ fs.zip gs, Alike σ (e.1.2.rebind i a) (e.2.2.rebind j b)) :
    NamesAlike σ (Value.rebindNames i a fs) (Value.rebindNames j b gs) := by
  rw [Value.rebindNames_eq, Value.rebindNames_eq]
  refine forall₂_of_names ?_ ?_
  · rw [List.map_map, List.map_map]
    exact hnames
  · rw [List.zip_map, List.forall_mem_map]
    exact hall

/-- Replacing a layer by layers that are alike keeps values alike. -/
theorem Alike.rebind {v w : Value} (h : Alike σ v w) : Alike σ (v.rebind i a) (w.rebind j b) := by
  induction h with
  | undefined => exact .undefined
  | null => exact .null
  | flag x => exact .flag x
  | number x => exact .number x
  | text s => exact .text s
  | date t hid => exact .date t hid
  | html s hid => exact .html s hid
  | method m => exact .method m
  | helper f => exact .helper f
  | block content hid => exact .block content hid
  | list hid hlength hall ih =>
    rw [Value.rebind, Value.rebind, Value.rebindAll_eq, Value.rebindAll_eq]
    refine .of_list hid ?_
    rw [List.forall₂_map_left_iff, List.forall₂_map_right_iff]
    exact forall₂_of_zip hlength ih
  | set hid hlength hall ih =>
    rw [Value.rebind, Value.rebind, Value.rebindAll_eq, Value.rebindAll_eq]
    refine .of_set hid ?_
    rw [List.forall₂_map_left_iff, List.forall₂_map_right_iff]
    exact forall₂_of_zip hlength ih
  | map hid hlength hkeys hvalues ihk ihv =>
    rw [Value.rebind, Value.rebind, Value.rebindPairs_eq, Value.rebindPairs_eq]
    refine .of_map hid ?_
    rw [PairsAlike, List.forall₂_map_left_iff, List.forall₂_map_right_iff]
    exact forall₂_of_zip hlength fun p hp => ⟨ihk p hp, ihv p hp⟩
  | @record k l p q fs gs hkl hsort hparent hnames hall ihp ih =>
    rw [Value.rebind, Value.rebind]
    refine .of_record hkl ?_ ?_
    · cases hsort with
      | plain => exact .plain
      | nothing => exact .nothing
      | value v w => exact .value (ihp v w rfl rfl)
    · exact namesAlike_rebindNames hnames ih
  | @closure k l params body inner inner' outer outer' granted known hkl hlength hids hnames hinner
      houter houter' hfound hstep hend hknown hparams hbody ihinner ihend =>
    rw [Value.rebind, Value.rebind]
    have hlayers : List.Forall₂ (fun c d => LayerAlike σ c d ∧
        NamesAlike σ (Value.rebindNames i a c.names) (Value.rebindNames j b d.names))
        inner inner' := forall₂_of_zip hlength fun p hp =>
      ⟨⟨hids p hp, forall₂_of_names (hnames p hp) (hinner p hp)⟩,
        namesAlike_rebindNames (hnames p hp) (ihinner p hp)⟩
    obtain ⟨new, new', hnew, hkeep, hscope⟩ := rebindScope_append hσ hid hab outer outer' hlayers
    have hknown : ∀ x ∈ known, ∃ layer ∈ new, layer.id = none ∧ x ∈ Assoc.keys layer.names :=
      fun x hx => hkeep x (hknown x hx)
    rcases hscope with ⟨h, h'⟩ | ⟨h, h'⟩
    · rw [h, h']
      exact .of_closure hkl ⟨hnew, houter, houter', fun {x path} hx =>
        rel_of_isSome_eq (hfound x path hx) fun v w hv hw =>
          ⟨hstep x path v w hx hv hw, hend x path v w _ _ hx hv hw⟩, hknown⟩ hparams hbody
    · rw [h, h']
      refine .of_closure hkl ⟨hnew, plain_rebindScope i a houter, plain_rebindScope j b houter',
        fun {x path} hx => ?_, hknown⟩ hparams hbody
      rw [lookup_rebindScope i a houter, lookup_rebindScope j b houter']
      refine rel_of_isSome_eq ?_ fun v' w' hv' hw' => ?_
      · rw [Option.isSome_map, Option.isSome_map]
        exact hfound x path hx
      · obtain ⟨v, hv, rfl⟩ := Option.map_eq_some_iff.mp hv'
        obtain ⟨w, hw, rfl⟩ := Option.map_eq_some_iff.mp hw'
        refine ⟨Value.inStep_rebind (hstep x path v w hx hv hw), fun {u' t'} hu' ht' => ?_⟩
        rw [Value.follow_rebind] at hu' ht'
        obtain ⟨u, hu, rfl⟩ := Option.map_eq_some_iff.mp hu'
        obtain ⟨t, ht, rfl⟩ := Option.map_eq_some_iff.mp ht'
        exact ihend x path v w u t hx hv hw hu ht

end

end LiveTemplate
