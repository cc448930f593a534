import LiveTemplate.Proofs.Eval.Evaluation
import LiveTemplate.Proofs.Realm.Operations

/-!
Evaluation within a realm. Code that suits a realm, evaluated where all that it looks up lies within
the realm, comes to a value within the realm, however deep its calls go.
-/

namespace LiveTemplate

set_option autoImplicit false

variable {R : Realm}

/-! ### Names -/

theorem NamesWithin.set {names : List (String × Value)} (h : NamesWithin R names) {name : String}
    {v : Value} (hv : v.Within R .itself) : NamesWithin R (Assoc.set names name v) := by
  intro e he hname
  rcases mem_of_mem_set he with rfl | he
  · exact hv
  · exact h e he hname

theorem NamesWithin.current {layer : Layer} (h : NamesWithin R layer.names) {v : Value}
    (hv : v.Within R .itself) : (layer.current v).Within R .itself := by
  rw [Layer.current]
  split
  · exact hv
  · exact hv.rebind _ h

theorem NamesWithin.finished {layer : Layer} (h : NamesWithin R layer.names) :
    NamesWithin R layer.finished := by
  rw [Layer.finished]
  split
  · exact h
  · exact List.forall_mem_map.mpr fun e he hname => h.current (h e he hname)

namespace Scope.Within

variable {scope : Scope} (h : Scope.Within R scope)
include h

theorem lookup {name : String} (hname : R.names name) {v : Value}
    (hv : scope.lookup name = some v) : v.Within R .itself := by
  induction scope with
  | nil => cases hv
  | cons layer rest ih =>
    rw [Scope.Within, List.forall_mem_cons] at h
    rw [Scope.lookup] at hv
    split at hv
    · rename_i u hu
      cases hv
      exact h.1.current (h.1 _ (Assoc.mem_of_get? hu) hname)
    · exact ih h.2 hv

theorem extend {layer : Layer} (hlayer : NamesWithin R layer.names) :
    Scope.Within R (scope.extend layer) := by
  rw [Scope.extend]
  split
  · exact h
  · exact List.forall_mem_cons.mpr ⟨hlayer, h⟩

end Scope.Within

/-! ### Binding -/

/-- A binding keeps the names in a layer within a realm, whether it fails or not. -/
def BindYields (R : Realm) (x : Bind Unit) : Prop :=
  ∀ layer : Layer, NamesWithin R layer.names →
    Maintains R.Supply (fun p => NamesWithin R p.2.names) (StateT.run x.run layer)

namespace BindYields

theorem pure : BindYields R (Pure.pure ()) := fun _ hlayer => Maintains.pure hlayer

theorem throw (e : EvalError) : BindYields R (MonadExcept.throw e : Bind Unit) :=
  fun _ hlayer => Maintains.pure hlayer

theorem set (name : String) {v : Value} (hv : v.Within R .itself) :
    BindYields R (Bind.set name v) := fun _ hlayer => Maintains.pure (hlayer.set hv)

/-- An evaluation in the midst of binding leaves the layer alone. -/
theorem eval {α : Type} {P : α → Prop} {x : Eval α} {f : α → Bind Unit} (hx : Yields R.Supply P x)
    (hf : ∀ a, P a → BindYields R (f a)) : BindYields R (Bind.ofEval x >>= f) := fun l hl => by
  change Maintains R.Supply _ (x.run >>= fun p => StateT.run (ExceptT.bindCont f p) l)
  refine Maintains.bind hx fun p hp => ?_
  cases p with
  | ok a => exact hf a hp l hl
  | error e => exact Maintains.pure hl

theorem get {f : Layer → Bind Unit}
    (hf : ∀ layer : Layer, NamesWithin R layer.names → BindYields R (f layer)) :
    BindYields R (MonadState.get >>= f) := fun layer hlayer => hf layer hlayer layer hlayer

theorem seq {x : Bind Unit} {f : Unit → Bind Unit} (hx : BindYields R x)
    (hf : BindYields R (f ())) : BindYields R (x >>= f) := fun l hl => by
  change Maintains R.Supply _
    (StateT.run x.run l >>= fun p => StateT.run (ExceptT.bindCont f p.1) p.2)
  refine Maintains.bind (hx l hl) fun p hp => ?_
  obtain ⟨result, layer⟩ := p
  cases result with
  | ok _ => exact hf layer hp
  | error e => exact Maintains.pure hp

/-- Names bound over those of before stay within the realm. -/
theorem names {x : Bind Unit} (hx : BindYields R x) (isCaptured : Bool)
    {before : List (String × Value)} (h : NamesWithin R before) :
    Yields R.Supply (NamesWithin R) (x.names isCaptured before) := by
  have hover : Maintains R.Supply (fun layer : Layer => NamesWithin R layer.names)
      (Layer.over before isCaptured) := by
    cases isCaptured with
    | false => exact .pure h
    | true => exact maintains_freshId.bind fun _ _ => .pure h
  refine Maintains.bind hover fun layer hlayer => Maintains.bind (hx layer hlayer) fun p hp => ?_
  obtain ⟨result, layer⟩ := p
  refine Maintains.pure ?_
  cases result with
  | ok _ => exact hp.finished
  | error e => trivial

end BindYields

/-! ### Expressions -/

/-- The value of a link, if it has one. -/
abbrev LinkWithin (R : Realm) (link : Option Value) : Prop :=
  ∀ v, link = some v → v.Within R .itself

theorem linkWithin_none : LinkWithin R none := nofun

theorem linkWithin_some {v : Value} (hv : v.Within R .itself) : LinkWithin R (some v) := by
  rintro _ ⟨⟩
  exact hv

theorem within_ofLiteral (l : Literal) : (Value.ofLiteral l).Within R .itself := by
  cases l with
  | text s => exact .text s
  | number x => exact .number x
  | flag b => exact .flag b
  | null => exact .null
  | undefined => exact .undefined

theorem yields_settle {x : Eval (Option Value)} (h : Yields R.Supply (LinkWithin R) x) :
    Yields R.Supply (Value.Within R .itself) (settle x) :=
  h.map fun _ hlink => Value.within_getD hlink

theorem yields_some {x : Eval Value} (h : Yields R.Supply (Value.Within R .itself) x) :
    Yields R.Supply (LinkWithin R) (some <$> x) := h.map fun _ hv => linkWithin_some hv

/-- A step from a value that an optional link may skip. -/
theorem yields_step {x : Eval (Option Value)} (hx : Yields R.Supply (LinkWithin R) x)
    (optional : Bool) {f : Value → Eval (Option Value)}
    (hf : ∀ v : Value, v.Within R .itself → Yields R.Supply (LinkWithin R) (f v)) :
    Yields R.Supply (LinkWithin R) (do
      match ← x with
      | none => return none
      | some v => if optional && v.isAbsent then return none else f v) := by
  refine hx.bind fun link hlink => ?_
  cases link with
  | none => exact .pure linkWithin_none
  | some v => exact Yields.ite (fun _ => .pure linkWithin_none) fun _ => hf v (hlink v rfl)

theorem allWithin_tail {vs : List Value} (h : AllWithin R vs) : AllWithin R vs.tail :=
  fun v hv => h v (List.mem_of_mem_tail hv)

theorem within_headD {vs : List Value} (h : AllWithin R vs) :
    (vs.headD .undefined).Within R .itself := by
  cases vs with
  | nil => exact .undefined
  | cons v rest => exact h v List.mem_cons_self

variable {call : Call} (hcall : call.Within R)
include hcall

/-- The call of a function, on the value it was read from. -/
theorem yields_invoke {f self : Value} (hf : f.Within R .itself) (hself : self.Within R .itself)
    (optional : Bool) (callee : Expr) (span : Span) {args : Eval (List Value)}
    (hargs : Yields R.Supply (AllWithin R) args) :
    Yields R.Supply (LinkWithin R) (do
      if ← callable f optional callee span then
        let values ← args
        some <$> call f self values
      else return none) := by
  refine (yields_callable f optional callee span).bind fun c _ => ?_
  refine Yields.ite (fun _ => ?_) fun _ => .pure linkWithin_none
  exact hargs.bind fun vs hvs => yields_some (hcall hf hself hvs)

/-- The call of what is read from no other value. -/
theorem yields_otherCall {callee : Expr} (hmember : ∀ t n o p, callee ≠ .member t n o p)
    (hkeyed : ∀ t k o p, callee ≠ .keyed t k o p) {scope : Scope} {args : List Expr}
    (hcallee : Yields R.Supply (LinkWithin R) (callee.link call scope))
    (hargs : Yields R.Supply (AllWithin R) (Expr.values call scope args)) (optional : Bool)
    (span : Span) :
    Yields R.Supply (LinkWithin R) (Expr.link call scope (.call callee args optional span)) := by
  rw [link_otherCall hmember hkeyed]
  refine hcallee.bind fun link hlink => ?_
  cases link with
  | none => exact .pure linkWithin_none
  | some f => exact yields_invoke hcall (hlink f rfl) .undefined optional _ span hargs

set_option linter.unusedSectionVars false in
mutual

theorem yields_link {scope : Scope} (h : Scope.Within R scope) :
    ∀ e : Expr, (Phrase.expr e).Within R → Yields R.Supply (LinkWithin R) (e.link call scope)
  | .literal v _, _ => by
    rw [Expr.link]
    exact .pure (linkWithin_some (within_ofLiteral v))
  | .template head parts _, hc => by
    rw [Expr.link]
    refine (yields_partTexts h parts fun part hpart => ?_).bind fun _ _ =>
      .pure (linkWithin_some (.text _))
    exact hc.child (List.mem_map_of_mem hpart)
  | .name n span, hc => by
    rw [Expr.link]
    split
    · exact .pure (linkWithin_some (h.lookup hc.suits ‹_›))
    · exact .fail _ _
  | .member target n optional span, hc => by
    rw [Expr.link]
    exact yields_step (yields_link h target (hc.child List.mem_cons_self)) optional fun v hv =>
      yields_some (hv.read n span)
  | .keyed target key optional span, hc => by
    rw [link_keyed]
    refine yields_step (yields_link h target (hc.child List.mem_cons_self)) optional fun v hv => ?_
    have hkey := yields_link h key (hc.child (List.mem_cons_of_mem _ List.mem_cons_self))
    exact (yields_settle hkey).bind fun k _ => (yields_fieldName k _).bind fun n _ =>
      yields_some (hv.read n span)
  | .call callee args optional span, hc => by
    have hcalleeWithin := hc.child (c := .expr callee) List.mem_cons_self
    have hcallee := yields_link h callee hcalleeWithin
    have hargs := yields_values h args fun e he =>
      hc.child (List.mem_cons_of_mem _ (List.mem_map_of_mem he))
    cases callee with
    | member target n chained place =>
      rw [Expr.link]
      have htarget := yields_link h target (hcalleeWithin.child List.mem_cons_self)
      refine yields_step htarget chained fun v hv => (hv.read n place).bind fun f hf => ?_
      exact yields_invoke hcall hf hv optional _ span hargs
    | keyed target key chained place =>
      rw [Expr.link]
      have htarget := yields_link h target (hcalleeWithin.child List.mem_cons_self)
      have hkey := yields_link h key
        (hcalleeWithin.child (List.mem_cons_of_mem _ List.mem_cons_self))
      refine yields_step htarget chained fun v hv => (yields_settle hkey).bind fun k _ => ?_
      refine (yields_fieldName k _).bind fun n _ => (hv.read n place).bind fun f hf => ?_
      exact yields_invoke hcall hf hv optional _ span hargs
    | _ => exact yields_otherCall hcall (by simp) (by simp) hcallee hargs optional span
  | .unary op e _, hc => by
    rw [Expr.link]
    exact (yields_settle (yields_link h e (hc.child List.mem_cons_self))).bind fun v hv =>
      yields_some (yields_unary hcall op hv)
  | .binary op l r _, hc => by
    rw [Expr.link]
    have hleft := yields_settle (yields_link h l (hc.child List.mem_cons_self))
    have hright := yields_settle
      (yields_link h r (hc.child (List.mem_cons_of_mem _ List.mem_cons_self)))
    refine hleft.bind fun a ha => ?_
    refine Yields.ite (fun _ => .pure (linkWithin_some ha)) fun _ => ?_
    exact hright.bind fun b hb => yields_some (yields_binary hcall ha hb op)
  | .conditional c y n _, hc => by
    rw [Expr.link]
    have hyes := yields_link h y (hc.child (List.mem_cons_of_mem _ List.mem_cons_self))
    have hno := yields_link h n
      (hc.child (List.mem_cons_of_mem _ (List.mem_cons_of_mem _ List.mem_cons_self)))
    refine (yields_settle (yields_link h c (hc.child List.mem_cons_self))).bind fun v _ => ?_
    exact Yields.ite (fun _ => yields_some (yields_settle hyes)) fun _ =>
      yields_some (yields_settle hno)
  | .array es _, hc => by
    rw [Expr.link]
    refine (yields_values h es fun e he => hc.child (List.mem_map_of_mem he)).bind fun vs hvs => ?_
    exact yields_some (yields_newList hvs)
  | .object fields _, hc => by
    rw [Expr.link]
    refine (yields_fieldValues h fields (fun f hf => hc.child (List.mem_map_of_mem hf))
      fun f hf => hc.suits f hf).bind fun fs hfs => ?_
    exact Yields.freshId.bind fun _ hid =>
      .pure (linkWithin_some ((Bindings.Within.empty.assignAll hfs).record hid))
  | .arrow params body _, hc => by
    rw [Expr.link]
    refine Yields.freshId.bind fun _ hid =>
      .pure (linkWithin_some (.closure (fun _ => hid) (fun p hp => ?_) ?_ h))
    · exact hc.child (List.mem_append_left _ (List.mem_map_of_mem hp))
    · exact hc.child (List.mem_append_right _ List.mem_cons_self)

theorem yields_values {scope : Scope} (h : Scope.Within R scope) :
    ∀ es : List Expr, (∀ e ∈ es, (Phrase.expr e).Within R) →
      Yields R.Supply (AllWithin R) (Expr.values call scope es)
  | [], _ => by
    rw [Expr.values]
    exact .pure (allWithin_nil R)
  | e :: rest, hc => by
    rw [List.forall_mem_cons] at hc
    rw [Expr.values]
    exact (yields_settle (yields_link h e hc.1)).bind fun v hv =>
      (yields_values h rest hc.2).bind fun vs hvs => .pure (List.forall_mem_cons.mpr ⟨hv, hvs⟩)

theorem yields_partTexts {scope : Scope} (h : Scope.Within R scope) :
    ∀ parts : List (Expr × String), (∀ part ∈ parts, (Phrase.expr part.1).Within R) →
      Yields R.Supply (fun _ => True) (Expr.partTexts call scope parts)
  | [], _ => by
    rw [Expr.partTexts]
    exact .pure trivial
  | (e, piece) :: rest, hc => by
    rw [List.forall_mem_cons] at hc
    rw [Expr.partTexts]
    exact (yields_settle (yields_link h e hc.1)).bind fun v hv => (hv.toText hcall).bind fun _ _ =>
      (yields_partTexts h rest hc.2).bind fun _ _ => .pure trivial

theorem yields_fieldValues {scope : Scope} (h : Scope.Within R scope) :
    ∀ fields : List (String × Expr), (∀ f ∈ fields, (Phrase.expr f.2).Within R) →
      (∀ f ∈ fields, R.keys f.1) →
        Yields R.Supply (FieldsWithin R) (Expr.fieldValues call scope fields)
  | [], _, _ => by
    rw [Expr.fieldValues]
    exact .pure nofun
  | (name, e) :: rest, hc, hkeys => by
    rw [List.forall_mem_cons] at hc hkeys
    rw [Expr.fieldValues]
    exact (yields_settle (yields_link h e hc.1)).bind fun v hv =>
      (yields_fieldValues h rest hc.2 hkeys.2).bind fun fs hfs =>
        .pure (List.forall_mem_cons.mpr ⟨fieldWithin hkeys.1 hv, hfs⟩)

/-- A pattern that suits a realm binds its names to values of the realm. -/
theorem yields_bind {scope : Scope} (h : Scope.Within R scope) :
    ∀ p : Pattern, (Phrase.pattern p).Within R → ∀ v : Value, v.Within R .itself →
      BindYields R (p.bind call scope v)
  | .name n _, _, v, hv => by
    rw [Pattern.bind]
    exact .set n hv
  | .fallback target default _, hc, v, hv => by
    have htarget := yields_bind h target (hc.child List.mem_cons_self)
    by_cases hundefined : v = .undefined
    · subst hundefined
      rw [Pattern.bind]
      refine BindYields.get fun layer hlayer => ?_
      exact BindYields.eval (yields_settle (yields_link (h.extend hlayer) default
        (hc.child (List.mem_cons_of_mem _ List.mem_cons_self)))) fun v hv => htarget v hv
    · rw [bind_fallback_present call scope target default _ hundefined]
      exact htarget v hv
  | .array elements span, hc, v, hv => by
    rw [Pattern.bind]
    split
    · refine BindYields.eval (yields_walk hcall hv) fun vs hvs =>
        yields_bindItems h elements (fun element he p hp => ?_) vs hvs
      exact hc.child (List.mem_filterMap.mpr ⟨element, he, by rw [hp]; rfl⟩)
    · exact .throw _
  | .object properties span, hc, v, hv => by
    rw [Pattern.bind]
    split
    · exact yields_bindFields h properties (fun f hf => hc.child (List.mem_map_of_mem hf))
        (fun f hf => hc.suits f hf) v hv
    · exact .throw _

theorem yields_bindItems {scope : Scope} (h : Scope.Within R scope) :
    ∀ elements : List (Option Pattern),
      (∀ element ∈ elements, ∀ p, element = some p → (Phrase.pattern p).Within R) →
        ∀ vs : List Value, AllWithin R vs → BindYields R (Pattern.bindItems call scope elements vs)
  | [], _, vs, _ => by
    rw [Pattern.bindItems]
    exact .pure
  | none :: rest, hc, vs, hvs => by
    rw [List.forall_mem_cons] at hc
    rw [Pattern.bindItems]
    exact yields_bindItems h rest hc.2 _ (allWithin_tail hvs)
  | some p :: rest, hc, vs, hvs => by
    rw [List.forall_mem_cons] at hc
    rw [Pattern.bindItems]
    exact (yields_bind h p (hc.1 p rfl) _ (within_headD hvs)).seq
      (yields_bindItems h rest hc.2 _ (allWithin_tail hvs))

theorem yields_bindFields {scope : Scope} (h : Scope.Within R scope) :
    ∀ properties : List (String × Pattern), (∀ f ∈ properties, (Phrase.pattern f.2).Within R) →
      (∀ f ∈ properties, R.Reads f.1) → ∀ v : Value, v.Within R .itself →
        BindYields R (Pattern.bindFields call scope properties v)
  | [], _, _, v, _ => by
    rw [Pattern.bindFields]
    exact .pure
  | (name, p) :: rest, hc, hreads, v, hv => by
    rw [List.forall_mem_cons] at hc hreads
    rw [Pattern.bindFields]
    exact BindYields.eval (hv.member hreads.1) fun u hu =>
      (yields_bind h p hc.1 u hu).seq (yields_bindFields h rest hc.2 hreads.2 v hv)

end

theorem yields_bindAll {scope : Scope} (h : Scope.Within R scope) {params : List Pattern}
    (hc : ∀ p ∈ params, (Phrase.pattern p).Within R) {args : List Value}
    (hargs : AllWithin R args) : BindYields R (Pattern.bindAll call scope params args) := by
  induction params generalizing args with
  | nil => exact .pure
  | cons p rest ih =>
    rw [List.forall_mem_cons] at hc
    exact (yields_bind hcall h p hc.1 _ (within_headD hargs)).seq (ih hc.2 (allWithin_tail hargs))

/-! ### Calls -/

theorem within_callWith : Call.Within R (Value.callWith call) := by
  intro f self args hf hself hargs
  have hfirst := within_argument hargs 0
  cases hf with
  | closure hid hparams hbody hscope =>
    rw [Value.callWith]
    have hscope : Scope.Within R _ := hscope
    refine ((yields_bindAll hcall hscope hparams hargs).names _
      fun _ he => absurd he List.not_mem_nil).bind fun names hnames => ?_
    exact yields_settle (yields_link hcall (hscope.extend hnames) _ hbody)
  | helper f hraw =>
    cases f with
    | raw => exact yields_raw hcall (hraw rfl) hfirst
    | assignsToAttributes => exact yields_assignsToAttributes hcall hargs
    | renderSlot => exact .throw _
  | method m =>
    cases m with
    | text m => exact yields_textMethod hcall m hself hargs
    | list m => exact yields_listMethod hcall m hself hargs
    | number m => exact yields_numberMethod hcall m hargs
    | conversion c => exact yields_conversion hcall c hself
    | mapGet =>
      cases hself with
      | map _ hkeys hvalues =>
        refine .pure (Value.within_getD fun u hu => ?_)
        obtain ⟨e, he, rfl⟩ := Option.map_eq_some_iff.mp hu
        exact hvalues e (List.mem_of_find?_eq_some he)
      | _ => exact .throw _
    | mapHas => cases hself <;> first | exact .pure (.flag _) | exact .throw _
    | setHas => cases hself <;> first | exact .pure (.flag _) | exact .throw _
    | holds =>
      exact (hfirst.toText hcall).bind fun _ _ =>
        Yields.ite (fun _ => .throw _) fun _ => .pure (.flag _)
    | unused _ _ => exact .throw _
  | _ => exact .throw _

omit hcall in
theorem within_callWithin (depth : Nat) : Call.Within R (Value.callWithin depth) := by
  induction depth with
  | zero => exact fun _ _ _ => .throw _
  | succ depth ih => exact within_callWith ih

omit hcall in
theorem within_call : Call.Within R Value.call := within_callWithin _

omit hcall in
/-- What suits a realm evaluates within it. -/
theorem yields_eval {e : Expr} (he : (Phrase.expr e).Within R) {scope : Scope}
    (h : Scope.Within R scope) : Yields R.Supply (Value.Within R .itself) (e.eval scope) :=
  yields_settle (yields_link within_call h e he)

omit hcall in
theorem yields_bindOver {p : Pattern} (hp : (Phrase.pattern p).Within R) {v : Value}
    (hv : v.Within R .itself) {scope : Scope} (h : Scope.Within R scope)
    {names : List (String × Value)} (hnames : NamesWithin R names) :
    Yields R.Supply (NamesWithin R) (p.bindOver v scope names) :=
  (yields_bind within_call h p hp v hv).names _ hnames

end LiveTemplate
