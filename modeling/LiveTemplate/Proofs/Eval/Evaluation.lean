import LiveTemplate.Proofs.Eval.Binding

/-!
Evaluation of what is confined. In scopes that are alike for it, an expression comes to the same fault
or to values that are alike, as long as calls do.
-/

namespace LiveTemplate

set_option autoImplicit false

section
variable {σ : Pairing} (hσ : σ.Exact)

theorem both_settle {x y : Eval (Option Value)} (h : Both σ (Option.Rel (Alike σ)) x y) :
    Both σ (Alike σ) (settle x) (settle y) := h.map fun _ _ hab => getD_alike hab

section Links
variable {granted : String → List String → Prop} {known : List String} {s s' : Scope}
include hσ

/-- A chain from a known name, or along a granted path, comes to values that are alike. -/
theorem both_confinedChain {call : Call} (h : Scopes σ granted known s s') {e : Expr} {root : String}
    {path : List String} (hchain : e.chain? = some (root, path))
    (hc : root ∈ known ∨ granted root path) :
    Both σ (Option.Rel (Alike σ)) (e.link call s) (e.link call s') := by
  have hmeet := h.lookup hσ hc
  rw [← List.append_nil path] at hmeet
  refine (both_chain e hchain [] hmeet).imp fun a b hab => ?_
  cases hab with
  | none => exact .none
  | some hab => exact .some (Value.Meet.nil_iff.mp hab)

omit hσ in
/-- A step from a value that an optional link may skip. -/
theorem both_step {x y : Eval (Option Value)} (hxy : Both σ (Option.Rel (Alike σ)) x y)
    (optional : Bool) {f g : Value → Eval (Option Value)}
    (hf : ∀ v w, Alike σ v w → Both σ (Option.Rel (Alike σ)) (f v) (g w)) :
    Both σ (Option.Rel (Alike σ))
      (do
        match ← x with
        | none => return none
        | some v => if optional && v.isAbsent then return none else f v)
      (do
        match ← y with
        | none => return none
        | some w => if optional && w.isAbsent then return none else g w) := by
  refine hxy.bind fun a b hab => ?_
  cases hab with
  | none => exact .pure .none
  | some hvw => exact Both.ite (by rw [hvw.isAbsent_eq]) (fun _ => .pure .none) fun _ => hf _ _ hvw

omit hσ in
/-- The call of a function, on the value it was read from. -/
theorem both_invoke {call : Call} (hcall : Steady σ call) {f g self self' : Value}
    (hf : Alike σ f g) (hself : Alike σ self self') (optional : Bool) (callee : Expr) (span : Span)
    {xs ys : Eval (List Value)} (hargs : Both σ (List.Forall₂ (Alike σ)) xs ys) :
    Both σ (Option.Rel (Alike σ))
      (do
        if ← callable f optional callee span then
          let values ← xs
          some <$> call f self values
        else return none)
      (do
        if ← callable g optional callee span then
          let values ← ys
          some <$> call g self' values
        else return none) := by
  refine (both_callable hf optional callee span).bind fun c d hcd => ?_
  refine Both.ite hcd (fun _ => ?_) fun _ => .pure .none
  exact hargs.bind fun vs ws hvw => (hcall hf hself hvw).map fun _ _ h => .some h

end Links

section OtherCalls
variable {callee : Expr} (hmember : ∀ t n o p, callee ≠ .member t n o p)
  (hkeyed : ∀ t k o p, callee ≠ .keyed t k o p)
include hmember hkeyed

omit hσ in
theorem link_otherCall (call : Call) (scope : Scope) (args : List Expr) (optional : Bool)
    (span : Span) : Expr.link call scope (.call callee args optional span) = (do
      match ← Expr.link call scope callee with
      | none => return none
      | some f =>
        if ← callable f optional callee span then
          let values ← Expr.values call scope args
          some <$> call f .undefined values
        else return none) := by
  rewrite [Expr.link]
  · rfl
  · exact hmember
  · exact hkeyed

omit hσ in
theorem confined_otherCall (granted : String → List String → Prop) (known : List String)
    (args : List Expr) (optional : Bool) (span : Span) :
    Expr.Confined granted known (.call callee args optional span) =
      (callee.Confined granted known ∧ Expr.ListConfined granted known args) := by
  rw [Expr.Confined]
  · exact hmember
  · exact hkeyed

omit hσ in
/-- The call of what is read from no other value. -/
theorem both_otherCall {granted : String → List String → Prop} {known : List String} {call : Call}
    (hcall : Steady σ call) {s s' : Scope} {args : List Expr}
    (hcallee : callee.Confined granted known →
      Both σ (Option.Rel (Alike σ)) (callee.link call s) (callee.link call s'))
    (hargs : Expr.ListConfined granted known args →
      Both σ (List.Forall₂ (Alike σ)) (Expr.values call s args) (Expr.values call s' args))
    (optional : Bool) (span : Span)
    (hc : Expr.Confined granted known (.call callee args optional span)) :
    Both σ (Option.Rel (Alike σ)) (Expr.link call s (.call callee args optional span))
      (Expr.link call s' (.call callee args optional span)) := by
  rw [confined_otherCall hmember hkeyed] at hc
  rw [link_otherCall hmember hkeyed, link_otherCall hmember hkeyed]
  refine (hcallee hc.1).bind fun a b hab => ?_
  cases hab with
  | none => exact .pure .none
  | some hfg => exact both_invoke hcall hfg .undefined optional _ span (hargs hc.2)

end OtherCalls

theorem ofLiteral_alike (l : Literal) : Alike σ (Value.ofLiteral l) (Value.ofLiteral l) := by
  cases l with
  | text s => exact .text s
  | number x => exact .number x
  | flag b => exact .flag b
  | null => exact .null
  | undefined => exact .undefined

omit hσ in
theorem bind_fallback_present (call : Call) (scope : Scope) (target : Pattern) (default : Expr)
    (span : Span) {v : Value} (hv : v ≠ .undefined) :
    Pattern.bind call scope (.fallback target default span) v = Pattern.bind call scope target v := by
  rw [Pattern.bind]
  exact hv

section Items
variable {vs ws : List Value} (h : List.Forall₂ (Alike σ) vs ws)
include h

theorem headD_alike : Alike σ (vs.headD .undefined) (ws.headD .undefined) := by
  cases h with
  | nil => exact .undefined
  | cons hvw _ => exact hvw

theorem tail_alike : List.Forall₂ (Alike σ) vs.tail ws.tail := by
  cases h with
  | nil => exact .nil
  | cons _ hrest => exact hrest

end Items

variable {granted : String → List String → Prop} {call : Call} (hcall : Steady σ call)
include hσ hcall

set_option linter.unusedSectionVars false in
mutual

/-- A confined expression comes to the same fault or to alike values in scopes that are alike. -/
theorem both_link {known : List String} {s s' : Scope} (h : Scopes σ granted known s s') :
    ∀ e : Expr, e.Confined granted known →
      Both σ (Option.Rel (Alike σ)) (e.link call s) (e.link call s')
  | .literal v _, _ => by
    rw [Expr.link, Expr.link]
    exact .pure (.some (ofLiteral_alike v))
  | .template head parts _, hc => by
    rw [Expr.Confined] at hc
    rw [Expr.link, Expr.link]
    exact (both_partTexts h parts hc).bind fun _ _ hts => .pure (.some (hts ▸ .text _))
  | .name n span, hc => both_confinedChain hσ h (e := .name n span) rfl hc
  | .member target n optional span, hc => by
    rw [Expr.Confined] at hc
    cases hchain : Expr.chain? (.member target n optional span) with
    | some p =>
      rw [hchain] at hc
      exact both_confinedChain hσ h hchain hc
    | none =>
      rw [hchain] at hc
      rw [Expr.link, Expr.link]
      exact both_step (both_link h target hc) optional fun v w hvw =>
        (both_read hσ hvw n span).map fun _ _ hut => .some hut
  | .keyed target key optional span, hc => by
    rw [Expr.Confined] at hc
    cases hchain : Expr.chain? (.keyed target key optional span) with
    | some p =>
      rw [hchain] at hc
      exact both_confinedChain hσ h hchain hc
    | none =>
      rw [hchain] at hc
      rw [link_keyed, link_keyed]
      refine both_step (both_link h target hc.1) optional fun v w hvw => ?_
      refine (both_settle (both_link h key hc.2)).bind fun k k' hk => ?_
      refine (both_fieldName hk _).bind fun n n' hn => ?_
      exact hn ▸ (both_read hσ hvw n span).map fun _ _ hut => .some hut
  | .call callee args optional span, hc => by
    have hcallee := both_link h callee
    have hargs := both_values h args
    cases callee with
    | member target n chained place =>
      rw [Expr.Confined] at hc
      rw [Expr.link, Expr.link]
      refine both_step (both_link h target hc.1) chained fun v w hvw => ?_
      exact (both_read hσ hvw n place).bind fun f g hfg =>
        both_invoke hcall hfg hvw optional _ span (hargs hc.2)
    | keyed target key chained place =>
      rw [Expr.Confined] at hc
      rw [Expr.link, Expr.link]
      refine both_step (both_link h target hc.1) chained fun v w hvw => ?_
      refine (both_settle (both_link h key hc.2.1)).bind fun k k' hk => ?_
      refine (both_fieldName hk _).bind fun n n' hn => ?_
      subst hn
      exact (both_read hσ hvw n place).bind fun f g hfg =>
        both_invoke hcall hfg hvw optional _ span (hargs hc.2.2)
    | _ => exact both_otherCall (by simp) (by simp) hcall hcallee hargs optional span hc
  | .unary op e _, hc => by
    rw [Expr.Confined] at hc
    rw [Expr.link, Expr.link]
    refine (both_settle (both_link h e hc)).bind fun v w hvw => ?_
    exact (both_unary hσ hcall op hvw).map fun _ _ hut => .some hut
  | .binary op l r _, hc => by
    rw [Expr.Confined] at hc
    rw [Expr.link, Expr.link]
    refine (both_settle (both_link h l hc.1)).bind fun v w hvw => ?_
    refine Both.ite (decided_alike op hvw) (fun _ => .pure (.some hvw)) fun _ => ?_
    refine (both_settle (both_link h r hc.2)).bind fun v' w' hvw' => ?_
    exact (both_binary hσ hcall hvw hvw' op).map fun _ _ hut => .some hut
  | .conditional c y n _, hc => by
    rw [Expr.Confined] at hc
    rw [Expr.link, Expr.link]
    refine (both_settle (both_link h c hc.1)).bind fun v w hvw => ?_
    exact Both.ite hvw.truthy_eq
      (fun _ => (both_settle (both_link h y hc.2.1)).map fun _ _ hut => .some hut)
      fun _ => (both_settle (both_link h n hc.2.2)).map fun _ _ hut => .some hut
  | .array es _, hc => by
    rw [Expr.Confined] at hc
    rw [Expr.link, Expr.link]
    exact (both_values h es hc).bind fun _ _ hvs => (Both.newList hvs).map fun _ _ hut => .some hut
  | .object fields _, hc => by
    rw [Expr.Confined] at hc
    rw [Expr.link, Expr.link]
    refine (both_fieldValues h fields hc).bind fun fs gs hfs => ?_
    exact Both.freshId.bind fun i j hid =>
      .pure (.some ((BindingsAlike.empty.assignAll hσ hfs).record hid))
  | .arrow params body _, hc => by
    rw [Expr.Confined] at hc
    rw [Expr.link, Expr.link]
    exact Both.freshId.bind fun i j hid => .pure (.some (h.closure hid hc.1 hc.2))

theorem both_values {known : List String} {s s' : Scope} (h : Scopes σ granted known s s') :
    ∀ es : List Expr, Expr.ListConfined granted known es →
      Both σ (List.Forall₂ (Alike σ)) (Expr.values call s es) (Expr.values call s' es)
  | [], _ => by
    rw [Expr.values, Expr.values]
    exact .pure .nil
  | e :: rest, hc => by
    rw [Expr.ListConfined] at hc
    rw [Expr.values, Expr.values]
    refine (both_settle (both_link h e hc.1)).bind fun v w hvw => ?_
    exact (both_values h rest hc.2).bind fun _ _ hvs => .pure (.cons hvw hvs)

theorem both_partTexts {known : List String} {s s' : Scope} (h : Scopes σ granted known s s') :
    ∀ parts : List (Expr × String), Expr.PartsConfined granted known parts →
      Both σ Eq (Expr.partTexts call s parts) (Expr.partTexts call s' parts)
  | [], _ => by
    rw [Expr.partTexts, Expr.partTexts]
    exact .pure rfl
  | (e, piece) :: rest, hc => by
    rw [Expr.PartsConfined] at hc
    rw [Expr.partTexts, Expr.partTexts]
    refine (both_settle (both_link h e hc.1)).bind fun v w hvw => ?_
    refine (both_toText hσ hcall hvw).bind fun t t' ht => ?_
    subst ht
    exact (both_partTexts h rest hc.2).bind fun _ _ hts => .pure (hts ▸ rfl)

theorem both_fieldValues {known : List String} {s s' : Scope} (h : Scopes σ granted known s s') :
    ∀ fields : List (String × Expr), Expr.FieldsConfined granted known fields →
      Both σ (NamesAlike σ) (Expr.fieldValues call s fields) (Expr.fieldValues call s' fields)
  | [], _ => by
    rw [Expr.fieldValues, Expr.fieldValues]
    exact .pure .nil
  | (name, e) :: rest, hc => by
    rw [Expr.FieldsConfined] at hc
    rw [Expr.fieldValues, Expr.fieldValues]
    refine (both_settle (both_link h e hc.1)).bind fun v w hvw => ?_
    exact (both_fieldValues h rest hc.2).bind fun _ _ hfs => .pure (.cons ⟨rfl, hvw⟩ hfs)

end

/-! ### Patterns -/

omit hσ hcall in
/-- Layers that stay related when alike values are bound, and in which defaults evaluate alike. -/
structure Binds (σ : Pairing) (granted : String → List String → Prop) (known : List String)
    (s s' : Scope) (Rel : List String → Layer → Layer → Prop) : Prop where
  put : ∀ {bound : List String} {a b : Layer}, Rel bound a b → ∀ (name : String) {v w : Value},
    Alike σ v w → Rel (bound ++ [name]) (a.put name v) (b.put name w)
  inner : ∀ {bound : List String} {a b : Layer}, Rel bound a b →
    Scopes σ granted known (s.extend a) (s'.extend b)

omit hσ hcall in
/-- Alike layers over scopes in which what is confined evaluates alike. -/
theorem Scopes.binds {known : List String} {s s' : Scope} (h : Scopes σ granted known s s') :
    Binds σ granted known s s' (Bound σ) where
  put hab name _ _ hvw := hab.put name hvw
  inner {_ a b} hab := by
    have hinner : Scopes σ granted (known ++ []) (s.extend a) (s'.extend b) :=
      h.extend hab.layers fun _ hx => absurd hx List.not_mem_nil
    rwa [List.append_nil] at hinner

section Patterns
variable {known : List String} {s s' : Scope} {Rel : List String → Layer → Layer → Prop}
  (h : Binds σ granted known s s' Rel)
include h

set_option linter.unusedSectionVars false in
mutual

/-- A confined pattern binds its names to alike parts of alike values. -/
theorem both_bind : ∀ p : Pattern, p.Confined granted known → ∀ v w : Value, Alike σ v w →
    BindBoth σ Rel p.boundNames (p.bind call s v) (p.bind call s' w)
  | .name n _, _, v, w, hvw => by
    rw [Pattern.bind, Pattern.bind]
    exact .set n fun _ _ _ hab => h.put hab n hvw
  | .fallback target default _, hc, v, w, hvw => by
    rw [Pattern.Confined] at hc
    have htarget := both_bind target hc.2
    by_cases hv : v = .undefined
    · subst hv
      cases hvw
      rw [Pattern.bind, Pattern.bind]
      refine BindBoth.get fun _ a b hab => ?_
      exact BindBoth.eval (both_settle (both_link hσ hcall (h.inner hab) default hc.1))
        fun a b hab => htarget a b hab
    · have hw : w ≠ .undefined := by
        rintro rfl
        cases hvw
        exact hv rfl
      rw [bind_fallback_present call s target default _ hv,
        bind_fallback_present call s' target default _ hw]
      exact htarget v w hvw
  | .array elements span, hc, v, w, hvw => by
    rw [Pattern.Confined] at hc
    rw [Pattern.bind, Pattern.bind, isWalkable_alike hvw, hvw.describe_eq]
    split
    · exact BindBoth.eval (both_walk hσ hcall hvw) fun vs ws hvs => both_bindItems elements hc vs ws hvs
    · exact .throw _
  | .object properties span, hc, v, w, hvw => by
    rw [Pattern.Confined] at hc
    rw [Pattern.bind, Pattern.bind, hvw.isStructured_eq, hvw.describe_eq]
    split
    · exact both_bindFields properties hc v w hvw
    · exact .throw _

theorem both_bindItems : ∀ elements : List (Option Pattern),
    Pattern.ElementsConfined granted known elements → ∀ vs ws : List Value,
      List.Forall₂ (Alike σ) vs ws → BindBoth σ Rel (Pattern.elementNames elements)
        (Pattern.bindItems call s elements vs) (Pattern.bindItems call s' elements ws)
  | [], _, vs, ws, _ => by
    rw [Pattern.bindItems, Pattern.bindItems]
    exact .pure
  | none :: rest, hc, vs, ws, hvs => by
    rw [Pattern.ElementsConfined] at hc
    rw [Pattern.bindItems, Pattern.bindItems]
    exact both_bindItems rest hc _ _ (tail_alike hvs)
  | some p :: rest, hc, vs, ws, hvs => by
    rw [Pattern.ElementsConfined] at hc
    rw [Pattern.bindItems, Pattern.bindItems]
    exact (both_bind p hc.1 _ _ (headD_alike hvs)).seq
      (both_bindItems rest hc.2 _ _ (tail_alike hvs))

theorem both_bindFields : ∀ properties : List (String × Pattern),
    Pattern.PropertiesConfined granted known properties → ∀ v w : Value, Alike σ v w →
      BindBoth σ Rel (Pattern.propertyNames properties) (Pattern.bindFields call s properties v)
        (Pattern.bindFields call s' properties w)
  | [], _, v, w, _ => by
    rw [Pattern.bindFields, Pattern.bindFields]
    exact .pure
  | (name, p) :: rest, hc, v, w, hvw => by
    rw [Pattern.PropertiesConfined] at hc
    rw [Pattern.bindFields, Pattern.bindFields]
    exact BindBoth.eval (both_member hσ hvw name) fun u t hut =>
      (both_bind p hc.1 u t hut).seq (both_bindFields rest hc.2 v w hvw)

end

/-- Confined parameters bind their names to alike parts of alike arguments. -/
theorem both_bindAll (params : List Pattern) (hc : Pattern.AllConfined granted known params)
    {vs ws : List Value} (hvs : List.Forall₂ (Alike σ) vs ws) :
    BindBoth σ Rel (Pattern.allNames params) (Pattern.bindAll call s params vs)
      (Pattern.bindAll call s' params ws) := by
  induction params generalizing vs ws with
  | nil => exact .pure
  | cons p rest ih =>
    rw [Pattern.AllConfined] at hc
    exact (both_bind hσ hcall h p hc.1 _ _ (headD_alike hvs)).seq (ih hc.2 (tail_alike hvs))

end Patterns

/-! ### Calls -/

omit hcall in
/-- A function called inside of calls that are steady is steady. -/
theorem both_closure (hcall : Steady σ call) {i : Identity} {params : List Pattern} {body : Expr}
    {scope : Scope} {g : Value} (h : Alike σ (.closure i params body scope) g) (self self' : Value)
    {args args' : List Value} (hargs : List.Forall₂ (Alike σ) args args') :
    Both σ (Alike σ) (Value.callWith call (.closure i params body scope) self args)
      (Value.callWith call g self' args') := by
  obtain ⟨j, scope', granted, known, rfl, hid, hscopes, hparams, hbody⟩ := h.closure_scopes
  rw [Value.callWith, Value.callWith]
  have hnames := both_boundNames hσ (both_bindAll hσ hcall hscopes.binds params hparams hargs)
    (params.any Pattern.makesFunction) .nil
  refine hnames.bind fun ms ns hms => both_settle (both_link hσ hcall ?_ body hbody)
  exact hscopes.extend ⟨.inl ⟨rfl, rfl⟩, hms.1⟩ fun x hx => ⟨rfl, hms.2 x hx⟩

omit hcall in
/-- The membership tests and the reads of collections. -/
theorem both_collectionMethod (m : Method) (hm : m = .mapGet ∨ m = .mapHas ∨ m = .setHas)
    {self self' : Value} (hself : Alike σ self self') {args args' : List Value}
    (hargs : List.Forall₂ (Alike σ) args args') :
    Both σ (Alike σ) (Value.callWith call (.method m) self args)
      (Value.callWith call (.method m) self' args') := by
  have hfirst := argument_alike hargs 0
  have hsame : ∀ a b, Alike σ a b →
      Value.sameMember a (argument args 0) = Value.sameMember b (argument args' 0) :=
    fun a b hab => sameBy_alike hσ hab hfirst _
  cases hself with
  | map hid hlength hkeys hvalues =>
    have hpairs : PairsAlike σ _ _ := forall₂_of_zip hlength fun p hp => ⟨hkeys p hp, hvalues p hp⟩
    rcases hm with rfl | rfl | rfl
    · rw [Value.callWith, Value.callWith]
      refine .pure (getD_alike ?_)
      have hfound := find?_rel hpairs fun a b hab => hsame a.1 b.1 hab.1
      generalize List.find? _ _ = a at hfound ⊢
      generalize List.find? _ _ = b at hfound ⊢
      cases hfound with
      | none => exact .none
      | some hab => exact .some hab.2
    · refine .pure ?_
      rw [any_rel hpairs fun a b hab => hsame a.1 b.1 hab.1]
      exact .flag _
    · exact .throw _
  | set hid hlength hall =>
    rcases hm with rfl | rfl | rfl
    · exact .throw _
    · exact .throw _
    · refine .pure ?_
      rw [any_rel (forall₂_of_zip hlength hall) hsame]
      exact .flag _
  | _ => rcases hm with rfl | rfl | rfl <;> exact .throw _

omit hcall in
theorem steady_callWith (hcall : Steady σ call) : Steady σ (Value.callWith call) := by
  intro f g self self' args args' hf hself hargs
  have hfirst := argument_alike hargs 0
  have hsame := hf
  cases hf with
  | closure => exact both_closure hσ hcall hsame self self' hargs
  | helper p =>
    cases p with
    | raw => exact both_raw hσ hcall hfirst
    | assignsToAttributes => exact both_assignsToAttributes hσ hcall hargs
    | renderSlot => exact .throw _
  | method m =>
    cases m with
    | text m => exact both_textMethod hσ hcall m hself hargs
    | number m => exact both_numberMethod hσ hcall m hself hargs
    | list m => exact both_listMethod hσ hcall m hself hargs
    | conversion c => exact both_conversion hσ hcall c hself
    | mapGet => exact both_collectionMethod hσ _ (by simp) hself hargs
    | mapHas => exact both_collectionMethod hσ _ (by simp) hself hargs
    | setHas => exact both_collectionMethod hσ _ (by simp) hself hargs
    | holds =>
      rw [Value.callWith, Value.callWith]
      refine (both_toText hσ hcall hfirst).bind fun name name' hname => ?_
      subst hname
      refine Both.ite hself.isAbsent_eq (fun _ => .throw _) fun _ => .pure ?_
      rw [isSome_eq_of_rel (hself.own?_rel name)]
      exact .flag _
    | unused owner name => exact .throw _
  | _ => exact .throw _

omit hcall in
theorem steady_callWithin (depth : Nat) : Steady σ (Value.callWithin depth) := by
  induction depth with
  | zero => exact fun _ _ _ => .throw _
  | succ depth ih => exact steady_callWith hσ ih

omit hcall in
theorem steady_call : Steady σ Value.call := steady_callWithin hσ Value.callDepth

end

end LiveTemplate
