import LiveTemplate.Proofs.Eval.Supply

/-!
No identity is given out twice. What an expression comes to, and what a pattern binds, was given out by
the end of it: what is made next is told apart from all of it.
-/

namespace LiveTemplate

set_option autoImplicit false

variable {n : Identity}

/-! ### Operations -/

theorem AllGiven.of_forall {vs : List Value} (h : ∀ v ∈ vs, v.Given n) : AllGiven n vs :=
  List.forall₂_same.mpr h

/-- A record while it is made, of values given out before some identity. -/
abbrev Bindings.Given (n : Identity) (b : Bindings) : Prop := BindingsAlike (.below n) b b

theorem Bindings.Given.later {k : Identity} (hk : n ≤ k) {b : Bindings} (h : b.Given n) :
    b.Given k := by
  refine ⟨?_, NamesGiven.later hk h.fields⟩
  have hparent := h.parent
  generalize b.parent = p at hparent
  cases hparent with
  | plain => exact .plain
  | nothing => exact .nothing
  | value hv => exact .value (Value.Given.later hk hv)

theorem Bindings.Given.made {b : Bindings} (h : b.Given n) :
    Supplied n (do return b.record (← freshId)) :=
  Advances.freshId.bind fun _ hk _ hid => .pure fun _ hi =>
    (h.later (Nat.le_trans hk hi)).record (Pairing.below_le hi _ _ hid)

theorem advances_fieldName (v : Value) (span : Span) :
    Advances n (fun _ _ => True) (v.fieldName span) := by
  cases v <;> first | exact .pure fun _ _ => trivial | exact .fail _ _

theorem advances_callable (f : Value) (optional : Bool) (callee : Expr) (span : Span) :
    Advances n (fun _ _ => True) (callable f optional callee span) := by
  refine .ite (fun _ => .pure fun _ _ => trivial) fun _ => ?_
  split
  · exact .fail _ _
  · exact .ite (fun _ => .pure fun _ _ => trivial) fun _ => .fail _ _

theorem supplied_newPair {a b : Value} (ha : a.Given n) (hb : b.Given n) :
    Supplied n (Value.newPair a b) := .newList (.cons ha (.cons hb .nil))

/-- New pairs, one for each of some items. -/
theorem advances_newPairs {α : Type} {xs : List α} {f g : α → Value}
    (h : ∀ x ∈ xs, (f x).Given n ∧ (g x).Given n) :
    Advances n (fun k vs => AllGiven k vs) (xs.mapM fun x => Value.newPair (f x) (g x)) :=
  (Advances.mapM (Q := fun k (v : Value) => v.Given k) (fun hk hv => hv.later hk)
    fun x hx => supplied_newPair (h x hx).1 (h x hx).2).imp fun _ _ _ hvs => .of_forall hvs

section
variable (hn : 0 < n) {call : Call} (hcall : Supplies.Calls call)
include hn hcall

theorem advances_walk {v : Value} (h : v.Given n) :
    Advances n (fun k vs => AllGiven k vs) (v.walk call) := by
  have hfilled : Advances n (fun k vs => AllGiven k vs) (Value.filled <$> v.elements call) :=
    (advances_elements hn hcall h).map fun _ _ _ hes => filled_alike hes
  unfold Value.walk
  cases v with
  | list i items =>
    cases h with
    | list _ hlength hall => exact .pure fun _ hk => AllGiven.later hk (forall₂_of_zip hlength hall)
  | set i items =>
    cases h with
    | set _ hlength hall => exact .pure fun _ hk => AllGiven.later hk (forall₂_of_zip hlength hall)
  | map i entries =>
    cases h with
    | map _ hlength hkeys hvalues =>
      have hall := List.forall₂_same.mp (forall₂_of_zip (R := fun a b => Alike (.below n) a.1 b.1 ∧
        Alike (.below n) a.2 b.2) hlength fun p hp => ⟨hkeys p hp, hvalues p hp⟩)
      exact advances_newPairs hall
  | _ =>
    dsimp only
    split
    · exact hfilled
    · exact .throw _

/-- The items of a loop. -/
theorem advances_items {v : Value} (h : v.Given n) (span : Span) :
    Advances n (fun k vs => AllGiven k vs) (v.items call span) := by
  have hfields := h.fields?_rel
  unfold Value.items
  refine .ite (fun _ => .pure fun _ _ => .nil) fun _ => .ite (fun _ => advances_walk hn hcall h)
    fun _ => ?_
  generalize v.fields? = fields at hfields
  cases hfields with
  | none => exact .fail _ _
  | some hfields =>
    have hall := List.forall₂_same.mp hfields
    exact advances_newPairs fun f hf => ⟨.text _, (hall f hf).2⟩

/-! #### Helpers and operators -/

theorem supplied_raw {v : Value} (h : v.Given n) : Supplied n (v.raw call) := by
  have hmade : ∀ s : String, Supplied n (do
      let id ← freshId
      return Value.html id s) := fun s =>
    Advances.freshId.bind fun _ _ _ hid => .pure fun _ hi => .html s (Pairing.below_le hi _ _ hid)
  unfold Value.raw
  refine .ite (fun _ => .given h) fun _ => ?_
  split
  · exact hmade ""
  · exact (advances_toText hn hcall h).next hmade

theorem supplied_assignsToAttributes {args : List Value} (hargs : AllGiven n args) :
    Supplied n (assignsToAttributes call args) := by
  have hassigns : Value.Given n (argument args 0) := argument_alike hargs 0
  have hnames : Value.Given n (argument args 1) := argument_alike hargs 1
  have hentries : NamesGiven n (argument args 0).entries := entries_alike hassigns
  unfold assignsToAttributes
  refine .ite (fun _ => ?_) fun _ => ?_
  · exact Advances.bind (P := fun _ _ => False) (.throw _) fun _ _ _ h => h.elim
  have hmade : ∀ excluded : String → Eval Bool, Yields (fun _ : Nat => True) (Bindings.Given n)
      (attributesOf excluded (argument args 0).entries) := by
    intro excluded
    unfold attributesOf
    refine (Yields.filterM (P := fun e => e.2.Given n)
      (fun e he => (List.forall₂_same.mp hentries e he).2) fun _ _ => .unseen _).bind
      fun kept hkept => .pure ?_
    exact BindingsAlike.empty.assignAll (Pairing.below_exact hn)
      (List.forall₂_same.mpr fun e he => ⟨rfl, hkept e he⟩)
  have hgoes : ∀ excluded : String → Eval Bool, (∀ σ : Pairing, σ.Exact → (∀ i < n, σ i i) →
      ∀ name, Both σ Eq (excluded name) (excluded name)) →
        Advances n (fun _ _ => True) (attributesOf excluded (argument args 0).entries) :=
    fun _ hexcluded => .of_both hn fun σ hσ hself =>
      both_attributesOf hσ (hexcluded σ hσ hself) (hentries.mono (Pairing.below_self hself))
  refine ((hgoes _ fun σ hσ hself name => ?_).and_yields (hmade _)).bind
    fun k hk made hmade => (hmade.2.later hk).made
  have htells := both_tells hσ (hcall.steady hσ) (hnames.mono (Pairing.below_self hself)) name
  generalize argument args 1 = a at htells
  cases a with
  | undefined => exact .pure rfl
  | _ => exact htells

theorem supplied_unary (op : UnaryOp) {v : Value} (h : v.Given n) :
    Supplied n (op.apply call v) := by
  have hnumber := advances_toNumber hn hcall h
  cases op with
  | not => exact .given (.flag _)
  | negate => exact hnumber.next fun _ => .given (.number _)
  | plus => exact hnumber.next fun _ => .given (.number _)
  | typeof => exact .given (.text _)

section Operands
variable {a b : Value} (ha : a.Given n) (hb : b.Given n)
include ha hb

theorem supplied_arithmetic (f : Float → Float → Float) :
    Supplied n (arithmetic call f a b) :=
  (advances_toNumber hn hcall ha).next fun _ => (advances_toNumber hn hcall hb).next fun _ =>
    .given (.number _)

theorem supplied_binary (op : BinaryOp) : Supplied n (op.apply call a b) := by
  have hboth := fun {σ : Pairing} (hself : ∀ i < n, σ i i) =>
    And.intro (ha.mono (Pairing.below_self hself)) (hb.mono (Pairing.below_self hself))
  have hequal : Advances n (fun _ _ => True) (Value.looseEq call a b) :=
    .of_both hn fun _ hσ hself =>
      both_looseEq hσ (hcall.steady hσ) (hboth hself).1 (hboth hself).2
  have hdifference : Advances n (fun _ _ => True) (Value.difference call a b) :=
    .of_both hn fun _ hσ hself =>
      both_difference hσ (hcall.steady hσ) (hboth hself).1 (hboth hself).2
  cases op with
  | strictEq | strictNe => exact .given (.flag _)
  | looseEq | looseNe => exact hequal.next fun _ => .given (.flag _)
  | less | lessEq | greater | greaterEq => exact hdifference.next fun _ => .given (.flag _)
  | add =>
    have hnumbers := supplied_arithmetic hn hcall ha hb (· + ·)
    have hleft := advances_toText hn hcall ha
    have hright := advances_toText hn hcall hb
    change Supplied n (addition call a b)
    unfold addition
    split
    · exact hright.next fun _ => .given (.text _)
    · exact hleft.next fun _ => .given (.text _)
    · exact hnumbers
  | sub | mul | div | rem => exact supplied_arithmetic hn hcall ha hb _
  | coalesce | or | and =>
    refine .given ?_
    split <;> assumption

end Operands

end

/-! ### Binding -/

/-- The names in a layer, and its identity, were given out before. -/
abbrev Layer.Given (n : Identity) (layer : Layer) : Prop := LayerAlike (.below n) layer layer

theorem Layer.Given.later {k : Identity} (hk : n ≤ k) {layer : Layer} (h : layer.Given n) :
    layer.Given k := h.mono (Pairing.below_le hk)

/-- Wherever a binding starts from some identity on, it goes on from there and puts values under names
that were given out by its end. -/
def BindAdvances (n : Identity) (x : Bind Unit) : Prop :=
  ∀ k ≥ n, ∀ layer : Layer, layer.Given k →
    k ≤ ((StateT.run x.run layer).run k).2 ∧
      ((StateT.run x.run layer).run k).1.2.Given ((StateT.run x.run layer).run k).2

namespace BindAdvances

theorem pure : BindAdvances n (Pure.pure ()) := fun k _ _ h => ⟨Nat.le_refl k, h⟩

theorem throw (e : EvalError) : BindAdvances n (MonadExcept.throw e : Bind Unit) :=
  fun k _ _ h => ⟨Nat.le_refl k, h⟩

theorem set (name : String) {v : Value} (hv : v.Given n) : BindAdvances n (Bind.set name v) :=
  fun k hk _ h => ⟨Nat.le_refl k, h.ids, h.names.set (Value.Given.later hk hv) name⟩

theorem later {x : Bind Unit} (h : BindAdvances n x) {k : Identity} (hk : n ≤ k) :
    BindAdvances k x := fun i hi => h i (Nat.le_trans hk hi)

/-- An evaluation in the midst of binding leaves the layer alone. -/
theorem eval {α : Type} {P : Identity → α → Prop} {x : Eval α} {f : α → Bind Unit}
    (hx : Advances n P x) (hf : ∀ k ≥ n, ∀ a, P k a → BindAdvances k (f a)) :
    BindAdvances n (Bind.ofEval x >>= f) := by
  intro k hk layer hlayer
  obtain ⟨hgrown, ha⟩ := hx k hk
  change k ≤ ((StateT.run (ExceptT.bindCont f (x.run.run k).1) layer).run (x.run.run k).2).2 ∧
    ((StateT.run (ExceptT.bindCont f (x.run.run k).1) layer).run (x.run.run k).2).1.2.Given
      ((StateT.run (ExceptT.bindCont f (x.run.run k).1) layer).run (x.run.run k).2).2
  cases hresult : (x.run.run k).1 with
  | error e => exact ⟨hgrown, hlayer.later hgrown⟩
  | ok a =>
    rw [hresult] at ha
    obtain ⟨hmore, hafter⟩ :=
      hf _ (Nat.le_trans hk hgrown) a ha _ (Nat.le_refl _) layer (hlayer.later hgrown)
    exact ⟨Nat.le_trans hgrown hmore, hafter⟩

theorem get {f : Layer → Bind Unit}
    (hf : ∀ k ≥ n, ∀ layer : Layer, layer.Given k → BindAdvances k (f layer)) :
    BindAdvances n (MonadState.get >>= f) :=
  fun k hk layer hlayer => hf k hk layer hlayer k (Nat.le_refl k) layer hlayer

theorem seq {x : Bind Unit} {f : Unit → Bind Unit} (hx : BindAdvances n x)
    (hf : BindAdvances n (f ())) : BindAdvances n (x >>= f) := by
  intro k hk layer hlayer
  obtain ⟨hgrown, hafter⟩ := hx k hk layer hlayer
  change k ≤ ((StateT.run (ExceptT.bindCont f ((StateT.run x.run layer).run k).1.1)
      ((StateT.run x.run layer).run k).1.2).run ((StateT.run x.run layer).run k).2).2 ∧
    ((StateT.run (ExceptT.bindCont f ((StateT.run x.run layer).run k).1.1)
      ((StateT.run x.run layer).run k).1.2).run ((StateT.run x.run layer).run k).2).1.2.Given
    ((StateT.run (ExceptT.bindCont f ((StateT.run x.run layer).run k).1.1)
      ((StateT.run x.run layer).run k).1.2).run ((StateT.run x.run layer).run k).2).2
  cases ((StateT.run x.run layer).run k).1.1 with
  | error e => exact ⟨hgrown, hafter⟩
  | ok _ =>
    obtain ⟨hmore, hlast⟩ := hf _ (Nat.le_trans hk hgrown) _ hafter
    exact ⟨Nat.le_trans hgrown hmore, hlast⟩

/-- Names bound over those of before. -/
theorem names (hn : 0 < n) {x : Bind Unit} (hx : BindAdvances n x) (isCaptured : Bool)
    {before : List (String × Value)} (h : NamesGiven n before) :
    Advances n (fun k ns => NamesGiven k ns) (x.names isCaptured before) := by
  intro k hk
  have hover : k ≤ ((Layer.over before isCaptured).run k).2 ∧
      ((Layer.over before isCaptured).run k).1.Given ((Layer.over before isCaptured).run k).2 := by
    cases isCaptured with
    | false => exact ⟨Nat.le_refl k, .inl ⟨rfl, rfl⟩, NamesGiven.later hk h⟩
    | true =>
      exact ⟨Nat.le_succ k, .inr ⟨k, k, rfl, rfl, rfl, Nat.lt_succ_self k⟩,
        NamesGiven.later (Nat.le_trans hk (Nat.le_succ k)) h⟩
  obtain ⟨hstart, hlayer⟩ := hover
  obtain ⟨hgrown, hafter⟩ := hx _ (Nat.le_trans hk hstart) _ hlayer
  have hpos := Nat.lt_of_lt_of_le hn (Nat.le_trans hk (Nat.le_trans hstart hgrown))
  have hfinished := finished_alike (Pairing.below_exact hpos) hafter
  refine ⟨Nat.le_trans hstart hgrown, ?_⟩
  change IfOk _ (((StateT.run x.run ((Layer.over before isCaptured).run k).1).run
    ((Layer.over before isCaptured).run k).2).1.1.map fun _ => ((StateT.run x.run
      ((Layer.over before isCaptured).run k).1).run
        ((Layer.over before isCaptured).run k).2).1.2.finished)
  cases ((StateT.run x.run ((Layer.over before isCaptured).run k).1).run
    ((Layer.over before isCaptured).run k).2).1.1 with
  | error e => trivial
  | ok _ => exact hfinished

end BindAdvances

/-! ### Expressions -/

/-- The value of a link, if it has one, was given out before. -/
abbrev LinkGiven (n : Identity) (link : Option Value) : Prop :=
  Option.Rel (Alike (.below n)) link link

theorem LinkGiven.later {k : Identity} (hk : n ≤ k) {link : Option Value} (h : LinkGiven n link) :
    LinkGiven k link := rel_imp h fun _ _ hv => hv.mono (Pairing.below_le hk)

theorem LinkGiven.value {v : Value} (h : LinkGiven n (some v)) : v.Given n := by
  cases h with
  | some h => exact h

/-- Scopes in which what is confined finds only what was given out before. -/
abbrev ScopeGiven (n : Identity) (granted : String → List String → Prop) (known : List String)
    (s : Scope) : Prop := Scopes (.below n) granted known s s

theorem supplied_settle {x : Eval (Option Value)} (h : Advances n (fun k a => LinkGiven k a) x) :
    Supplied n (settle x) := h.map fun _ _ _ hlink => getD_alike hlink

theorem advances_some {x : Eval Value} (h : Supplied n x) :
    Advances n (fun k a => LinkGiven k a) (some <$> x) := h.map fun _ _ _ hv => .some hv

theorem advances_none : Advances n (fun k a => LinkGiven k a) (pure none) := .pure fun _ _ => .none

theorem Value.follow_append (v : Value) (path more : List String) :
    v.follow (path ++ more) = (v.follow path).bind fun u => u.follow more := by
  induction path generalizing v with
  | nil => rfl
  | cons name path ih =>
    rw [List.cons_append, follow, follow]
    split
    · rfl
    · cases v.member? name with
      | none => rfl
      | some u => exact ih u

/-- What is read of a value is at the end of a path of one field. -/
theorem yields_read (v : Value) (name : String) (span : Span) :
    Yields (fun _ : Nat => True) (fun u => v.follow [name] = some u) (v.read name span) := by
  rw [Value.read]
  refine Yields.ite (fun _ => .throw _) fun habsent => Yields.ite (fun _ => .throw _) fun hname => ?_
  rw [Value.member_eq, Value.follow_cons (Bool.eq_false_iff.mpr habsent) hname]
  cases v.member? name with
  | none => exact .throw _
  | some u => exact .pure rfl

/-- A chain comes to what is at the end of its path. -/
theorem yields_chain (call : Call) (s : Scope) {root : String} (e : Expr) :
    ∀ {path : List String}, e.chain? = some (root, path) → Yields (fun _ : Nat => True)
      (fun a => ∀ v, a = some v → Value.readAt (s.lookup root) path = some v) (e.link call s) := by
  have hstep : ∀ {before : List String} {field : String} {v : Value} (opt : Bool) (span : Span),
      Value.readAt (s.lookup root) before = some v → Yields (fun _ : Nat => True)
        (fun a => ∀ v, a = some v → Value.readAt (s.lookup root) (before ++ [field]) = some v)
        (if opt && v.isAbsent then return none else some <$> v.read field span) := by
    intro before field v opt span hv
    refine Yields.ite (fun _ => .pure nofun) fun _ => (yields_read v field span).map ?_
    rintro u hu _ ⟨⟩
    obtain ⟨start, hstart, hv⟩ := Option.bind_eq_some_iff.mp hv
    rw [hstart, Value.readAt, Option.bind_some, Value.follow_append, hv]
    exact hu
  induction e using Expr.chain?.induct with
  | case1 n span =>
    intro path hchain
    rw [Expr.chain?, Option.some.injEq, Prod.mk.injEq] at hchain
    obtain ⟨rfl, rfl⟩ := hchain
    rw [Expr.link]
    split
    · rename_i v hv
      refine .pure ?_
      rintro _ ⟨⟩
      rw [Value.readAt_nil, hv]
    · exact .fail _ _
  | case2 target field opt span ih =>
    intro path hchain
    rw [Expr.chain?] at hchain
    obtain ⟨⟨root', before⟩, htarget, hpath⟩ := Option.bind_eq_some_iff.mp hchain
    rw [Option.some.injEq, Prod.mk.injEq] at hpath
    obtain ⟨rfl, rfl⟩ := hpath
    rw [Expr.link]
    refine (ih htarget).bind fun a ha => ?_
    cases a with
    | none => exact .pure nofun
    | some v => exact hstep opt span (ha v rfl)
  | case3 target value place opt span ih =>
    intro path hchain
    rw [Expr.chain?] at hchain
    obtain ⟨field, hfield, hchain⟩ := Option.bind_eq_some_iff.mp hchain
    obtain ⟨⟨root', before⟩, htarget, hpath⟩ := Option.bind_eq_some_iff.mp hchain
    rw [Option.some.injEq, Prod.mk.injEq] at hpath
    obtain ⟨rfl, rfl⟩ := hpath
    rw [link_keyed]
    simp only [link_literal, pure_bind, fieldName_ofLiteral hfield]
    refine (ih htarget).bind fun a ha => ?_
    cases a with
    | none => exact .pure nofun
    | some v => exact hstep opt span (ha v rfl)
  | case4 e hname hmember hkeyed =>
    intro path hchain
    rw [Expr.chain?] at hchain
    · cases hchain
    · exact hname
    · exact hmember
    · exact hkeyed

/-! #### Links -/

section Links
variable {granted : String → List String → Prop} {known : List String} {s : Scope}

theorem ScopeGiven.later {k : Identity} (hk : n ≤ k) (h : ScopeGiven n granted known s) :
    ScopeGiven k granted known s := h.mono (Pairing.below_le hk)

/-- A chain from a known name, or along a granted path, comes to a value that was given out before. -/
theorem advances_confinedChain (hn : 0 < n) (call : Call) (h : ScopeGiven n granted known s) {e : Expr}
    {root : String} {path : List String} (hchain : e.chain? = some (root, path))
    (hc : root ∈ known ∨ granted root path) :
    Advances n (fun k a => LinkGiven k a) (e.link call s) := by
  have hgoes : Advances n (fun _ _ => True) (e.link call s) := .of_both hn fun σ hσ hself =>
    both_confinedChain hσ (h.mono (Pairing.below_self hself)) hchain hc
  refine (hgoes.and_yields (yields_chain call s e hchain)).imp fun k hk a ha => ?_
  cases a with
  | none => exact .none
  | some v =>
    have hmeet := h.lookup (Pairing.below_exact hn) hc
    have hv := ha.2 v rfl
    cases hroot : s.lookup root with
    | none =>
      rw [hroot] at hv
      cases hv
    | some w =>
      rw [hroot] at hmeet hv
      cases hmeet with
      | some hmeet => exact .some (Value.Given.later hk (hmeet.alike hv hv))

theorem advances_step {x : Eval (Option Value)} (hx : Advances n (fun k a => LinkGiven k a) x)
    (optional : Bool) {f : Value → Eval (Option Value)}
    (hf : ∀ k ≥ n, ∀ v : Value, v.Given k → Advances k (fun i a => LinkGiven i a) (f v)) :
    Advances n (fun k a => LinkGiven k a) (do
      match ← x with
      | none => return none
      | some v => if optional && v.isAbsent then return none else f v) := by
  refine hx.bind fun k hk a ha => ?_
  cases a with
  | none => exact advances_none
  | some v => exact .ite (fun _ => advances_none) fun _ => hf k hk v ha.value

section Calls
variable (hn : 0 < n) {call : Call} (hcall : Supplies.Calls call)
include hn hcall

theorem advances_invoke {f self : Value} (hf : f.Given n) (hself : self.Given n) (optional : Bool)
    (callee : Expr) (span : Span) {xs : Eval (List Value)}
    (hargs : Advances n (fun k vs => AllGiven k vs) xs) :
    Advances n (fun k a => LinkGiven k a) (do
      if ← callable f optional callee span then
        let values ← xs
        some <$> call f self values
      else return none) := by
  refine (advances_callable f optional callee span).next fun c => ?_
  refine .ite (fun _ => hargs.bind fun k hk vs hvs => ?_) fun _ => advances_none
  exact advances_some (hcall.supplied (Nat.lt_of_lt_of_le hn hk) (hf.later hk) (hself.later hk) hvs)

theorem advances_otherCall {callee : Expr} (hmember : ∀ t n o p, callee ≠ .member t n o p)
    (hkeyed : ∀ t k o p, callee ≠ .keyed t k o p) {args : List Expr}
    (hcallee : callee.Confined granted known →
      Advances n (fun k a => LinkGiven k a) (callee.link call s))
    (hargs : Expr.ListConfined granted known args →
      Advances n (fun k vs => AllGiven k vs) (Expr.values call s args))
    (optional : Bool) (span : Span)
    (hc : Expr.Confined granted known (.call callee args optional span)) :
    Advances n (fun k a => LinkGiven k a)
      (Expr.link call s (.call callee args optional span)) := by
  rw [confined_otherCall hmember hkeyed] at hc
  rw [link_otherCall hmember hkeyed]
  refine (hcallee hc.1).bind fun k hk a ha => ?_
  cases a with
  | none => exact advances_none
  | some f =>
    exact advances_invoke (Nat.lt_of_lt_of_le hn hk) hcall ha.value .undefined optional _ span
      ((hargs hc.2).later hk)

end Calls

end Links

section
variable {granted : String → List String → Prop} {call : Call} (hcall : Supplies.Calls call)
include hcall

set_option linter.unusedSectionVars false in
mutual

/-- What a confined expression comes to was given out by its end. -/
theorem advances_link {n : Identity} (hn : 0 < n) {known : List String} {s : Scope}
    (h : ScopeGiven n granted known s) : ∀ e : Expr, e.Confined granted known →
      Advances n (fun k a => LinkGiven k a) (e.link call s)
  | .literal v _, _ => by
    rw [Expr.link]
    exact .pure fun _ _ => .some (ofLiteral_alike v)
  | .template head parts _, hc => by
    rw [Expr.Confined] at hc
    rw [Expr.link]
    exact (advances_partTexts hn h parts hc).next fun _ => .pure fun _ _ => .some (.text _)
  | .name x span, hc => advances_confinedChain hn call h (e := .name x span) rfl hc
  | .member target name optional span, hc => by
    rw [Expr.Confined] at hc
    cases hchain : Expr.chain? (.member target name optional span) with
    | some p =>
      rw [hchain] at hc
      exact advances_confinedChain hn call h hchain hc
    | none =>
      rw [hchain] at hc
      rw [Expr.link]
      exact advances_step (advances_link hn h target hc) optional fun k hk v hv =>
        advances_some (supplied_read (Nat.lt_of_lt_of_le hn hk) hv name span)
  | .keyed target key optional span, hc => by
    rw [Expr.Confined] at hc
    cases hchain : Expr.chain? (.keyed target key optional span) with
    | some p =>
      rw [hchain] at hc
      exact advances_confinedChain hn call h hchain hc
    | none =>
      rw [hchain] at hc
      rw [link_keyed]
      refine advances_step (advances_link hn h target hc.1) optional fun k hk v hv => ?_
      refine ((supplied_settle (advances_link hn h key hc.2)).later hk).bind fun i hi w _ => ?_
      refine (advances_fieldName w _).next fun name => ?_
      exact advances_some (supplied_read (Nat.lt_of_lt_of_le hn (Nat.le_trans hk hi)) (hv.later hi)
        name span)
  | .call callee args optional span, hc => by
    have hcallee := advances_link hn h callee
    have hargs := advances_values hn h args
    cases callee with
    | member target name chained place =>
      rw [Expr.Confined] at hc
      rw [Expr.link]
      refine advances_step (advances_link hn h target hc.1) chained fun k hk v hv => ?_
      have hpos := Nat.lt_of_lt_of_le hn hk
      refine (supplied_read hpos hv name place).bind fun i hi f hf => ?_
      exact advances_invoke (Nat.lt_of_lt_of_le hpos hi) hcall hf (hv.later hi) optional _ span
        ((hargs hc.2).later (Nat.le_trans hk hi))
    | keyed target key chained place =>
      rw [Expr.Confined] at hc
      rw [Expr.link]
      refine advances_step (advances_link hn h target hc.1) chained fun k hk v hv => ?_
      refine ((supplied_settle (advances_link hn h key hc.2.1)).later hk).bind fun i hi w _ => ?_
      refine (advances_fieldName w _).next fun name => ?_
      have hpos := Nat.lt_of_lt_of_le hn (Nat.le_trans hk hi)
      refine (supplied_read hpos (hv.later hi) name place).bind fun j hj f hf => ?_
      exact advances_invoke (Nat.lt_of_lt_of_le hpos hj) hcall hf (hv.later (Nat.le_trans hi hj))
        optional _ span ((hargs hc.2.2).later (Nat.le_trans (Nat.le_trans hk hi) hj))
    | _ => exact advances_otherCall hn hcall (by simp) (by simp) hcallee hargs optional span hc
  | .unary op e _, hc => by
    rw [Expr.Confined] at hc
    rw [Expr.link]
    exact (supplied_settle (advances_link hn h e hc)).bind fun k hk v hv =>
      advances_some (supplied_unary (Nat.lt_of_lt_of_le hn hk) hcall op hv)
  | .binary op l r _, hc => by
    rw [Expr.Confined] at hc
    rw [Expr.link]
    refine (supplied_settle (advances_link hn h l hc.1)).bind fun k hk v hv => ?_
    refine .ite (fun _ => .pure fun i hi => .some (hv.later hi)) fun _ => ?_
    refine ((supplied_settle (advances_link hn h r hc.2)).later hk).bind fun i hi w hw => ?_
    exact advances_some
      (supplied_binary (Nat.lt_of_lt_of_le hn (Nat.le_trans hk hi)) hcall (hv.later hi) hw op)
  | .conditional c y z _, hc => by
    rw [Expr.Confined] at hc
    rw [Expr.link]
    refine (supplied_settle (advances_link hn h c hc.1)).bind fun k hk v _ => ?_
    exact .ite
      (fun _ => advances_some ((supplied_settle (advances_link hn h y hc.2.1)).later hk))
      fun _ => advances_some ((supplied_settle (advances_link hn h z hc.2.2)).later hk)
  | .array es _, hc => by
    rw [Expr.Confined] at hc
    rw [Expr.link]
    exact (advances_values hn h es hc).bind fun _ _ _ hvs => advances_some (.newList hvs)
  | .object fields _, hc => by
    rw [Expr.Confined] at hc
    rw [Expr.link]
    refine (advances_fieldValues hn h fields hc).bind fun k hk fs hfs => ?_
    have hrecord : Bindings.Given k _ :=
      BindingsAlike.empty.assignAll (Pairing.below_exact (Nat.lt_of_lt_of_le hn hk)) hfs
    refine Advances.freshId.bind fun i hi _ hid => .pure fun j hj => .some ?_
    exact (hrecord.later (Nat.le_trans hi hj)).record (Pairing.below_le hj _ _ hid)
  | .arrow params body _, hc => by
    rw [Expr.Confined] at hc
    rw [Expr.link]
    refine Advances.freshId.bind fun i hi _ hid => .pure fun j hj => .some ?_
    exact (h.later (Nat.le_trans hi hj)).closure (Pairing.below_le hj _ _ hid) hc.1 hc.2

theorem advances_values {n : Identity} (hn : 0 < n) {known : List String} {s : Scope}
    (h : ScopeGiven n granted known s) : ∀ es : List Expr, Expr.ListConfined granted known es →
      Advances n (fun k vs => AllGiven k vs) (Expr.values call s es)
  | [], _ => by
    rw [Expr.values]
    exact .pure fun _ _ => .nil
  | e :: rest, hc => by
    rw [Expr.ListConfined] at hc
    rw [Expr.values]
    refine (supplied_settle (advances_link hn h e hc.1)).bind fun k hk v hv => ?_
    exact ((advances_values hn h rest hc.2).later hk).bind fun i hi vs hvs =>
      .pure fun j hj => AllGiven.later hj (.cons (hv.later hi) hvs)

theorem advances_partTexts {n : Identity} (hn : 0 < n) {known : List String} {s : Scope}
    (h : ScopeGiven n granted known s) : ∀ parts : List (Expr × String),
      Expr.PartsConfined granted known parts →
        Advances n (fun _ _ => True) (Expr.partTexts call s parts)
  | [], _ => by
    rw [Expr.partTexts]
    exact .pure fun _ _ => trivial
  | (e, piece) :: rest, hc => by
    rw [Expr.PartsConfined] at hc
    rw [Expr.partTexts]
    refine (supplied_settle (advances_link hn h e hc.1)).bind fun k hk v hv => ?_
    refine (advances_toText (Nat.lt_of_lt_of_le hn hk) hcall hv).next fun _ => ?_
    exact ((advances_partTexts hn h rest hc.2).later hk).next fun _ => .pure fun _ _ => trivial

theorem advances_fieldValues {n : Identity} (hn : 0 < n) {known : List String} {s : Scope}
    (h : ScopeGiven n granted known s) : ∀ fields : List (String × Expr),
      Expr.FieldsConfined granted known fields →
        Advances n (fun k fs => NamesGiven k fs) (Expr.fieldValues call s fields)
  | [], _ => by
    rw [Expr.fieldValues]
    exact .pure fun _ _ => .nil
  | (name, e) :: rest, hc => by
    rw [Expr.FieldsConfined] at hc
    rw [Expr.fieldValues]
    refine (supplied_settle (advances_link hn h e hc.1)).bind fun k hk v hv => ?_
    exact ((advances_fieldValues hn h rest hc.2).later hk).bind fun i hi fs hfs =>
      .pure fun j hj => NamesGiven.later hj (.cons ⟨rfl, hv.later hi⟩ hfs)

/-- What a confined pattern binds was given out by its end. -/
theorem advances_bind {n : Identity} (hn : 0 < n) {known : List String} {s : Scope}
    (h : ScopeGiven n granted known s) : ∀ p : Pattern, p.Confined granted known → ∀ v : Value,
      v.Given n → BindAdvances n (p.bind call s v)
  | .name x _, _, v, hv => by
    rw [Pattern.bind]
    exact .set x hv
  | .fallback target default span, hc, v, hv => by
    rw [Pattern.Confined] at hc
    by_cases habsent : v = .undefined
    · subst habsent
      rw [Pattern.bind]
      refine .get fun k hk layer hlayer => ?_
      have hpos := Nat.lt_of_lt_of_le hn hk
      have hinner : ScopeGiven k granted (known ++ []) (s.extend layer) :=
        (h.later hk).extend hlayer fun _ hx => absurd hx List.not_mem_nil
      rw [List.append_nil] at hinner
      exact .eval (supplied_settle (advances_link hpos hinner default hc.1)) fun i hi w hw =>
        advances_bind (Nat.lt_of_lt_of_le hpos hi) (h.later (Nat.le_trans hk hi)) target hc.2 w hw
    · rw [bind_fallback_present call s target default span habsent]
      exact advances_bind hn h target hc.2 v hv
  | .array elements span, hc, v, hv => by
    rw [Pattern.Confined] at hc
    rw [Pattern.bind]
    split
    · exact .eval (advances_walk hn hcall hv) fun k hk vs hvs =>
        advances_bindItems (Nat.lt_of_lt_of_le hn hk) (h.later hk) elements hc vs hvs
    · exact .throw _
  | .object properties span, hc, v, hv => by
    rw [Pattern.Confined] at hc
    rw [Pattern.bind]
    split
    · exact advances_bindFields hn h properties hc v hv
    · exact .throw _

theorem advances_bindItems {n : Identity} (hn : 0 < n) {known : List String} {s : Scope}
    (h : ScopeGiven n granted known s) : ∀ elements : List (Option Pattern),
      Pattern.ElementsConfined granted known elements → ∀ vs : List Value, AllGiven n vs →
        BindAdvances n (Pattern.bindItems call s elements vs)
  | [], _, vs, _ => by
    rw [Pattern.bindItems]
    exact .pure
  | none :: rest, hc, vs, hvs => by
    rw [Pattern.ElementsConfined] at hc
    rw [Pattern.bindItems]
    exact advances_bindItems hn h rest hc _ (tail_alike hvs)
  | some p :: rest, hc, vs, hvs => by
    rw [Pattern.ElementsConfined] at hc
    rw [Pattern.bindItems]
    exact (advances_bind hn h p hc.1 _ (headD_alike hvs)).seq
      (advances_bindItems hn h rest hc.2 _ (tail_alike hvs))

theorem advances_bindFields {n : Identity} (hn : 0 < n) {known : List String} {s : Scope}
    (h : ScopeGiven n granted known s) : ∀ properties : List (String × Pattern),
      Pattern.PropertiesConfined granted known properties → ∀ v : Value, v.Given n →
        BindAdvances n (Pattern.bindFields call s properties v)
  | [], _, v, _ => by
    rw [Pattern.bindFields]
    exact .pure
  | (name, p) :: rest, hc, v, hv => by
    rw [Pattern.PropertiesConfined] at hc
    rw [Pattern.bindFields]
    refine .eval (supplied_member hn hv name) fun k hk u hu => ?_
    have hpos := Nat.lt_of_lt_of_le hn hk
    exact (advances_bind hpos (h.later hk) p hc.1 u hu).seq
      (advances_bindFields hpos (h.later hk) rest hc.2 v (hv.later hk))

end

theorem advances_bindAll {n : Identity} (hn : 0 < n) {known : List String} {s : Scope}
    (h : ScopeGiven n granted known s) (params : List Pattern)
    (hc : Pattern.AllConfined granted known params) {vs : List Value} (hvs : AllGiven n vs) :
    BindAdvances n (Pattern.bindAll call s params vs) := by
  induction params generalizing vs with
  | nil => exact .pure
  | cons p rest ih =>
    rw [Pattern.AllConfined] at hc
    exact (advances_bind hcall hn h p hc.1 _ (headD_alike hvs)).seq (ih hc.2 (tail_alike hvs))

/-! ### Calls -/

theorem supplied_closure {n : Identity} (hn : 0 < n) {i : Identity} {params : List Pattern}
    {body : Expr} {scope : Scope} (h : Value.Given n (.closure i params body scope)) (self : Value)
    {args : List Value} (hargs : AllGiven n args) :
    Supplied n (Value.callWith call (.closure i params body scope) self args) := by
  obtain ⟨j, scope', granted, known, hsame, hid, hscopes, hparams, hbody⟩ := h.closure_scopes
  cases hsame
  have hall : Advances n (fun _ ms => ∀ x ∈ Pattern.allNames params, x ∈ Assoc.keys ms)
      ((Pattern.bindAll call scope params args).names (params.any Pattern.makesFunction) []) :=
    .of_both_imp hn (fun σ hσ hself => both_boundNames hσ (both_bindAll hσ (hcall.steady hσ)
      (hscopes.mono (Pairing.below_self hself)).binds params hparams
      (hargs.imp fun _ _ hv => hv.mono (Pairing.below_self hself))) _ .nil) fun _ _ _ hms => hms.2
  have hnames := (advances_bindAll hcall hn hscopes params hparams hargs).names hn
    (params.any Pattern.makesFunction) .nil
  rw [Value.callWith]
  refine (hnames.and hall).bind fun k hk ms hms => ?_
  have hinner : ScopeGiven k granted (known ++ Pattern.allNames params)
      (scope.extend ⟨none, ms⟩) :=
    (ScopeGiven.later hk hscopes).extend ⟨.inl ⟨rfl, rfl⟩, hms.1⟩ fun x hx => ⟨rfl, hms.2 x hx⟩
  exact supplied_settle (advances_link hcall (Nat.lt_of_lt_of_le hn hk) hinner body hbody)

end

/-- The membership tests and the reads of collections. -/
theorem supplied_collectionMethod {n : Identity} {call : Call} (m : Method)
    (hm : m = .mapGet ∨ m = .mapHas ∨ m = .setHas) {self : Value} (hself : self.Given n)
    (args : List Value) : Supplied n (Value.callWith call (.method m) self args) := by
  rcases hm with rfl | rfl | rfl
  · cases self with
    | map i es =>
      rw [Value.callWith]
      refine .given ?_
      cases hfound : es.find? fun e => e.1.sameMember (argument args 0) with
      | none => exact .undefined
      | some e =>
        cases hself with
        | map _ hlength hkeys hvalues =>
          have hall := List.forall₂_same.mp (forall₂_of_zip
            (R := fun a b => Alike (.below n) a.1 b.1 ∧ Alike (.below n) a.2 b.2) hlength
            fun p hp => ⟨hkeys p hp, hvalues p hp⟩)
          exact (hall e (List.mem_of_find?_eq_some hfound)).2
    | _ => exact .throw _
  · cases self <;> first | exact .throw _ | exact .given (.flag _)
  · cases self <;> first | exact .throw _ | exact .given (.flag _)

theorem Supplies.Calls.callWith {call : Call} (hcall : Supplies.Calls call) :
    Supplies.Calls (Value.callWith call) where
  steady hσ := steady_callWith hσ (hcall.steady hσ)
  supplied {n f self args} hn hf hself hargs := by
    have hfirst : Value.Given n (argument args 0) := argument_alike hargs 0
    cases f with
    | closure => exact supplied_closure hcall hn hf self hargs
    | helper p =>
      cases p with
      | raw => exact supplied_raw hn hcall hfirst
      | assignsToAttributes => exact supplied_assignsToAttributes hn hcall hargs
      | renderSlot => exact .throw _
    | method m =>
      cases m with
      | text m => exact supplied_textMethod hn hcall m hself hargs
      | number m => exact supplied_numberMethod hn hcall m hargs
      | list m => exact supplied_listMethod hn hcall m hself hargs
      | conversion c => exact supplied_conversion hn hcall c hself
      | mapGet => exact supplied_collectionMethod _ (by simp) hself args
      | mapHas => exact supplied_collectionMethod _ (by simp) hself args
      | setHas => exact supplied_collectionMethod _ (by simp) hself args
      | holds =>
        rw [Value.callWith]
        exact (advances_toText hn hcall hfirst).next fun name =>
          .ite (fun _ => .throw _) fun _ => .given (.flag _)
      | unused owner name => exact .throw _
    | _ => exact .throw _

theorem supplies_callWithin (depth : Nat) : Supplies.Calls (Value.callWithin depth) := by
  induction depth with
  | zero => exact ⟨fun _ _ _ _ _ _ _ _ _ _ => .throw _, fun _ _ _ _ => .throw _⟩
  | succ depth ih => exact ih.callWith

theorem supplies_call : Supplies.Calls Value.call := supplies_callWithin Value.callDepth

/-! ### Scopes -/

/-- All that can be looked up in a scope was given out before. -/
abbrev Scope.Given (n : Identity) (s : Scope) : Prop := List.Forall₂ (LayerAlike (.below n)) s s

theorem Scope.Given.later {k : Identity} (hk : n ≤ k) {s : Scope} (h : s.Given n) : s.Given k :=
  h.imp fun _ _ hl => hl.mono (Pairing.below_le hk)

theorem Scope.Given.all {s : Scope} (h : s.Given n) : ScopeGiven n (fun _ _ => True) [] s :=
  ⟨s, s, [], [], (List.append_nil s).symm, (List.append_nil s).symm, .of_layers h⟩

theorem Frame.Before.given {f : Frame} (h : f.Before n) : f.scope.Given n :=
  layersAlike_refl (fun _ hi => ⟨rfl, hi⟩) f.scope h.scope

section
variable (hn : 0 < n) {s : Scope} (hs : s.Given n)
include hn hs

theorem Expr.supplied_eval (e : Expr) : Supplied n (e.eval s) :=
  supplied_settle (advances_link supplies_call hn hs.all e
    (Expr.confined_of_granted (fun _ _ => trivial) [] e))

theorem Pattern.advances_bindOver (p : Pattern) {v : Value} (hv : v.Given n)
    {names : List (String × Value)} (hnames : NamesGiven n names) :
    Advances n (fun k ns => NamesGiven k ns) (p.bindOver v s names) :=
  (advances_bind supplies_call hn hs.all p
    (Pattern.confined_of_granted (fun _ _ => trivial) [] p) v hv).names hn p.makesFunction hnames

end

end LiveTemplate
