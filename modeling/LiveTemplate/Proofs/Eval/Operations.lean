import LiveTemplate.Proofs.Eval.Lists

/-!
The operations of expressions on alike values: operators, walks over collections, records that are
made, and the helpers.
-/

namespace LiveTemplate

set_option autoImplicit false

variable {σ : Pairing}

/-! ### Records while they are made -/

structure BindingsAlike (σ : Pairing) (a b : Bindings) : Prop where
  parent : ParentAlike σ a.parent b.parent
  fields : NamesAlike σ a.fields b.fields

section Records
variable {fs gs : List (String × Value)} (h : NamesAlike σ fs gs) {v w : Value}
  (hvw : Alike σ v w)
include h hvw

theorem namesAlike_cons (name : String) : NamesAlike σ ((name, v) :: fs) ((name, w) :: gs) :=
  List.Forall₂.cons ⟨rfl, hvw⟩ h

theorem NamesAlike.append_one (name : String) :
    NamesAlike σ (fs ++ [(name, v)]) (gs ++ [(name, w)]) :=
  List.rel_append h (.cons ⟨rfl, hvw⟩ .nil)

theorem NamesAlike.set (name : String) :
    NamesAlike σ (Assoc.set fs name v) (Assoc.set gs name w) := by
  induction h with
  | nil => exact .cons ⟨rfl, hvw⟩ .nil
  | @cons a b as bs hab hrest ih =>
    obtain ⟨k, u⟩ := a
    obtain ⟨k', t⟩ := b
    obtain ⟨rfl, hut⟩ : k = k' ∧ Alike σ u t := hab
    rw [Assoc.set, Assoc.set]
    split
    · exact namesAlike_cons hrest hvw name
    · exact namesAlike_cons ih hut k

theorem NamesAlike.place (n : Nat) (name : String) :
    NamesAlike σ (Record.place fs n name v) (Record.place gs n name w) := by
  induction h with
  | nil => exact .cons ⟨rfl, hvw⟩ .nil
  | @cons a b as bs hab hrest ih =>
    obtain ⟨k, u⟩ := a
    obtain ⟨k', t⟩ := b
    obtain ⟨rfl, hut⟩ : k = k' ∧ Alike σ u t := hab
    have hbefore := namesAlike_cons (namesAlike_cons hrest hut k) hvw name
    simp only [Record.place]
    cases Record.index? k with
    | none => exact hbefore
    | some m =>
      dsimp only
      split
      · exact namesAlike_cons ih hut k
      · exact hbefore

theorem NamesAlike.insert (name : String) :
    NamesAlike σ (Record.insert fs name v) (Record.insert gs name w) := by
  rw [Record.insert, Record.insert, h.contains_eq]
  split
  · exact h.set hvw name
  · split
    · exact h.place hvw _ name
    · exact h.append_one hvw name

end Records

namespace BindingsAlike

theorem record {a b : Bindings} (h : BindingsAlike σ a b) {i j : Identity} (hid : σ i j) :
    Alike σ (a.record i) (b.record j) := .of_record hid h.parent h.fields

theorem empty : BindingsAlike σ {} {} := ⟨.plain, .nil⟩

variable (hσ : σ.Exact) {a b : Bindings} (h : BindingsAlike σ a b)
include hσ h

theorem assign (name : String) {v w : Value} (hvw : Alike σ v w) :
    BindingsAlike σ (a.assign name v) (b.assign name w) := by
  have hcompound := hvw.isCompound_eq
  have hparent : BindingsAlike σ (if v.isCompound then { a with parent := .value v } else a)
      (if w.isCompound then { b with parent := .value w } else b) := by
    rw [hcompound]
    split
    · exact ⟨.value hvw, h.fields⟩
    · exact h
  unfold Bindings.assign
  rw [(h.record hσ.shared).takesParent_eq]
  split
  · cases hvw with
    | null => exact ⟨.nothing, h.fields⟩
    | _ => exact hparent
  · exact ⟨h.parent, h.fields.insert hvw name⟩

theorem assignAll {fs gs : List (String × Value)} (hfields : NamesAlike σ fs gs) :
    BindingsAlike σ (a.assignAll fs) (b.assignAll gs) := by
  refine List.rel_foldl (P := BindingsAlike σ) ?_ h hfields
  rintro a b hab ⟨name, v⟩ ⟨name', w⟩ ⟨rfl, hvw⟩
  exact assign hσ hab name hvw

end BindingsAlike

theorem entries_alike {v w : Value} (h : Alike σ v w) : NamesAlike σ v.entries w.entries := by
  have hsame : ∀ fields : List (String × Value), (∀ e ∈ fields, e.2.Bare) →
      NamesAlike σ fields fields :=
    fun fields hall => List.forall₂_same.mpr fun e he => ⟨rfl, (hall e he).alike⟩
  cases h with
  | record hid hsort hparent hnames hall => exact forall₂_of_names hnames hall
  | list hid hlength hall =>
    refine List.rel_map ?_ (rel_zipIdx (forall₂_of_zip hlength hall) 0)
    rintro ⟨v, i⟩ ⟨w, j⟩ ⟨hvw, rfl⟩
    exact ⟨rfl, hvw⟩
  | text s =>
    refine hsame _ fun e he => ?_
    obtain ⟨p, -, rfl⟩ := List.mem_map.mp he
    exact .text _
  | html s hid =>
    refine hsame _ fun e he => ?_
    cases List.mem_singleton.mp he
    exact .text _
  | _ => exact .nil

/-! ### Collections -/

theorem isWalkable_alike {v w : Value} (h : Alike σ v w) : v.isWalkable = w.isWalkable := by
  have ho := h.origin
  unfold Value.isWalkable
  generalize v.origin = a at ho
  generalize w.origin = b at ho
  cases ho <;> rfl

theorem both_newPair {a b a' b' : Value} (ha : Alike σ a a') (hb : Alike σ b b') :
    Both σ (Alike σ) (Value.newPair a b) (Value.newPair a' b') :=
  .newList (.cons ha (.cons hb .nil))

theorem both_fieldName {v w : Value} (h : Alike σ v w) (span : Span) :
    Both σ Eq (v.fieldName span) (w.fieldName span) := by
  have hbad : Both σ Eq (Eval.fail (.badKey v.describe) span : Eval String)
      (Eval.fail (.badKey w.describe) span) := by
    rw [h.describe_eq]
    exact .fail _ _
  cases h with
  | text s => exact .pure rfl
  | number x => exact .pure rfl
  | _ => exact hbad

section
variable (hσ : σ.Exact) {call : Call} (hcall : Steady σ call)
include hσ hcall

theorem both_walk {v w : Value} (h : Alike σ v w) :
    Both σ (List.Forall₂ (Alike σ)) (v.walk call) (w.walk call) := by
  have ho := h.origin
  have hfilled : Both σ (List.Forall₂ (Alike σ)) (Value.filled <$> v.elements call)
      (Value.filled <$> w.elements call) :=
    (both_elements hσ hcall h).map fun _ _ hes => filled_alike hes
  unfold Value.walk
  cases h with
  | list hid hlength hall => exact .pure (forall₂_of_zip hlength hall)
  | set hid hlength hall => exact .pure (forall₂_of_zip hlength hall)
  | map hid hlength hkeys hvalues =>
    exact Both.mapM (forall₂_of_zip (R := fun a b => Alike σ a.1 b.1 ∧ Alike σ a.2 b.2) hlength
      fun p hp => ⟨hkeys p hp, hvalues p hp⟩) fun a b hab => both_newPair hab.1 hab.2
  | record hid hfields hparent =>
    dsimp only
    generalize Value.origin _ = a at ho
    generalize Value.origin _ = b at ho
    cases ho with
    | list hid hlength hall => exact hfilled
    | _ => exact .throw _
  | _ => exact .throw _

/-! ### Helpers -/

omit hσ hcall in
theorem markup?_alike {v w : Value} (h : Alike σ v w) : v.markup? = w.markup? := by
  have ho := h.origin
  have hhtml := h.lookup?_rel "html"
  unfold Value.markup?
  generalize v.origin = a at ho
  generalize w.origin = b at ho
  generalize v.lookup? "html" = c at hhtml
  generalize w.lookup? "html" = d at hhtml
  cases ho with
  | html s hid =>
    cases hhtml with
    | none => rfl
    | some hut => exact congrArg some hut.plainText_eq
  | _ => rfl

theorem both_raw {v w : Value} (h : Alike σ v w) :
    Both σ (Alike σ) (v.raw call) (w.raw call) := by
  have hmade : ∀ s : String, Both σ (Alike σ)
      (do
        let id ← freshId
        return Value.html id s)
      (do
        let id ← freshId
        return Value.html id s) := fun s => Both.freshId.bind fun i j hid => .pure (.html s hid)
  unfold Value.raw
  rw [markup?_alike h]
  refine Both.ite rfl (fun _ => .pure h) fun _ => ?_
  exact Both.ite_bind (R := Eq) h.isAbsent_eq (fun _ => .pure rfl)
    (fun _ => both_toText hσ hcall h) fun s s' hs => hs ▸ hmade s

theorem both_tells {v w : Value} (h : Alike σ v w) (name : String) :
    Both σ Eq (v.tells call name) (w.tells call name) := by
  have hasked : Both σ Eq
      (do
        let f ← v.member "includes"
        if f.isFunction then return (← call f v [.text name]).truthy else throw .badOperand)
      (do
        let f ← w.member "includes"
        if f.isFunction then return (← call f w [.text name]).truthy else throw .badOperand) := by
    refine (both_member hσ h "includes").bind fun f g hfg => ?_
    refine Both.ite hfg.isFunction_eq (fun _ => ?_) fun _ => .throw _
    exact (hcall hfg h (.cons (.text name) .nil)).bind fun u t hut => .pure hut.truthy_eq
  unfold Value.tells
  refine Both.ite h.isAbsent_eq (fun _ => ?_) fun _ => hasked
  exact Both.bind (R := fun _ _ => False) (.throw _) fun _ _ h => h.elim

omit hcall in
theorem both_attributesOf {excluded excluded' : String → Eval Bool}
    (hexcluded : ∀ name, Both σ Eq (excluded name) (excluded' name))
    {fs gs : List (String × Value)} (h : NamesAlike σ fs gs) :
    Both σ (BindingsAlike σ) (attributesOf excluded fs) (attributesOf excluded' gs) := by
  unfold attributesOf
  refine (Both.filterM h ?_).bind fun kept kept' hkept =>
    .pure (BindingsAlike.empty.assignAll hσ hkept)
  rintro ⟨name, v⟩ ⟨name', w⟩ ⟨rfl, -⟩
  dsimp only
  split
  · exact .pure rfl
  · exact (hexcluded name).bind fun b b' hb => .pure (by rw [hb])

theorem both_assignsToAttributes {args args' : List Value}
    (hargs : List.Forall₂ (Alike σ) args args') :
    Both σ (Alike σ) (assignsToAttributes call args) (assignsToAttributes call args') := by
  have hassigns := argument_alike hargs 0
  have hnames := argument_alike hargs 1
  unfold assignsToAttributes
  refine Both.ite hassigns.isAbsent_eq (fun _ => ?_) fun _ => ?_
  · exact Both.bind (R := fun _ _ => False) (.throw _) fun _ _ h => h.elim
  · refine (both_attributesOf hσ (fun name => ?_) (entries_alike hassigns)).bind
      fun made made' hmade => Both.freshId.bind fun i j hid => .pure (hmade.record hid)
    have htells := both_tells hσ hcall hnames name
    generalize argument args 1 = a at hnames htells
    generalize argument args' 1 = b at hnames htells
    cases hnames with
    | undefined => exact .pure rfl
    | _ => exact htells

/-! ### Operators -/

theorem both_unary (op : UnaryOp) {v w : Value} (h : Alike σ v w) :
    Both σ (Alike σ) (op.apply call v) (op.apply call w) := by
  have hnumber := both_toNumber hσ hcall h
  cases op with
  | not => exact .pure (h.truthy_eq ▸ .flag _)
  | negate => exact hnumber.bind fun x y hxy => .pure (hxy ▸ .number _)
  | plus => exact hnumber.bind fun x y hxy => .pure (hxy ▸ .number _)
  | typeof => exact .pure (h.typeName_eq ▸ .text _)

section Operands
variable {a b a' b' : Value} (ha : Alike σ a a') (hb : Alike σ b b')
include ha hb

theorem both_arithmetic (f : Float → Float → Float) :
    Both σ (Alike σ) (arithmetic call f a b) (arithmetic call f a' b') := by
  refine (both_toNumber hσ hcall ha).bind fun x x' hx => ?_
  refine (both_toNumber hσ hcall hb).bind fun y y' hy => ?_
  subst hx hy
  exact .pure (.number _)

theorem both_comparison (f : Float → Bool) :
    Both σ (Alike σ) (comparison call f a b) (comparison call f a' b') :=
  (both_difference hσ hcall ha hb).bind fun _ _ hxy => .pure (hxy ▸ .flag _)

theorem both_addition : Both σ (Alike σ) (addition call a b) (addition call a' b') := by
  have hnumbers := both_arithmetic hσ hcall ha hb (· + ·)
  have hleft := both_toText hσ hcall ha
  have hright := both_toText hσ hcall hb
  have hjoinLeft : ∀ s : String, Both σ (Alike σ) (do return .text (s ++ (← b.toText call)))
      (do return .text (s ++ (← b'.toText call))) :=
    fun s => hright.bind fun t t' ht => .pure (ht ▸ .text _)
  have hjoinRight : ∀ t : String, Both σ (Alike σ) (do return .text ((← a.toText call) ++ t))
      (do return .text ((← a'.toText call) ++ t)) :=
    fun t => hleft.bind fun s s' hs => .pure (hs ▸ .text _)
  cases ha with
  | text s => exact hjoinLeft s
  | _ =>
    cases hb with
    | text t => exact hjoinRight t
    | _ => exact hnumbers

theorem both_binary (op : BinaryOp) :
    Both σ (Alike σ) (op.apply call a b) (op.apply call a' b') := by
  cases op with
  | strictEq | strictNe =>
    refine .pure ?_
    rw [Value.strictEq, sameBy_alike hσ ha hb]
    exact .flag _
  | looseEq => exact (both_looseEq hσ hcall ha hb).bind fun x y hxy => .pure (hxy ▸ .flag _)
  | looseNe => exact (both_looseEq hσ hcall ha hb).bind fun x y hxy => .pure (hxy ▸ .flag _)
  | less | lessEq | greater | greaterEq => exact both_comparison hσ hcall ha hb _
  | add => exact both_addition hσ hcall ha hb
  | sub | mul | div | rem => exact both_arithmetic hσ hcall ha hb _
  | coalesce =>
    refine .pure ?_
    rw [ha.isAbsent_eq]
    split <;> assumption
  | or =>
    refine .pure ?_
    rw [ha.truthy_eq]
    split <;> assumption
  | and =>
    refine .pure ?_
    rw [ha.truthy_eq]
    split <;> assumption

end Operands

omit hσ hcall in
theorem decided_alike (op : BinaryOp) {v w : Value} (h : Alike σ v w) :
    op.decided v = op.decided w := by
  cases op <;> simp only [BinaryOp.decided, h.isAbsent_eq, h.truthy_eq]

omit hσ hcall in
theorem both_callable {f g : Value} (h : Alike σ f g) (optional : Bool) (callee : Expr)
    (span : Span) : Both σ Eq (callable f optional callee span) (callable g optional callee span) := by
  have hother : Both σ Eq
      (if f.isFunction then return true else Eval.fail (.notCallable callee.calleeName) span)
      (if g.isFunction then return true else Eval.fail (.notCallable callee.calleeName) span) :=
    Both.ite h.isFunction_eq (fun _ => .pure rfl) fun _ => .fail _ _
  unfold callable
  refine Both.ite (by rw [h.isAbsent_eq]) (fun _ => .pure rfl) fun _ => ?_
  cases h with
  | helper f =>
    cases f with
    | renderSlot => exact .fail _ _
    | raw | assignsToAttributes => exact .pure rfl
  | _ => exact hother

end

end LiveTemplate
