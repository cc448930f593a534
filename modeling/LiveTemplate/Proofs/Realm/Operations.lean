import LiveTemplate.Eval
import LiveTemplate.Proofs.Realm.Lists

/-!
The operations of expressions on values within a realm: operators, walks over collections, records
that are made, and the helpers.
-/

namespace LiveTemplate

set_option autoImplicit false

/-! ### Fields that are set -/

section
variable {α : Type} {fields : List (String × α)} {name : String} {value : α} {f : String × α}

theorem mem_of_mem_set (h : f ∈ Assoc.set fields name value) : f = (name, value) ∨ f ∈ fields := by
  induction fields with
  | nil => exact .inl (List.mem_singleton.mp h)
  | cons first rest ih =>
    rw [Assoc.set] at h
    split at h
    · exact (List.mem_cons.mp h).imp_right (List.mem_cons_of_mem _)
    · rcases List.mem_cons.mp h with h | h
      · exact .inr (h ▸ List.mem_cons_self)
      · exact (ih h).imp_right (List.mem_cons_of_mem _)

theorem mem_of_mem_place {n : Nat} (h : f ∈ Record.place fields n name value) :
    f = (name, value) ∨ f ∈ fields := by
  induction fields with
  | nil => exact .inl (List.mem_singleton.mp h)
  | cons first rest ih =>
    have hbefore : f ∈ (name, value) :: first :: rest → f = (name, value) ∨ f ∈ first :: rest :=
      List.mem_cons.mp
    simp only [Record.place] at h
    split at h
    · split at h
      · rcases List.mem_cons.mp h with h | h
        · exact .inr (h ▸ List.mem_cons_self)
        · exact (ih h).imp_right (List.mem_cons_of_mem _)
      · exact hbefore h
    · exact hbefore h

theorem mem_of_mem_insert (h : f ∈ Record.insert fields name value) :
    f = (name, value) ∨ f ∈ fields := by
  rw [Record.insert] at h
  split at h
  · exact mem_of_mem_set h
  · split at h
    · exact mem_of_mem_place h
    · exact (List.mem_append.mp h).symm.imp_left List.mem_singleton.mp

end

variable {R : Realm}

theorem fieldWithin {name : String} {v : Value} (hname : R.keys name) (hv : v.Within R .itself) :
    FieldWithin R (name, v) := ⟨hname, fun _ => hv, fun _ => hv.inherited⟩

theorem FieldsWithin.insert {fields : List (String × Value)} (h : FieldsWithin R fields)
    {f : String × Value} (hf : FieldWithin R f) :
    FieldsWithin R (Record.insert fields f.1 f.2) := by
  intro g hg
  rcases mem_of_mem_insert hg with rfl | hg
  · exact hf
  · exact h g hg

/-- A record while it is made. -/
structure Bindings.Within (R : Realm) (b : Bindings) : Prop where
  parent : ∀ v, b.parent = .value v → v.Within R .parent
  fields : FieldsWithin R b.fields

namespace Bindings.Within

theorem empty : ({} : Bindings).Within R := ⟨nofun, nofun⟩

variable {b : Bindings} (h : b.Within R)
include h

theorem record {id : Identity} (hid : R.ids id) : (b.record id).Within R .itself :=
  Value.within_record (fun _ => hid) h.parent h.fields

theorem assign {f : String × Value} (hf : FieldWithin R f) : (b.assign f.1 f.2).Within R := by
  have hparent : f.1 = parentName →
      (if f.2.isCompound then { b with parent := .value f.2 } else b).Within R := by
    intro hname
    split
    · exact ⟨fun v hv => Parent.value.inj hv ▸ hf.heir hname, h.fields⟩
    · exact h
  unfold Bindings.assign
  split
  · rename_i hname
    split
    · exact ⟨nofun, h.fields⟩
    · exact hparent hname.1
  · exact ⟨h.parent, h.fields.insert hf⟩

theorem assignAll {fields : List (String × Value)} (hfields : FieldsWithin R fields) :
    (b.assignAll fields).Within R := by
  induction fields generalizing b with
  | nil => exact h
  | cons f rest ih =>
    rw [FieldsWithin, List.forall_mem_cons] at hfields
    exact ih (h.assign hfields.1) hfields.2

end Bindings.Within

theorem within_entries {v : Value} (h : v.Within R .itself) : FieldsWithin R v.entries := by
  cases v with
  | record i parent fields => exact h.fields
  | list i items =>
    cases h with
    | list _ hall =>
      exact List.forall_mem_map.mpr fun item hitem =>
        fieldWithin (R.keys_index item.2) (hall _ (List.fst_mem_of_mem_zipIdx hitem))
  | text s =>
    exact List.forall_mem_map.mpr fun item _ => fieldWithin (R.keys_index item.2) (.text _)
  | html i s =>
    exact List.forall_mem_singleton.mpr (fieldWithin R.keys_markup (.text _))
  | _ => exact nofun

theorem Value.Within.fields? {v : Value} (h : v.Within R .itself) {fields : Record Value}
    (hfields : v.fields? = some fields) : FieldsWithin R fields := by
  cases v with
  | record i parent held =>
    rw [Value.fields?] at hfields
    split at hfields
    · cases hfields
      exact h.fields
    · cases hfields
  | _ => cases hfields

/-! ### Collections -/

theorem yields_newPair {a b : Value} (ha : a.Within R .itself) (hb : b.Within R .itself) :
    Yields R.Supply (Value.Within R .itself) (Value.newPair a b) :=
  yields_newList (List.forall_mem_cons.mpr ⟨ha, List.forall_mem_cons.mpr ⟨hb, allWithin_nil R⟩⟩)

theorem yields_fieldName (v : Value) (span : Span) :
    Yields R.Supply (fun _ => True) (v.fieldName span) := by
  cases v <;> first | exact .pure trivial | exact .fail _ _

theorem yields_callable (f : Value) (optional : Bool) (callee : Expr) (span : Span) :
    Yields R.Supply (fun _ => True) (callable f optional callee span) := by
  refine Yields.ite (fun _ => .pure trivial) fun _ => ?_
  split
  · exact .fail _ _
  · exact Yields.ite (fun _ => .pure trivial) fun _ => .fail _ _

variable {call : Call} (hcall : call.Within R)
include hcall

theorem yields_walk {v : Value} (h : v.Within R .itself) :
    Yields R.Supply (AllWithin R) (v.walk call) := by
  have hfilled : Yields R.Supply (AllWithin R) (do return Value.filled (← v.elements call)) :=
    (yields_elements hcall h).bind fun _ hes => .pure (within_filled hes)
  unfold Value.walk
  cases h with
  | list _ hall => exact .pure hall
  | set _ hall => exact .pure hall
  | map _ hkeys hvalues =>
    exact Yields.mapM (P := fun e : Value × Value => e.1.Within R .itself ∧ e.2.Within R .itself)
      (fun e he => ⟨hkeys e he, hvalues e he⟩) fun e he => yields_newPair he.1 he.2
  | _ =>
    dsimp only
    split
    · exact hfilled
    · exact .throw _

/-- The items of a loop, where no field is kept from the templates. -/
theorem Value.Within.items (hreads : ∀ name, R.Reads name) {v : Value} (h : v.Within R .itself)
    (span : Span) : Yields R.Supply (AllWithin R) (v.items call span) := by
  unfold Value.items
  apply Yields.ite
  · exact fun _ => .pure (allWithin_nil R)
  intro _
  apply Yields.ite
  · exact fun _ => yields_walk hcall h
  intro _
  split
  · rename_i fields hfields
    refine Yields.mapM (h.fields? hfields) fun f hf => ?_
    exact yields_newPair (.text f.1) (hf.value (hreads f.1))
  · exact .fail _ _

/-! ### Helpers -/

/-- A text is marked as markup where markup may be met. -/
theorem yields_raw (hmarkup : R.markup) {v : Value} (h : v.Within R .itself) :
    Yields R.Supply (Value.Within R .itself) (v.raw call) := by
  unfold Value.raw
  refine Yields.ite (fun _ => .pure h) fun _ => ?_
  refine Yields.ite_bind (P := fun _ => True) (fun _ => .pure trivial)
    (fun _ => h.toText hcall) fun s _ => ?_
  exact Yields.freshId.bind fun _ hid => .pure (.html s (fun _ => hid) hmarkup)

theorem yields_tells {v : Value} (h : v.Within R .itself) (name : String) :
    Yields R.Supply (fun _ => True) (v.tells call name) := by
  have hasked : Yields R.Supply (fun _ => True) (do
      let f ← v.member "includes"
      if f.isFunction then return (← call f v [.text name]).truthy else throw .badOperand) := by
    refine (h.member (Realm.reads_of_not_mem (by decide))).bind fun f hf => ?_
    refine Yields.ite (fun _ => ?_) fun _ => .throw _
    exact (hcall hf h (List.forall_mem_singleton.mpr (.text name))).bind fun _ _ => .pure trivial
  unfold Value.tells
  refine Yields.ite (fun _ => ?_) fun _ => hasked
  exact Yields.bind (P := fun _ => False) (.throw _) fun _ h => h.elim

omit hcall in
theorem yields_attributesOf {excluded : String → Eval Bool}
    (hexcluded : ∀ name, Yields R.Supply (fun _ => True) (excluded name))
    {fields : List (String × Value)} (h : FieldsWithin R fields) :
    Yields R.Supply (Bindings.Within R) (attributesOf excluded fields) := by
  unfold attributesOf
  refine (Yields.filterM h fun f _ => ?_).bind fun kept hkept => .pure (.assignAll .empty hkept)
  exact Yields.ite (fun _ => .pure trivial) fun _ => (hexcluded f.1).bind fun _ _ => .pure trivial

theorem yields_assignsToAttributes {args : List Value} (hargs : AllWithin R args) :
    Yields R.Supply (Value.Within R .itself) (assignsToAttributes call args) := by
  have hassigns := within_argument hargs 0
  have hnames := within_argument hargs 1
  unfold assignsToAttributes
  refine Yields.ite (fun _ => ?_) fun _ => ?_
  · exact Yields.bind (P := fun _ => False) (.throw _) fun _ h => h.elim
  · refine (yields_attributesOf (fun name => ?_) (within_entries hassigns)).bind fun made hmade =>
      Yields.freshId.bind fun _ hid => .pure (hmade.record hid)
    split
    · exact .pure trivial
    · exact yields_tells hcall hnames name

/-! ### Operators -/

theorem yields_unary (op : UnaryOp) {v : Value} (h : v.Within R .itself) :
    Yields R.Supply (Value.Within R .itself) (op.apply call v) := by
  have hnumber := h.toNumber hcall
  cases op with
  | not => exact .pure (.flag _)
  | negate => exact hnumber.bind fun _ _ => .pure (.number _)
  | plus => exact hnumber.bind fun _ _ => .pure (.number _)
  | typeof => exact .pure (.text _)

section Operands
variable {a b : Value} (ha : a.Within R .itself) (hb : b.Within R .itself)
include ha hb

theorem yields_arithmetic (f : Float → Float → Float) :
    Yields R.Supply (Value.Within R .itself) (arithmetic call f a b) :=
  (ha.toNumber hcall).bind fun _ _ => (hb.toNumber hcall).bind fun _ _ => .pure (.number _)

theorem yields_comparison (f : Float → Bool) :
    Yields R.Supply (Value.Within R .itself) (comparison call f a b) :=
  (Value.yields_difference hcall ha hb).bind fun _ _ => .pure (.flag _)

theorem yields_addition : Yields R.Supply (Value.Within R .itself) (addition call a b) := by
  have hnumbers := yields_arithmetic hcall ha hb (· + ·)
  have hleft := ha.toText hcall
  have hright := hb.toText hcall
  unfold addition
  split
  · exact hright.bind fun _ _ => .pure (.text _)
  · exact hleft.bind fun _ _ => .pure (.text _)
  · exact hnumbers

theorem yields_binary (op : BinaryOp) :
    Yields R.Supply (Value.Within R .itself) (op.apply call a b) := by
  cases op with
  | strictEq | strictNe => exact .pure (.flag _)
  | looseEq | looseNe => exact (Value.yields_looseEq hcall ha hb).bind fun _ _ => .pure (.flag _)
  | less | lessEq | greater | greaterEq => exact yields_comparison hcall ha hb _
  | add => exact yields_addition hcall ha hb
  | sub | mul | div | rem => exact yields_arithmetic hcall ha hb _
  | coalesce | or | and =>
    refine .pure ?_
    split <;> assumption

end Operands

end LiveTemplate
