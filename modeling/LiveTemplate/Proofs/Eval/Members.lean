import LiveTemplate.Proofs.Eval.Rebinding
import LiveTemplate.Value.Sameness

/-!
Alike values answer alike: tests and texts of them are equal, and their members, parents and fields
are alike again.
-/

namespace LiveTemplate

set_option autoImplicit false

section Names
variable {σ : Pairing} {fs gs : List (String × Value)} (h : NamesAlike σ fs gs)
include h

theorem NamesAlike.get? (x : String) :
    Option.Rel (Alike σ) (Assoc.get? fs x) (Assoc.get? gs x) := by
  induction h with
  | nil => exact .none
  | @cons a b as bs hab _ ih =>
    obtain ⟨name, v⟩ := a
    obtain ⟨name', w⟩ := b
    obtain ⟨rfl, hvw⟩ := hab
    rw [Assoc.get?, Assoc.get?]
    split
    · exact .some hvw
    · exact ih

theorem NamesAlike.contains_eq (x : String) : Assoc.contains fs x = Assoc.contains gs x :=
  isSome_eq_of_rel (h.get? x)

end Names

theorem getD_alike {σ : Pairing} {a b : Option Value} (h : Option.Rel (Alike σ) a b) :
    Alike σ (a.getD .undefined) (b.getD .undefined) := by
  cases h with
  | none => exact .undefined
  | some h => exact h

theorem or_alike {σ : Pairing} {a b c d : Option Value} (hab : Option.Rel (Alike σ) a b)
    (hcd : Option.Rel (Alike σ) c d) : Option.Rel (Alike σ) (a.or c) (b.or d) := by
  cases hab with
  | none => exact hcd
  | some h => exact .some h

theorem getElem?_alike {σ : Pairing} {xs ys : List Value} (h : List.Forall₂ (Alike σ) xs ys)
    (n : Nat) : Option.Rel (Alike σ) xs[n]? ys[n]? := by
  induction h generalizing n with
  | nil => exact .none
  | cons hxy _ ih =>
    cases n with
    | zero => exact .some hxy
    | succ n => exact ih n

theorem Value.bare_of_own? {v : Value} {name : String} (hlist : ∀ i items, v ≠ .list i items)
    (hrecord : ∀ i p fields, v ≠ .record i p fields) {u : Value} (h : v.own? name = some u) :
    u.Bare := by
  cases v with
  | record i p fields => exact (hrecord _ _ _ rfl).elim
  | list i items => exact (hlist _ _ rfl).elim
  | html i markup =>
    simp only [own?] at h
    split at h
    · cases h
      exact .text _
    · cases h
  | text s =>
    simp only [own?] at h
    split at h
    · cases h
      exact .number _
    · cases hn : Record.index? name with
      | none =>
        rw [hn] at h
        cases h
      | some n =>
        rw [hn] at h
        simp only [unitAt?] at h
        split at h
        · cases h
          exact .text _
        · cases h
  | _ =>
    simp only [own?] at h
    split at h
    · obtain ⟨n, -, rfl⟩ := Option.map_eq_some_iff.mp h
      exact .number _
    · cases h

theorem Value.Bare.alike {σ : Pairing} {u : Value} (h : u.Bare) : Alike σ u u := by
  cases h with
  | number x => exact .number x
  | text s => exact .text s
  | method m => exact .method m

namespace Alike

/-- Induction along the lines of parents of two alike values. -/
theorem parent_induction {σ : Pairing} {motive : Value → Value → Prop}
    (value : ∀ {i j v w fs gs}, σ i j → Alike σ v w → motive v w → NamesAlike σ fs gs →
      motive (.record i (.value v) fs) (.record j (.value w) gs))
    (plain : ∀ {i j fs gs}, σ i j → NamesAlike σ fs gs →
      motive (.record i .plain fs) (.record j .plain gs))
    (nothing : ∀ {i j fs gs}, σ i j → NamesAlike σ fs gs →
      motive (.record i .nothing fs) (.record j .nothing gs))
    (other : ∀ {v w}, Alike σ v w → (∀ i p fields, v ≠ .record i p fields) →
      (∀ i p fields, w ≠ .record i p fields) → motive v w) {v w : Value} (h : Alike σ v w) :
    motive v w := by
  induction v using Value.origin.induct generalizing w with
  | case1 i u fs ih =>
    obtain ⟨j, q, gs, rfl, hid, hparent, hfields⟩ := h.record_inv
    cases hparent with
    | value hu => exact value hid hu (ih hu) hfields
  | case2 v hv =>
    cases v with
    | record i p fs =>
      obtain ⟨j, q, gs, rfl, hid, hparent, hfields⟩ := h.record_inv
      cases hparent with
      | plain => exact plain hid hfields
      | nothing => exact nothing hid hfields
      | value hu => exact (hv _ _ _ rfl).elim
    | _ =>
      refine other h (fun _ _ _ he => by cases he) fun _ _ _ he => ?_
      subst he
      cases h

variable {σ : Pairing} {v w : Value} (h : Alike σ v w)
include h

theorem isAbsent_eq : v.isAbsent = w.isAbsent := by cases h <;> rfl

theorem eq_of_isAbsent (hv : v.isAbsent = true) : v = w := by
  cases h <;> first | rfl | cases hv

theorem truthy_eq : v.truthy = w.truthy := by cases h <;> rfl

theorem isFunction_eq : v.isFunction = w.isFunction := by cases h <;> rfl

theorem plainText_eq : v.plainText = w.plainText := by cases h <;> rfl

theorem plainNumber_eq : v.plainNumber = w.plainNumber := by cases h <;> rfl

theorem typeName_eq : v.typeName = w.typeName := by cases h <;> rfl

theorem isSized_eq : v.isSized = w.isSized := by cases h <;> rfl

theorem identity?_rel : Option.Rel σ v.identity? w.identity? := by
  cases h <;> first | exact .none | exact .some ‹_›

theorem isCompound_eq : v.isCompound = w.isCompound := by
  rw [Value.isCompound, Value.isCompound, h.isFunction_eq, isSome_eq_of_rel h.identity?_rel]

theorem isStructured_eq : v.isStructured = w.isStructured := by
  rw [Value.isStructured, Value.isStructured, h.isFunction_eq, isSome_eq_of_rel h.identity?_rel]

theorem origin : Alike σ v.origin w.origin := by
  refine parent_induction (motive := fun v w => Alike σ v.origin w.origin) ?value ?plain ?nothing
    ?other h
  case value => exact fun _ _ ih _ => ih
  case plain => exact fun hid hfields => .of_record hid .plain hfields
  case nothing => exact fun hid hfields => .of_record hid .nothing hfields
  case other =>
    intro v w h hv hw
    rw [Value.origin_other hv, Value.origin_other hw]
    exact h

theorem fields?_rel : Option.Rel (NamesAlike σ) v.fields? w.fields? := by
  cases h with
  | record hid hsort hparent hnames hall =>
    have hfields := forall₂_of_names hnames hall
    cases hsort with
    | plain => exact .some hfields
    | nothing => exact .some hfields
    | value v w => exact .none
  | _ => exact .none

theorem kindName_eq : v.kindName = w.kindName := by
  have ho := h.origin
  cases h with
  | record hid hsort hparent hnames hall =>
    simp only [Value.kindName]
    generalize (Value.record _ _ _).origin = a at ho
    generalize (Value.record _ _ _).origin = b at ho
    cases ho <;> rfl
  | _ => rfl

theorem describe_eq : v.describe = w.describe := by
  have hfields := isSome_eq_of_rel h.fields?_rel
  have hcompound := h.isCompound_eq
  have hkind := h.kindName_eq
  have htext := h.plainText_eq
  cases h <;> first | rfl | simp only [Value.describe, hfields, hcompound, hkind, htext]

theorem takesParent_eq : v.takesParent = w.takesParent := by
  refine parent_induction (motive := fun v w => v.takesParent = w.takesParent) ?value ?plain
    ?nothing ?other h
  case value =>
    intro i j v w fs gs _ _ ih hfields
    rw [Value.takesParent, Value.takesParent, hfields.contains_eq, ih]
  case plain | nothing =>
    intro i j fs gs _ hfields
    rw [Value.takesParent, Value.takesParent, hfields.contains_eq]
  case other =>
    intro v w _ hv hw
    rw [Value.takesParent_other hv, Value.takesParent_other hw]

theorem borrowsSize_eq : v.borrowsSize = w.borrowsSize := by
  refine parent_induction (motive := fun v w => v.borrowsSize = w.borrowsSize) ?value ?plain
    ?nothing ?other h
  case value =>
    intro i j v w fs gs _ h ih hfields
    rw [Value.borrowsSize_under, Value.borrowsSize_under, hfields.contains_eq, h.isSized_eq, ih]
  case plain | nothing => exact fun _ _ => rfl
  case other =>
    intro v w _ hv hw
    rw [Value.borrowsSize_other hv, Value.borrowsSize_other hw]

theorem kindMember?_eq (name : String) : v.kindMember? name = w.kindMember? name := by
  cases h with
  | map hid hlength hkeys hvalues => simp only [Value.kindMember?, hlength]
  | set hid hlength hall => simp only [Value.kindMember?, hlength]
  | _ => rfl

theorem kindMember?_rel (name : String) :
    Option.Rel (Alike σ) (v.kindMember? name) (w.kindMember? name) := by
  rw [← h.kindMember?_eq]
  cases hu : v.kindMember? name with
  | none => exact .none
  | some u => exact .some (Value.bare_of_kindMember? hu).alike

theorem own?_rel (name : String) : Option.Rel (Alike σ) (v.own? name) (w.own? name) := by
  have hbare : ∀ u : Value, (∀ i items, u ≠ .list i items) → (∀ i p fields, u ≠ .record i p fields) →
      Option.Rel (Alike σ) (u.own? name) (u.own? name) := by
    intro u hlist hrecord
    cases hu : u.own? name with
    | none => exact .none
    | some t => exact .some (Value.bare_of_own? hlist hrecord hu).alike
  cases h with
  | list hid hlength hall =>
    simp only [Value.own?, Value.length?, hlength]
    split
    · exact .some (.number _)
    · cases Record.index? name with
      | none => exact .none
      | some n => exact getElem?_alike (forall₂_of_zip hlength hall) n
  | record hid hsort hparent hnames hall => exact NamesAlike.get? (forall₂_of_names hnames hall) name
  | _ => exact hbare _ (fun _ _ he => by cases he) fun _ _ _ he => by cases he

theorem lookup?_rel (name : String) :
    Option.Rel (Alike σ) (v.lookup? name) (w.lookup? name) := by
  refine parent_induction
    (motive := fun v w => Option.Rel (Alike σ) (v.lookup? name) (w.lookup? name)) ?value ?plain
    ?nothing ?other h
  case value =>
    intro i j v w fs gs _ _ ih hfields
    rw [Value.lookup?_record, Value.lookup?_record]
    exact or_alike (hfields.get? name) ih
  case plain =>
    intro i j fs gs hid hfields
    have hempty : Alike σ (.record i .plain []) (.record j .plain []) := .of_record hid .plain .nil
    rw [Value.lookup?_record, Value.lookup?_record]
    exact or_alike (hfields.get? name) (hempty.kindMember?_rel name)
  case nothing =>
    intro i j fs gs _ hfields
    rw [Value.lookup?_record, Value.lookup?_record]
    exact or_alike (hfields.get? name) .none
  case other =>
    intro v w h hv hw
    rw [Value.lookup?_other hv, Value.lookup?_other hw]
    exact or_alike (h.own?_rel name) (h.kindMember?_rel name)

section Exact
variable (hσ : σ.Exact)
include hσ

theorem parent : Alike σ v.parent w.parent := by
  have hempty : Alike σ (.record 0 .plain []) (.record 0 .plain []) :=
    .of_record hσ.shared .plain .nil
  cases h with
  | record hid hsort hparent hnames hall =>
    cases hsort with
    | plain => exact .of_record hσ.shared .nothing .nil
    | nothing => exact .undefined
    | value v w => exact hparent v w rfl rfl
  | list hid hlength hall => exact .of_list hσ.shared .nil
  | undefined | null => exact .undefined
  | text s => exact .text ""
  | _ => exact hempty

theorem member?_rel (name : String) :
    Option.Rel (Alike σ) (v.member? name) (w.member? name) := by
  rw [Value.member?, Value.member?, h.borrowsSize_eq, h.takesParent_eq]
  split
  · exact .none
  · split
    · exact .some (h.parent hσ)
    · exact .some (getD_alike (h.lookup?_rel name))

/-- Alike values meet along every path. -/
theorem meet (path : List String) : Value.Meet σ path v w := by
  induction path generalizing v w with
  | nil =>
    refine ⟨trivial, fun hu ht => ?_⟩
    cases hu
    cases ht
    exact h
  | cons name path ih =>
    have hmember := h.member?_rel hσ name
    constructor
    · by_cases habsent : v.isAbsent = true
      · exact .inl ⟨habsent, h.eq_of_isAbsent habsent⟩
      · have hpresent := Bool.eq_false_iff.mpr habsent
        refine .inr ⟨hpresent, h.isAbsent_eq ▸ hpresent, .inr ?_⟩
        generalize v.member? name = a at hmember
        generalize w.member? name = b at hmember
        cases hmember with
        | none => trivial
        | some hut => exact (ih hut).inStep
    · intro u t hu ht
      rw [Value.follow] at hu ht
      split at hu
      · cases hu
      · split at ht
        · cases ht
        · generalize v.member? name = a at hmember hu
          generalize w.member? name = b at hmember ht
          cases hmember with
          | none => cases hu
          | some hst => exact (ih hst).alike hu ht

end Exact

end Alike

end LiveTemplate
