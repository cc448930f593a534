import LiveTemplate.Proofs.Eval.Both
import LiveTemplate.Value.Text

/-!
Members, texts and numbers of alike values, and their comparison, come out the same as long as calls
do.
-/

namespace LiveTemplate

set_option autoImplicit false

/-- Calls of alike functions on alike values are related. -/
def Steady (σ : Pairing) (call : Call) : Prop :=
  ∀ {f g self self' : Value} {args args' : List Value}, Alike σ f g → Alike σ self self' →
    List.Forall₂ (Alike σ) args args' → Both σ (Alike σ) (call f self args) (call g self' args')

/-! ### Sameness -/

namespace Value

/-- Values without an identity are the same by what they are. -/
theorem sameBy_of_identity? (numbers : Float → Float → Bool) {a b : Value}
    (h : a.identity?.isSome || b.identity?.isSome) : sameBy numbers a b =
      match a.identity?, b.identity? with
      | some i, some j => i == j
      | _, _ => false := by
  cases a <;> cases b <;> first | rfl | cases h

end Value

theorem Alike.eq_of_identity?_eq_none {σ : Pairing} {v w : Value} (h : Alike σ v w)
    (hv : v.identity? = none) : v = w := by
  cases h <;> first | rfl | cases hv

section Sameness
variable {σ : Pairing} (hσ : σ.Exact) {a b a' b' : Value} (ha : Alike σ a a') (hb : Alike σ b b')
include hσ ha hb

theorem sameBy_alike (numbers : Float → Float → Bool) :
    Value.sameBy numbers a b = Value.sameBy numbers a' b' := by
  have hia := ha.identity?_rel
  have hib := hb.identity?_rel
  by_cases h : (a.identity?.isSome || b.identity?.isSome) = true
  · have h' : (a'.identity?.isSome || b'.identity?.isSome) = true := by
      rwa [← isSome_eq_of_rel hia, ← isSome_eq_of_rel hib]
    rw [Value.sameBy_of_identity? numbers h, Value.sameBy_of_identity? numbers h']
    generalize a.identity? = i at hia
    generalize a'.identity? = i' at hia
    generalize b.identity? = j at hib
    generalize b'.identity? = j' at hib
    cases hia with
    | none => rfl
    | some hi =>
      cases hib with
      | none => rfl
      | some hj =>
        rw [Bool.eq_iff_iff, beq_iff_eq, beq_iff_eq]
        exact hσ.eq_iff hi hj
  · rw [Bool.or_eq_true, not_or, Bool.not_eq_true, Option.isSome_eq_false_iff,
      Option.isNone_iff_eq_none, Bool.not_eq_true, Option.isSome_eq_false_iff,
      Option.isNone_iff_eq_none] at h
    rw [ha.eq_of_identity?_eq_none h.1, hb.eq_of_identity?_eq_none h.2]

end Sameness

/-! ### Members -/

section Members
variable {σ : Pairing} (hσ : σ.Exact) {v w : Value} (h : Alike σ v w)
include hσ h

theorem both_member (name : String) : Both σ (Alike σ) (v.member name) (w.member name) := by
  have hmember := h.member?_rel hσ name
  rw [Value.member_eq, Value.member_eq]
  generalize v.member? name = a at hmember
  generalize w.member? name = b at hmember
  cases hmember with
  | none => exact .throw _
  | some h => exact .pure h

theorem both_read (name : String) (span : Span) :
    Both σ (Alike σ) (v.read name span) (w.read name span) := by
  rw [Value.read, Value.read, h.plainText_eq]
  refine Both.ite h.isAbsent_eq (fun _ => .fail _ _) fun _ => ?_
  split
  · exact .fail _ _
  · exact both_member hσ h name

end Members

/-! ### Plain values -/

section Plain
variable {σ : Pairing} (hσ : σ.Exact) {call : Call} (hcall : Steady σ call)
include hσ hcall

theorem both_askFor {v w : Value} (h : Alike σ v w) (names : List String) :
    Both σ (Alike σ) (Value.askFor call v names) (Value.askFor call w names) := by
  induction names with
  | nil => exact .throw _
  | cons name rest ih =>
    rw [Value.askFor, Value.askFor]
    refine (both_member hσ h name).bind fun f g hfg => ?_
    refine Both.ite hfg.isFunction_eq (fun _ => ?_) fun _ => ih
    refine (hcall hfg h .nil).bind fun u t hut => ?_
    exact Both.ite hut.isCompound_eq (fun _ => ih) fun _ => .pure hut

theorem both_toPlain {v w : Value} (h : Alike σ v w) (purpose : Value.Purpose) :
    Both σ (Alike σ) (v.toPlain call purpose) (w.toPlain call purpose) :=
  Both.ite h.isCompound_eq (fun _ => both_askFor hσ hcall h _) fun _ => .pure h

theorem both_toText {v w : Value} (h : Alike σ v w) : Both σ Eq (v.toText call) (w.toText call) :=
  (both_toPlain hσ hcall h .text).bind fun _ _ hut => .pure hut.plainText_eq

theorem both_toNumber {v w : Value} (h : Alike σ v w) :
    Both σ Eq (v.toNumber call) (w.toNumber call) :=
  (both_toPlain hσ hcall h .number).bind fun _ _ hut => .pure hut.plainNumber_eq

theorem both_itemTexts {vs ws : List Value} (h : List.Forall₂ (Alike σ) vs ws) :
    Both σ Eq (Value.itemTexts call vs) (Value.itemTexts call ws) := by
  refine (Both.mapM (S := Eq) h fun v w hvw => ?_).imp fun as bs hab => ?_
  · exact Both.ite hvw.isAbsent_eq (fun _ => .pure rfl) fun _ => both_toText hσ hcall hvw
  · exact List.forall₂_eq_eq_eq ▸ hab

omit hσ hcall in
theorem comparedBy_alike {v w : Value} (h : Alike σ v w) : v.comparedBy = w.comparedBy := by
  have ho := h.origin
  unfold Value.comparedBy
  generalize v.origin = a at ho
  generalize w.origin = b at ho
  cases ho <;> rfl

omit hσ hcall in
theorem plainEq_alike {a b a' b' : Value} (ha : Alike σ a a') (hb : Alike σ b b') :
    Value.plainEq a b = Value.plainEq a' b' := by
  unfold Value.plainEq
  rw [ha.isAbsent_eq, hb.isAbsent_eq]
  split
  · rfl
  · cases ha <;> cases hb <;> rfl

theorem both_looseEq {a b a' b' : Value} (ha : Alike σ a a') (hb : Alike σ b b') :
    Both σ Eq (Value.looseEq call a b) (Value.looseEq call a' b') := by
  rw [Value.looseEq, Value.looseEq, ha.isAbsent_eq, hb.isAbsent_eq, ha.isCompound_eq,
    hb.isCompound_eq, comparedBy_alike ha, comparedBy_alike hb]
  split
  · exact .pure rfl
  · split
    · exact .pure (sameBy_alike hσ ha hb _)
    · refine (both_toPlain hσ hcall ha _).bind fun x x' hx => ?_
      exact (both_toPlain hσ hcall hb _).bind fun y y' hy => .pure (plainEq_alike hx hy)

theorem both_difference {a b a' b' : Value} (ha : Alike σ a a') (hb : Alike σ b b') :
    Both σ Eq (Value.difference call a b) (Value.difference call a' b') := by
  have hnumbers : Both σ Eq
      (do
        let x ← a.toNumber call
        let y ← b.toNumber call
        return x - y)
      (do
        let x ← a'.toNumber call
        let y ← b'.toNumber call
        return x - y) := by
    refine (both_toNumber hσ hcall ha).bind fun x x' hx => ?_
    refine (both_toNumber hσ hcall hb).bind fun y y' hy => .pure ?_
    rw [hx, hy]
  cases ha with
  | text s =>
    cases hb with
    | text t =>
      rw [Value.difference]
      cases Text.compare s t <;> exact .pure rfl
    | _ => exact hnumbers
  | _ => exact hnumbers

end Plain

end LiveTemplate
