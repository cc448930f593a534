import LiveTemplate.Proofs.Eval.Methods

/-!
The methods of lists, called on alike receivers with alike arguments.
-/

namespace LiveTemplate

set_option autoImplicit false

section Lists
variable {α β : Type} {R : α → β → Prop} {xs : List α} {ys : List β} (h : List.Forall₂ R xs ys)
include h

theorem rel_zipIdx (n : Nat) :
    List.Forall₂ (fun a b => R a.1 b.1 ∧ a.2 = b.2) (xs.zipIdx n) (ys.zipIdx n) := by
  induction h generalizing n with
  | nil => exact .nil
  | cons hxy _ ih =>
    rw [List.zipIdx_cons, List.zipIdx_cons]
    exact .cons ⟨hxy, rfl⟩ (ih (n + 1))

theorem findIdx?_rel {p : α → Bool} {q : β → Bool} (hpq : ∀ x y, R x y → p x = q y) :
    xs.findIdx? p = ys.findIdx? q := by
  induction h with
  | nil => rfl
  | cons hxy _ ih => rw [List.findIdx?_cons, List.findIdx?_cons, hpq _ _ hxy, ih]

theorem findFrom_rel {p : α → Bool} {q : β → Bool} (hpq : ∀ x y, R x y → p x = q y) (start : Nat) :
    Value.findFrom p start xs = Value.findFrom q start ys := by
  rw [Value.findFrom, Value.findFrom, findIdx?_rel (List.forall₂_drop start h) hpq]

theorem any_rel {p : α → Bool} {q : β → Bool} (hpq : ∀ x y, R x y → p x = q y) :
    xs.any p = ys.any q := by
  induction h with
  | nil => rfl
  | cons hxy _ ih => rw [List.any_cons, List.any_cons, hpq _ _ hxy, ih]

theorem find?_rel {p : α → Bool} {q : β → Bool} (hpq : ∀ x y, R x y → p x = q y) :
    Option.Rel R (xs.find? p) (ys.find? q) := by
  induction h with
  | nil => exact .none
  | @cons x y _ _ hxy _ ih =>
    rw [List.find?_cons, List.find?_cons, ← hpq _ _ hxy]
    cases p x with
    | true => exact .some hxy
    | false => exact ih

end Lists

variable {σ : Pairing}

/-- Items with their positions. -/
abbrev PlacedAlike (σ : Pairing) (a b : Value × Nat) : Prop := Alike σ a.1 b.1 ∧ a.2 = b.2

theorem present_alike {es es' : List (Option Value)}
    (h : List.Forall₂ (Option.Rel (Alike σ)) es es') :
    List.Forall₂ (PlacedAlike σ) (Value.present es) (Value.present es') := by
  refine List.rel_filterMap (R := fun a b => Option.Rel (Alike σ) a.1 b.1 ∧ a.2 = b.2) ?_
    (rel_zipIdx h 0)
  rintro ⟨e, i⟩ ⟨e', i'⟩ ⟨he, rfl⟩
  cases he with
  | none => exact .none
  | some hvw => exact .some ⟨hvw, rfl⟩

theorem filled_alike {es es' : List (Option Value)}
    (h : List.Forall₂ (Option.Rel (Alike σ)) es es') :
    List.Forall₂ (Alike σ) (Value.filled es) (Value.filled es') :=
  List.rel_map (fun _ _ he => getD_alike he) h

theorem fst_alike {xs ys : List (Value × Nat)} (h : List.Forall₂ (PlacedAlike σ) xs ys) :
    List.Forall₂ (Alike σ) (xs.map Prod.fst) (ys.map Prod.fst) :=
  List.rel_map (fun _ _ he => he.1) h

theorem flattenItems_alike (depth : Nat) {vs ws : List Value} (h : List.Forall₂ (Alike σ) vs ws) :
    List.Forall₂ (Alike σ) (Value.flattenItems depth vs) (Value.flattenItems depth ws) := by
  induction depth generalizing vs ws with
  | zero => exact h
  | succ depth ih =>
    refine List.rel_flatMap h fun v w hvw => ?_
    have hone : List.Forall₂ (Alike σ) [v] [w] := .cons hvw .nil
    cases hvw with
    | list hid hlength hall => exact ih (forall₂_of_zip hlength hall)
    | _ => exact hone

theorem position_alike (place : Option Nat) : Alike σ (Value.position place) (Value.position place) := by
  cases place with
  | none => exact .number _
  | some n => exact .number _

section
variable (hσ : σ.Exact) {call : Call} (hcall : Steady σ call)
include hσ hcall

theorem both_elements {v w : Value} (h : Alike σ v w) :
    Both σ (List.Forall₂ (Option.Rel (Alike σ))) (v.elements call) (w.elements call) := by
  have hmember := both_member hσ h "length"
  have hlookup := h.lookup?_rel
  cases h with
  | undefined | null => exact .throw _
  | list hid hlength hall =>
    refine .pure ?_
    rw [List.forall₂_map_left_iff, List.forall₂_map_right_iff]
    exact (forall₂_of_zip hlength hall).imp fun _ _ h => .some h
  | _ =>
    refine hmember.bind fun u t hut => ?_
    refine (both_toNumber hσ hcall hut).bind fun x y hxy => ?_
    subst hxy
    cases Number.toInt? x with
    | none => exact Both.ite rfl (fun _ => .pure .nil) fun _ => .throw _
    | some n =>
      dsimp only
      split
      · refine .pure ?_
        rw [List.forall₂_map_left_iff, List.forall₂_map_right_iff]
        exact List.forall₂_same.mpr fun i _ => hlookup (toString i)
      · exact .throw _

omit hσ in
theorem both_fold {f f' self self' : Value} {start start' : Option Value}
    {items items' : List (Value × Nat)} (hf : Alike σ f f') (hself : Alike σ self self')
    (hstart : Option.Rel (Alike σ) start start')
    (hitems : List.Forall₂ (PlacedAlike σ) items items') :
    Both σ (Alike σ) (ListMethod.fold call f self start items)
      (ListMethod.fold call f' self' start' items') := by
  have hstep : ∀ (total total' : Value) (item item' : Value × Nat), Alike σ total total' →
      PlacedAlike σ item item' → Both σ (Alike σ)
        (call f .undefined [total, item.1, .number (Float.ofNat item.2), self])
        (call f' .undefined [total', item'.1, .number (Float.ofNat item'.2), self']) := by
    rintro total total' ⟨v, i⟩ ⟨w, j⟩ htotal ⟨hvw, rfl⟩
    exact hcall hf .undefined (.cons htotal (.cons hvw (.cons (.number _) (.cons hself .nil))))
  cases hstart with
  | some hvw => exact Both.foldlM hitems hstep hvw
  | none =>
    cases hitems with
    | nil => exact .throw _
    | cons hfirst hrest => exact Both.foldlM hrest hstep hfirst.1

theorem both_listMethod (m : ListMethod) {self self' : Value} {args args' : List Value}
    (h : Alike σ self self') (hargs : List.Forall₂ (Alike σ) args args') :
    Both σ (Alike σ) (m.call call self args) (m.call call self' args') := by
  have hfirst := argument_alike hargs 0
  have hsecond := argument_alike hargs 1
  have hindex := fun index length default =>
    both_indexArg hσ hcall hsecond index length default
  unfold ListMethod.call
  refine (both_elements hσ hcall h).bind fun es es' hes => ?_
  have hlength := hes.length_eq
  have hback : ∀ (item item' : Value × Nat), PlacedAlike σ item item' → Both σ (Alike σ)
      (call (argument args 0) (argument args 1)
        [item.1, .number (Float.ofNat item.2), self])
      (call (argument args' 0) (argument args' 1)
        [item'.1, .number (Float.ofNat item'.2), self']) := by
    rintro ⟨v, i⟩ ⟨w, j⟩ ⟨hvw, rfl⟩
    exact hcall hfirst hsecond (.cons hvw (.cons (.number _) (.cons h .nil)))
  have htest : ∀ (item item' : Value × Nat), PlacedAlike σ item item' → Both σ Eq
      (Value.truthy <$> call (argument args 0) (argument args 1)
        [item.1, .number (Float.ofNat item.2), self])
      (Value.truthy <$> call (argument args' 0) (argument args' 1)
        [item'.1, .number (Float.ofNat item'.2), self']) :=
    fun item item' hitem => (hback item item' hitem).map fun _ _ hvw => hvw.truthy_eq
  have hcalls : (m.callsBack && !(argument args 0).isFunction) =
      (m.callsBack && !(argument args' 0).isFunction) := by rw [hfirst.isFunction_eq]
  refine Both.ite hcalls (fun _ => ?_) fun _ => ?_
  · exact Both.bind (R := fun _ _ => False) (.throw _) fun _ _ h => h.elim
  cases m with
  | map =>
    refine (Both.mapM (S := Alike σ) (rel_zipIdx hes 0) ?_).bind fun made made' hmade =>
      .newList hmade
    rintro ⟨e, i⟩ ⟨e', i'⟩ ⟨he, rfl⟩
    cases he with
    | none => exact .pure .undefined
    | some hvw => exact hback (_, i) (_, i) ⟨hvw, rfl⟩
  | filter =>
    exact (Both.filterM (present_alike hes) htest).bind fun kept kept' hkept =>
      .newList (fst_alike hkept)
  | find =>
    refine (Both.findM? (rel_zipIdx (filled_alike hes) 0) htest).bind fun found found' hfound => ?_
    refine .pure ?_
    cases hfound with
    | none => exact .undefined
    | some hitem => exact hitem.1
  | some =>
    exact (Both.anyM (present_alike hes) htest).bind fun b b' hb => .pure (hb ▸ .flag b)
  | every =>
    exact (Both.allM (present_alike hes) htest).bind fun b b' hb => .pure (hb ▸ .flag b)
  | reduce => exact both_fold hcall hfirst h (getElem?_alike hargs 1) (present_alike hes)
  | slice =>
    dsimp only
    rw [hlength]
    refine (both_indexArg hσ hcall hfirst _ _ _).bind fun i i' hi => ?_
    refine (hindex _ _ _).bind fun j j' hj => ?_
    subst hi hj
    exact .newList (List.forall₂_take _ (List.forall₂_drop _ (filled_alike hes)))
  | concat =>
    refine .newList (List.rel_flatMap (.cons h hargs) fun v w hvw => ?_)
    have hone : List.Forall₂ (Alike σ) [v] [w] := .cons hvw .nil
    cases hvw with
    | list hid hlength hall => exact forall₂_of_zip hlength hall
    | _ => exact hone
  | indexOf =>
    dsimp only
    rw [hlength]
    split
    · exact .pure (position_alike _)
    · refine (hindex _ _ _).bind fun i i' hi => ?_
      subst hi
      rw [findFrom_rel hes (q := fun e => e.any (Value.strictEq (argument args' 0)))]
      · exact .pure (position_alike _)
      · intro e e' he
        cases he with
        | none => rfl
        | some hvw => exact sameBy_alike hσ hfirst hvw _
  | includes =>
    dsimp only
    rw [hlength]
    split
    · exact .pure (.flag _)
    · refine (hindex _ _ _).bind fun i i' hi => ?_
      subst hi
      rw [findFrom_rel (filled_alike hes) (q := Value.sameMember (argument args' 0))]
      · exact .pure (.flag _)
      · exact fun v w hvw => sameBy_alike hσ hfirst hvw _
  | join =>
    have hjoined : ∀ separator : String, Both σ (Alike σ)
        (do
          let texts ← Value.itemTexts call (Value.filled es)
          return Value.text (String.intercalate separator texts))
        (do
          let texts ← Value.itemTexts call (Value.filled es')
          return Value.text (String.intercalate separator texts)) := fun separator =>
      (both_itemTexts hσ hcall (filled_alike hes)).bind fun texts texts' ht =>
        .pure (ht ▸ .text _)
    have htext := both_toText hσ hcall hfirst
    dsimp only
    generalize argument args 0 = a at hfirst htext
    generalize argument args' 0 = b at hfirst htext
    cases hfirst with
    | undefined => exact hjoined ","
    | _ => exact htext.bind fun s s' hs => hs ▸ hjoined s
  | flat =>
    have hflat : ∀ depth : Nat, Both σ (Alike σ)
        (Eval.newList (Value.flattenItems depth ((Value.present es).map Prod.fst)))
        (Eval.newList (Value.flattenItems depth ((Value.present es').map Prod.fst))) :=
      fun depth => .newList (flattenItems_alike depth (fst_alike (present_alike hes)))
    have hnumber := both_toNumber hσ hcall hfirst
    dsimp only
    generalize argument args 0 = a at hfirst hnumber
    generalize argument args' 0 = b at hfirst hnumber
    cases hfirst with
    | undefined => exact hflat 1
    | _ => exact hnumber.bind fun x y hxy => hxy ▸ hflat _

end

end LiveTemplate
