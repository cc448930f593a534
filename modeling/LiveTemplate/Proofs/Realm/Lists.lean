import LiveTemplate.Proofs.Realm.Methods

/-!
The methods of lists, called on a receiver and arguments within a realm.
-/

namespace LiveTemplate

set_option autoImplicit false

variable {R : Realm}

/-- Elements that are there lie within a realm. -/
abbrev ElementsWithin (R : Realm) (es : List (Option Value)) : Prop :=
  ∀ e ∈ es, ∀ v, e = some v → v.Within R .itself

theorem within_filled {es : List (Option Value)} (h : ElementsWithin R es) :
    AllWithin R (Value.filled es) :=
  List.forall_mem_map.mpr fun e he => Value.within_getD (h e he)

theorem within_present {es : List (Option Value)} (h : ElementsWithin R es) :
    ∀ item ∈ Value.present es, item.1.Within R .itself := by
  intro item hitem
  obtain ⟨⟨e, i⟩, he, hmade⟩ := List.mem_filterMap.mp hitem
  obtain ⟨v, hv, rfl⟩ := Option.map_eq_some_iff.mp hmade
  exact h e (List.fst_mem_of_mem_zipIdx he) v hv

theorem within_flattenItems (depth : Nat) {vs : List Value} (h : AllWithin R vs) :
    AllWithin R (Value.flattenItems depth vs) := by
  induction depth generalizing vs with
  | zero => exact h
  | succ depth ih =>
    intro u hu
    obtain ⟨v, hv, hu⟩ := List.mem_flatMap.mp hu
    have hone : u ∈ [v] → u.Within R .itself := fun hu => List.mem_singleton.mp hu ▸ h v hv
    have hitems := h v hv
    cases hitems with
    | list _ hall => exact ih hall u hu
    | _ => exact hone hu

/-- The items of a list in place of the list. -/
theorem within_opened {vs : List Value} (h : AllWithin R vs) :
    AllWithin R (vs.flatMap fun v =>
      match v with
      | .list _ items => items
      | v => [v]) := by
  intro u hu
  obtain ⟨v, hv, hu⟩ := List.mem_flatMap.mp hu
  have hone : u ∈ [v] → u.Within R .itself := fun hu => List.mem_singleton.mp hu ▸ h v hv
  have hitems := h v hv
  cases hitems with
  | list _ hall => exact hall u hu
  | _ => exact hone hu

variable {call : Call} (hcall : call.Within R)
include hcall

theorem yields_elements {v : Value} (h : v.Within R .itself) :
    Yields R.Supply (ElementsWithin R) (v.elements call) := by
  have hmember : Yields R.Supply (Value.Within R .itself) (v.member "length") :=
    h.member (Realm.reads_of_not_mem (by decide))
  have hlookup : ∀ i : Nat, ∀ u, v.lookup? (toString i) = some u → u.Within R .itself :=
    fun i u hu => h.lookup? (Realm.reads_index i) hu
  cases v with
  | undefined | null => exact .throw _
  | list i items =>
    refine .pure (List.forall_mem_map.mpr fun v hv u hu => ?_)
    cases hu
    cases h with
    | list _ hall => exact hall v hv
  | _ =>
    refine hmember.bind fun u hu => (hu.toNumber hcall).bind fun x _ => ?_
    cases Number.toInt? x with
    | none => exact Yields.ite (fun _ => .pure nofun) fun _ => .throw _
    | some n =>
      exact Yields.ite (fun _ => .pure (List.forall_mem_map.mpr fun i _ => hlookup i))
        fun _ => .throw _

theorem yields_fold {f self : Value} {start : Option Value} {items : List (Value × Nat)}
    (hf : f.Within R .itself) (hself : self.Within R .itself)
    (hstart : ∀ v, start = some v → v.Within R .itself)
    (hitems : ∀ item ∈ items, item.1.Within R .itself) :
    Yields R.Supply (Value.Within R .itself) (ListMethod.fold call f self start items) := by
  have hstep : ∀ (total : Value) (item : Value × Nat), total.Within R .itself →
      item.1.Within R .itself → Yields R.Supply (Value.Within R .itself)
        (call f .undefined [total, item.1, .number (Float.ofNat item.2), self]) := by
    intro total item htotal hitem
    refine hcall hf .undefined ?_
    simp only [AllWithin, List.forall_mem_cons]
    exact ⟨htotal, hitem, .number _, hself, allWithin_nil R⟩
  cases start with
  | some v => exact Yields.foldlM hitems hstep (hstart v rfl)
  | none =>
    cases items with
    | nil => exact .throw _
    | cons item rest =>
      rw [List.forall_mem_cons] at hitems
      exact Yields.foldlM hitems.2 hstep hitems.1

theorem yields_listMethod (m : ListMethod) {self : Value} {args : List Value}
    (h : self.Within R .itself) (hargs : AllWithin R args) :
    Yields R.Supply (Value.Within R .itself) (m.call call self args) := by
  have hfirst := within_argument hargs 0
  have hsecond := within_argument hargs 1
  have hindex := yields_indexArg hcall hsecond
  unfold ListMethod.call
  refine (yields_elements hcall h).bind fun es hes => ?_
  have hback : ∀ item : Value × Nat, item.1.Within R .itself →
      Yields R.Supply (Value.Within R .itself) (call (argument args 0) (argument args 1)
        [item.1, .number (Float.ofNat item.2), self]) := by
    intro item hitem
    refine hcall hfirst hsecond ?_
    simp only [AllWithin, List.forall_mem_cons]
    exact ⟨hitem, .number _, h, allWithin_nil R⟩
  have htest : ∀ item : Value × Nat, item.1.Within R .itself → Yields R.Supply (fun _ => True)
      (Value.truthy <$> call (argument args 0) (argument args 1)
        [item.1, .number (Float.ofNat item.2), self]) :=
    fun item hitem => (hback item hitem).map fun _ _ => trivial
  refine Yields.ite (fun _ => ?_) fun _ => ?_
  · exact Yields.bind (P := fun _ => False) (.throw _) fun _ h => h.elim
  cases m with
  | map =>
    refine (Yields.mapM (P := fun e : Option Value × Nat => ∀ v, e.1 = some v → v.Within R .itself)
      (Q := Value.Within R .itself) ?_ ?_).bind fun made hmade => yields_newList hmade
    · exact fun e he => hes e.1 (List.fst_mem_of_mem_zipIdx he)
    · rintro ⟨e, i⟩ he
      cases e with
      | none => exact .pure .undefined
      | some v => exact hback (v, i) (he v rfl)
  | filter =>
    exact (Yields.filterM (within_present hes) htest).bind fun kept hkept =>
      yields_newList (List.forall_mem_map.mpr hkept)
  | find =>
    have hitems : ∀ item ∈ (Value.filled es).zipIdx, item.1.Within R .itself :=
      fun item hitem => within_filled hes _ (List.fst_mem_of_mem_zipIdx hitem)
    refine (Yields.findM? hitems htest).bind fun found hfound => .pure ?_
    cases found with
    | none => exact .undefined
    | some item => exact hfound item rfl
  | some => exact (Yields.anyM (within_present hes) htest).bind fun _ _ => .pure (.flag _)
  | every => exact (Yields.allM (within_present hes) htest).bind fun _ _ => .pure (.flag _)
  | reduce =>
    exact yields_fold hcall hfirst h (fun v hv => hargs v (List.mem_of_getElem? hv))
      (within_present hes)
  | slice =>
    refine (yields_indexArg hcall hfirst _ _ _).bind fun i _ => (hindex _ _ _).bind fun j _ => ?_
    exact yields_newList fun v hv =>
      within_filled hes v (List.mem_of_mem_drop (List.mem_of_mem_take hv))
  | concat => exact yields_newList (within_opened (List.forall_mem_cons.mpr ⟨h, hargs⟩))
  | indexOf =>
    exact Yields.ite (fun _ => .pure (within_position _)) fun _ =>
      (hindex _ _ _).bind fun _ _ => .pure (within_position _)
  | includes =>
    exact Yields.ite (fun _ => .pure (.flag _)) fun _ =>
      (hindex _ _ _).bind fun _ _ => .pure (.flag _)
  | join =>
    have hjoined : ∀ separator : String, Yields R.Supply (Value.Within R .itself) (do
        let texts ← Value.itemTexts call (Value.filled es)
        return Value.text (String.intercalate separator texts)) := fun separator =>
      (Value.yields_itemTexts hcall (within_filled hes)).bind fun _ _ => .pure (.text _)
    have htext := hfirst.toText hcall
    dsimp only
    generalize argument args 0 = a at htext
    cases a with
    | undefined => exact hjoined ","
    | _ => exact htext.bind fun s _ => hjoined s
  | flat =>
    have hflat : ∀ depth : Nat, Yields R.Supply (Value.Within R .itself)
        (Eval.newList (Value.flattenItems depth ((Value.present es).map Prod.fst))) :=
      fun depth => yields_newList (within_flattenItems depth
        (List.forall_mem_map.mpr (within_present hes)))
    have hnumber := hfirst.toNumber hcall
    dsimp only
    generalize argument args 0 = a at hnumber
    cases a with
    | undefined => exact hflat 1
    | _ => exact hnumber.bind fun x _ => hflat _

end LiveTemplate
