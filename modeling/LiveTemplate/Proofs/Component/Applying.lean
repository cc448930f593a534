import LiveTemplate.Component.Spec
import LiveTemplate.Proofs.Assigns.Writing
import LiveTemplate.Proofs.Eval.Essence
import LiveTemplate.Proofs.Eval.Repeating
import LiveTemplate.Proofs.Eval.Yields

/-!
The bindings that a spec makes of what a caller passes. They are the same apart from identities for
values that are, and a name that is passed is either held with the value that was passed, or not held
at all since it was collected.
-/

namespace LiveTemplate

set_option autoImplicit false

namespace ComponentSpec

variable {spec : ComponentSpec} {n m : Identity}

/-! ### Values that are the same apart from identities -/

theorem repeats_emptySlots :
    FreshRepeats n m (fun s t => Record.essence s = Record.essence t) spec.emptySlots
      spec.emptySlots := by
  have hslots : FreshRepeats n m
      (List.Forall₂ fun a b : String × Value => a.1 = b.1 ∧ a.2.essence = b.2.essence)
      spec.emptySlots spec.emptySlots := by
    apply FreshRepeats.mapM
    apply List.forall₂_same.mpr
    intro s _
    exact FreshRepeats.freshId.bind fun _ _ _ => .pure ⟨rfl, rfl⟩
  intro i hi j hj
  exact ⟨Record.essence_eq_of_forall₂ (hslots i hi j hj).1, (hslots i hi j hj).2⟩

theorem essence_collected (attr : AttrSpec) (more : Record Value) :
    Record.essence (collected attr more) =
      Record.merge (Record.essence ((attr.default.bind Value.fields?).getD []))
        (({} : Bindings).assignAll (Record.essence more)).fields := by
  have hmore : Record.essence (({} : Bindings).assignAll more).fields =
      (({} : Bindings).assignAll (Record.essence more)).fields :=
    congrArg Bindings.fields (Bindings.assignAll_essence {} more)
  rw [← hmore]
  exact (Record.merge_mapValues Value.essence _ _).symm

/-- What a spec makes of values depends on no more than what they are apart from identities. -/
theorem repeats_apply {values others : Record Value}
    (h : Record.essence values = Record.essence others) :
    FreshRepeats n m (fun b c => b.essence = c.essence) (spec.apply values) (spec.apply others) := by
  unfold apply
  refine repeats_emptySlots.bind fun slots more hslots => ?_
  dsimp only
  have hgiven : (({} : Bindings).assignAll (spec.defaults ++ slots)).essence =
      (({} : Bindings).assignAll (spec.defaults ++ more)).essence := by
    rw [Bindings.assignAll_essence, Bindings.assignAll_essence, Record.essence_append,
      Record.essence_append, hslots]
  generalize ({} : Bindings).assignAll (spec.defaults ++ slots) = given at hgiven ⊢
  generalize ({} : Bindings).assignAll (spec.defaults ++ more) = other at hgiven ⊢
  split
  case h_1 =>
    refine .pure ?_
    rw [Bindings.assignAll_essence, Bindings.assignAll_essence, hgiven, h]
  case h_2 attr _ =>
    rw [List.partition_eq_filter_filter, List.partition_eq_filter_filter]
    have hfilter : ∀ p : String → Bool, Record.essence (values.filter fun e => p e.1) =
        Record.essence (others.filter fun e => p e.1) := by
      intro p
      rw [Record.essence, Record.essence, Record.mapValues_filter, Record.mapValues_filter]
      exact congrArg _ h
    have hknown : (given.assignAll (values.filter fun e => decide (e.1 ∈ spec.knownNames))).essence =
        (other.assignAll (others.filter fun e => decide (e.1 ∈ spec.knownNames))).essence := by
      rw [Bindings.assignAll_essence, Bindings.assignAll_essence, hgiven,
        hfilter fun name => decide (name ∈ spec.knownNames)]
    have hcontains : Assoc.contains values attr.name = Assoc.contains others attr.name := by
      rw [← Record.contains_mapValues Value.essence values,
        ← Record.contains_mapValues Value.essence others]
      exact congrArg (Assoc.contains · attr.name) h
    dsimp only
    rw [hcontains]
    split
    · exact .pure hknown
    · refine FreshRepeats.freshId.bind fun i j _ => .pure ?_
      have hmore := hfilter fun name => !decide (name ∈ spec.knownNames)
      rw [Bindings.assign_essence, Bindings.assign_essence, hknown, Value.essence_record,
        Value.essence_record, essence_collected, essence_collected]
      exact congrArg (fun fields : Record Value => Bindings.assign _ attr.name
        (.record 0 Parent.plain.essence (Record.merge _ (({} : Bindings).assignAll fields).fields)))
        hmore

/-! ### Names that are passed -/

theorem maintains_emptySlots_names : Maintains (fun _ => True)
    (fun slots : Record Value => ∀ s ∈ slots, s.1 ∈ spec.knownNames) spec.emptySlots := by
  have hslots : ∀ s ∈ spec.slots.filter (fun s => !s.required), s.name ∈ spec.knownNames :=
    fun s hs => List.mem_append_left _ (List.mem_append_right _
      (List.mem_map_of_mem (List.mem_filter.mp hs).1))
  rw [emptySlots]
  generalize spec.slots.filter (fun s => !s.required) = slots at hslots
  induction slots with
  | nil => exact .pure (List.forall_mem_nil _)
  | cons s rest ih =>
    rw [List.forall_mem_cons] at hslots
    rw [List.mapM_cons]
    apply Maintains.bind (P := fun f : String × Value => f.1 ∈ spec.knownNames)
    · exact fun _ _ => ⟨hslots.1, trivial⟩
    · intro f hf
      exact (ih hslots.2).bind fun fields hfields => .pure (List.forall_mem_cons.mpr ⟨hf, hfields⟩)

theorem mem_attrs_of_defaults {f : String × Value} (hf : f ∈ spec.defaults) :
    f.1 ∈ spec.attrs.map AttrSpec.name := by
  obtain ⟨a, ha, hf⟩ := List.mem_filterMap.mp hf
  split at hf
  · cases hf
  · obtain ⟨v, -, rfl⟩ := Option.map_eq_some_iff.mp hf
    exact List.mem_map_of_mem ha

theorem mem_knownNames_of_defaults {f : String × Value} (hf : f ∈ spec.defaults) :
    f.1 ∈ spec.knownNames :=
  List.mem_append_left _ (List.mem_append_left _ (mem_attrs_of_defaults hf))

theorem of_mem_keys {p : String → Prop} {ws : Record Value} (hws : ∀ w ∈ ws, p w.1) {name : String}
    (h : name ∈ Assoc.keys ws) : p name := by
  obtain ⟨w, hw, rfl⟩ := List.mem_map.mp h
  exact hws w hw

/-- A name that is passed is held as it was passed, or it is not held. -/
theorem get?_apply (spec : ComponentSpec) {values : Record Value}
    (hvalues : (Assoc.keys values).Nodup) {name : String} (hname : name ≠ parentName) {v : Value}
    (hv : Assoc.get? values name = some v) :
    Maintains (fun _ => True) (fun made => ∀ u, Assoc.get? made.fields name = some u → u = v)
      (spec.apply values) := by
  obtain ⟨before, after, rfl, hafter⟩ := Record.exists_split hvalues hv
  unfold apply
  apply maintains_emptySlots_names.bind
  intro slots hslots
  dsimp only
  generalize hgiven : ({} : Bindings).assignAll (spec.defaults ++ slots) = given
  split
  case h_1 =>
    refine .pure fun u hu => ?_
    rw [Bindings.get?_assignAll_last hname hafter] at hu
    exact (Option.some.inj hu).symm
  case h_2 attr hattr =>
    rw [List.partition_eq_filter_filter]
    generalize hknown : given.assignAll _ = known
    have hheld : ∀ u, Assoc.get? known.fields name = some u → u = v := by
      intro u hu
      rw [← hknown] at hu
      -- A name that is not known is not among the defaults either.
      by_cases hmem : name ∈ spec.knownNames
      · have hlater : name ∉ Assoc.keys (after.filter fun e => decide (e.1 ∈ spec.knownNames)) :=
          fun h => hafter ((List.filter_sublist.map Prod.fst).subset h)
        rw [List.filter_append, List.filter_cons_of_pos (by simpa using hmem),
          Bindings.get?_assignAll_last hname hlater] at hu
        exact (Option.some.inj hu).symm
      · have hunknown : ∀ ws : Record Value, (∀ w ∈ ws, w.1 ∈ spec.knownNames) →
            name ∉ Assoc.keys ws := fun ws hws h => hmem (of_mem_keys hws h)
        have hpassed : ∀ w ∈ (before ++ (name, v) :: after).filter
            (fun e => decide (e.1 ∈ spec.knownNames)), w.1 ∈ spec.knownNames :=
          fun w hw => of_decide_eq_true (List.mem_filter.mp hw).2
        have hdefaults : ∀ w ∈ spec.defaults ++ slots, w.1 ∈ spec.knownNames :=
          List.forall_mem_append.mpr ⟨fun _ => mem_knownNames_of_defaults, hslots⟩
        rw [Bindings.get?_assignAll_of_not_mem hname (hunknown _ hpassed), ← hgiven,
          Bindings.get?_assignAll_of_not_mem hname (hunknown _ hdefaults)] at hu
        cases hu
    dsimp only
    split
    · exact .pure hheld
    · rename_i hcontains
      have hattr : attr.name ≠ name := by
        rintro rfl
        exact hcontains (by rw [Assoc.contains, hv, Option.isSome_some])
      refine Maintains.bind (P := fun _ => True) (fun _ _ => ⟨trivial, trivial⟩) fun i _ => .pure ?_
      intro u hu
      rw [Assigns.get?_assign known attr.name _ hname, if_neg hattr] at hu
      exact hheld u hu

end ComponentSpec

end LiveTemplate
