import LiveTemplate.Component.Check
import LiveTemplate.Proofs.Component.Declaring
import LiveTemplate.Proofs.Component.Holding
import LiveTemplate.Proofs.Fragment.Components
import LiveTemplate.Proofs.Render.Writes

/-!
Calls without findings. Where checking a call finds nothing, its component is given what it
declares: everything required is passed, everything else has a default, and what is passed is
declared or collected.
-/

namespace LiveTemplate

set_option autoImplicit false

theorem Assoc.mem_of_mem_set {κ α : Type} [DecidableEq κ] {xs : Assoc κ α} {key : κ} {value : α}
    {e : κ × α} (h : e ∈ set xs key value) : e = (key, value) ∨ e ∈ xs := by
  induction xs with
  | nil => exact .inl (List.mem_singleton.1 h)
  | cons f rest ih =>
    rw [set] at h
    split at h
    · exact (List.mem_cons.1 h).imp_right (List.mem_cons_of_mem _)
    · obtain rfl | h := List.mem_cons.1 h
      · exact .inr List.mem_cons_self
      · exact (ih h).imp_right (List.mem_cons_of_mem _)

theorem Assoc.mem_keys_set_iff {κ α : Type} [DecidableEq κ] {xs : Assoc κ α} {key other : κ}
    {value : α} : other ∈ keys (set xs key value) ↔ other ∈ keys xs ∨ other = key := by
  rw [keys_set]
  split
  · rename_i hmem
    exact ⟨.inl, fun h => h.elim id fun heq => heq ▸ hmem⟩
  · rw [List.mem_append, List.mem_singleton]

theorem Assoc.mem_keys_setAll_iff {κ α : Type} [DecidableEq κ] {xs ys : Assoc κ α} {key : κ} :
    key ∈ keys (setAll xs ys) ↔ key ∈ keys xs ∨ key ∈ keys ys := by
  induction ys generalizing xs with
  | nil => simp [setAll, keys]
  | cons e rest ih =>
    have hcons : setAll xs (e :: rest) = setAll (set xs e.1 e.2) rest := rfl
    rw [hcons, ih, mem_keys_set_iff, or_assoc]
    exact or_congr_right List.mem_cons.symm

/-! ### What a check finds -/

namespace ComponentCall

variable {call : ComponentCall} {spec : ComponentSpec} {source : Source}

/-- The names of the slots that a call fills. -/
def slotNames (call : ComponentCall) : List String :=
  (if call.hasInnerBlock then [innerBlock] else []) ++ call.slots.map RecordedSlot.name

/-- A call passes what is required, and nothing that is neither declared nor collected. -/
structure Meets (call : ComponentCall) (spec : ComponentSpec) : Prop where
  required : ∀ a ∈ spec.attrs, a.required = true →
    a.name ∈ call.attributes.map RecordedAttribute.name
  attrs : ∀ name ∈ call.attributes.map RecordedAttribute.name,
    name ∈ spec.attrs.map AttrSpec.name ∨
      hasRest spec.attrs = true ∧ GlobalAttribute.contains name = true
  filled : ∀ s ∈ spec.slots, s.required = true → s.name ∈ call.slotNames
  slots : ∀ name ∈ call.slotNames,
    name ∈ spec.slots.map SlotSpec.name ∨ name = innerBlock ∧ spec.slots ≠ []

theorem mem_keys_given {name : String} :
    name ∈ Assoc.keys call.given ↔ name ∈ call.attributes.map RecordedAttribute.name := by
  rw [given, Assoc.mem_keys_setAll_iff, Assoc.keys, Assoc.keys, List.map_map]
  exact or_iff_right List.not_mem_nil

/-- The entries of slots with one more. -/
def addEntry (slots : Assoc String (List RecordedSlot)) (e : RecordedSlot) :
    Assoc String (List RecordedSlot) :=
  Assoc.set slots e.name ((Assoc.get? slots e.name).getD [] ++ [e])

theorem mem_keys_foldl_addEntry {name : String} (slots : List RecordedSlot)
    (before : Assoc String (List RecordedSlot)) :
    name ∈ Assoc.keys (slots.foldl addEntry before) ↔
      name ∈ Assoc.keys before ∨ name ∈ slots.map RecordedSlot.name := by
  induction slots generalizing before with
  | nil => simp
  | cons e rest ih =>
    rw [List.foldl_cons, ih, addEntry, Assoc.mem_keys_set_iff, List.map_cons, List.mem_cons,
      or_assoc]

theorem ne_nil_of_mem_foldl_addEntry (slots : List RecordedSlot)
    {before : Assoc String (List RecordedSlot)} (h : ∀ e ∈ before, e.2 ≠ []) :
    ∀ e ∈ slots.foldl addEntry before, e.2 ≠ [] := by
  induction slots generalizing before with
  | nil => exact h
  | cons s rest ih =>
    refine ih fun e he => ?_
    obtain rfl | he := Assoc.mem_of_mem_set he
    · simp
    · exact h e he

theorem entries_eq (call : ComponentCall) : call.entries =
    if call.hasInnerBlock then
      Assoc.set (call.slots.foldl addEntry []) innerBlock [⟨innerBlock, [], false, call.span⟩]
    else call.slots.foldl addEntry [] := rfl

/-- Entries are grouped by the names of their slots. -/
theorem mem_keys_entries {name : String} :
    name ∈ Assoc.keys call.entries ↔ name ∈ call.slotNames := by
  have hgrouped : name ∈ Assoc.keys (call.slots.foldl addEntry []) ↔
      name ∈ call.slots.map RecordedSlot.name :=
    (mem_keys_foldl_addEntry _ _).trans (or_iff_right List.not_mem_nil)
  rw [entries_eq, slotNames]
  cases call.hasInnerBlock with
  | true =>
    rw [if_pos rfl, if_pos rfl, Assoc.mem_keys_set_iff, hgrouped, or_comm]
    exact List.mem_cons.symm
  | false =>
    rw [if_neg Bool.false_ne_true, if_neg Bool.false_ne_true, hgrouped, List.nil_append]

/-- A slot with entries has at least one. -/
theorem ne_nil_of_mem_entries {e : String × List RecordedSlot} (h : e ∈ call.entries) :
    e.2 ≠ [] := by
  have hgrouped := ne_nil_of_mem_foldl_addEntry call.slots (List.forall_mem_nil _)
  rw [entries_eq] at h
  split at h
  · obtain rfl | h := Assoc.mem_of_mem_set h
    · exact List.cons_ne_nil _ _
    · exact hgrouped e h
  · exact hgrouped e h

theorem required_of_checkAttr {a : AttrSpec} (hspread : call.hasSpread = false)
    (h : call.checkAttr source a = []) (hrequired : a.required = true) :
    a.name ∈ call.attributes.map RecordedAttribute.name := by
  rw [← mem_keys_given, Assoc.mem_keys_iff]
  unfold checkAttr at h
  split at h
  · rename_i given hgiven
    rw [hgiven]
    rfl
  · rw [hrequired, hspread] at h
    cases h

theorem declared_of_strayAttrs {name : String} (h : call.strayAttrs spec = [])
    (hname : name ∈ call.attributes.map RecordedAttribute.name) :
    name ∈ spec.attrs.map AttrSpec.name ∨
      hasRest spec.attrs = true ∧ GlobalAttribute.contains name = true := by
  obtain ⟨⟨_, a⟩, ha, rfl⟩ := List.mem_map.1 (mem_keys_given.2 hname)
  have hfound := List.filterMap_eq_nil_iff.1 h _ ha
  dsimp only at hfound ⊢
  split at hfound
  · rename_i hdeclared
    obtain ⟨b, hb, hname⟩ := List.any_eq_true.1 hdeclared
    exact .inl (List.mem_map.2 ⟨b, hb, by simpa using hname⟩)
  · split at hfound
    · rename_i hcollected
      exact .inr (by simpa using hcollected)
    · cases hfound

theorem filled_of_checkSlot {s : SlotSpec} (h : call.checkSlot source s = [])
    (hrequired : s.required = true) : s.name ∈ call.slotNames := by
  rw [← mem_keys_entries, Assoc.mem_keys_iff]
  unfold checkSlot at h
  split at h
  · rename_i entries hentries
    rw [hentries]
    rfl
  · rw [hrequired] at h
    cases h

theorem declared_of_straySlots {name : String} (h : call.straySlots spec = [])
    (hname : name ∈ call.slotNames) :
    name ∈ spec.slots.map SlotSpec.name ∨ name = innerBlock ∧ spec.slots ≠ [] := by
  obtain ⟨⟨_, entries⟩, he, rfl⟩ := List.mem_map.1 (mem_keys_entries.2 hname)
  have hfound := List.flatMap_eq_nil_iff.1 h _ he
  have hentries := ne_nil_of_mem_entries he
  dsimp only at hfound hentries ⊢
  split at hfound
  · rename_i hdeclared
    refine hdeclared.imp_left fun hany => ?_
    obtain ⟨s, hs, hname⟩ := List.any_eq_true.1 hany
    exact List.mem_map.2 ⟨s, hs, by simpa using hname⟩
  · exact absurd (List.map_eq_nil_iff.1 hfound) hentries

/-- A call without findings meets the spec. -/
theorem meets_of_check (hspread : call.hasSpread = false) (h : call.check spec source = []) :
    call.Meets spec := by
  rw [check, List.append_eq_nil_iff, List.append_eq_nil_iff, List.append_eq_nil_iff,
    List.flatMap_eq_nil_iff, List.flatMap_eq_nil_iff] at h
  obtain ⟨⟨⟨hattrs, hstray⟩, hslots⟩, hstraySlots⟩ := h
  exact ⟨fun a ha => required_of_checkAttr hspread (hattrs a ha),
    fun name => declared_of_strayAttrs hstray, fun s hs => filled_of_checkSlot (hslots s hs),
    fun name => declared_of_straySlots hstraySlots⟩

end ComponentCall

/-! ### What a component is given -/

namespace Bindings

theorem mem_keys_assign {b : Bindings} {name other : String} {v : Value}
    (h : other ∈ Assoc.keys (b.assign name v).fields) :
    other = name ∨ other ∈ Assoc.keys b.fields := by
  unfold assign at h
  split at h
  · refine .inr ?_
    cases v with
    | null => exact h
    | _ =>
      dsimp only at h
      split at h <;> exact h
  · rw [Assoc.mem_keys_iff, Record.get?_insert] at h
    split at h
    · rename_i heq
      exact .inl heq.symm
    · exact .inr (Assoc.mem_keys_iff.2 h)

/-- Only what is assigned is held besides what was held before. -/
theorem mem_keys_assignAll {b : Bindings} {ws : List (String × Value)} {name : String}
    (h : name ∈ Assoc.keys (b.assignAll ws).fields) :
    name ∈ Assoc.keys ws ∨ name ∈ Assoc.keys b.fields := by
  induction ws generalizing b with
  | nil => exact .inr h
  | cons w rest ih =>
    rw [assignAll_cons] at h
    obtain h | h := ih h
    · exact .inl (List.mem_cons_of_mem _ h)
    · refine (mem_keys_assign h).imp_left ?_
      rintro rfl
      exact List.mem_cons_self

end Bindings

namespace ComponentSpec

variable {spec : ComponentSpec}

/-- The bindings of a component hold what its spec promises: every attribute that is required, has a
default or collects the rest, and every slot; and they hold nothing that is not declared but the
default slot, which stands beside any other slot. -/
structure Binds (spec : ComponentSpec) (made : Record Value) : Prop where
  attrs : ∀ a ∈ spec.attrs, a.required = true ∨ a.default.isSome = true ∨ a.type = .rest →
    a.name ≠ parentName → a.name ∈ Assoc.keys made
  slots : ∀ s ∈ spec.slots, s.name ≠ parentName → s.name ∈ Assoc.keys made
  only : ∀ name ∈ Assoc.keys made, name ∈ spec.attrs.map AttrSpec.name ∨
    name ∈ spec.slots.map SlotSpec.name ∨ name = innerBlock ∧ spec.slots ≠ []

/-- What is made of some values is named as an attribute, a slot, or one of the values that are not
collected. -/
theorem apply_names (spec : ComponentSpec) (values : Record Value) : Maintains (fun _ => True)
    (fun made : Bindings => ∀ name ∈ Assoc.keys made.fields,
      name ∈ spec.attrs.map AttrSpec.name ∨ name ∈ spec.slots.map SlotSpec.name ∨
        name ∈ Assoc.keys values ∧ (hasRest spec.attrs = true → name ∈ spec.knownNames))
    (spec.apply values) := by
  unfold apply
  refine maintains_emptySlots_held.bind fun slots hslots => ?_
  dsimp only
  generalize hgiven : ({} : Bindings).assignAll (spec.defaults ++ slots) = given
  have hgiven : ∀ name ∈ Assoc.keys given.fields, name ∈ spec.attrs.map AttrSpec.name ∨
      name ∈ spec.slots.map SlotSpec.name := by
    intro name hname
    rw [← hgiven] at hname
    have hwritten := (Bindings.mem_keys_assignAll hname).resolve_right List.not_mem_nil
    obtain ⟨e, he, rfl⟩ := List.mem_map.1 hwritten
    obtain he | he := List.mem_append.1 he
    · exact .inl (mem_attrs_of_defaults he)
    · have hslot : e.1 ∈ (spec.slots.filter fun s => !s.required).map SlotSpec.name :=
        hslots.names ▸ List.mem_map_of_mem he
      exact .inr ((List.filter_sublist.map SlotSpec.name).subset hslot)
  split
  case h_1 hrest =>
    have hnone : hasRest spec.attrs = false := by
      rw [hasRest, List.any_eq_false]
      exact List.find?_eq_none.1 hrest
    refine .pure fun name hname => ?_
    obtain hname | hname := Bindings.mem_keys_assignAll hname
    · exact .inr (.inr ⟨hname, fun h => absurd (hnone.symm.trans h) Bool.false_ne_true⟩)
    · exact (hgiven name hname).imp_right .inl
  case h_2 attr hrest =>
    rw [List.partition_eq_filter_filter]
    dsimp only
    have hknown : ∀ name ∈ Assoc.keys (given.assignAll (values.filter fun e =>
        decide (e.1 ∈ spec.knownNames))).fields, name ∈ spec.attrs.map AttrSpec.name ∨
          name ∈ spec.slots.map SlotSpec.name ∨
          name ∈ Assoc.keys values ∧ (hasRest spec.attrs = true → name ∈ spec.knownNames) := by
      intro name hname
      obtain hname | hname := Bindings.mem_keys_assignAll hname
      · obtain ⟨e, he, rfl⟩ := List.mem_map.1 hname
        obtain ⟨he, hmem⟩ := List.mem_filter.1 he
        exact .inr (.inr ⟨List.mem_map_of_mem he, fun _ => of_decide_eq_true hmem⟩)
      · exact (hgiven name hname).imp_right .inl
    split
    · exact .pure hknown
    · apply Maintains.bind (P := fun _ => True) fun _ _ => ⟨trivial, trivial⟩
      refine fun id _ => .pure fun name hname => ?_
      obtain rfl | hname := Bindings.mem_keys_assign hname
      · exact .inl (List.mem_map_of_mem (List.mem_of_find?_eq_some hrest))
      · exact hknown name hname

/-- A name that is known is held where it is passed, and also where the spec gives something. -/
theorem isSome_held {slots values : Record Value} {id : Identity} {name : String}
    (hknown : name ∈ spec.knownNames)
    (h : (Assoc.get? values name).isSome = true ∨ (Assoc.get? slots.reverse name).isSome = true ∨
      (Assoc.get? spec.defaults.reverse name).isSome = true ∨
        ∃ a, restAttr? spec.attrs = some a ∧ a.name = name) :
    (spec.held slots values id name).isSome = true := by
  rw [held]
  cases hrest : restAttr? spec.attrs with
  | none =>
    have hnone : ¬ ∃ a, (none : Option AttrSpec) = some a ∧ a.name = name := by simp
    rw [hrest, or_iff_left hnone] at h
    simpa [Option.isSome_or] using h
  | some attr =>
    dsimp only
    split_ifs with hcollected
    · rfl
    · rw [Option.isSome_or, Option.isSome_or, Bool.or_eq_true, Bool.or_eq_true]
      obtain hvalue | hslot | hdefault | ⟨a, ha, hname⟩ := h
      · exact .inl hvalue
      · exact .inr (.inl hslot)
      · exact .inr (.inr hdefault)
      · obtain rfl := Option.some.inj (hrest.symm.trans ha)
        exact .inl (Option.isSome_iff_ne_none.2 fun hnone => hcollected ⟨hname, hnone⟩)

/-- An attribute that collects what is not declared is the only one. -/
theorem restAttr?_eq_some {attrs : List AttrSpec}
    (hrests : attrs.Pairwise fun a b => ¬ (a.type = .rest ∧ b.type = .rest)) {a : AttrSpec}
    (ha : a ∈ attrs) (hrest : a.type = .rest) : restAttr? attrs = some a := by
  cases hfound : restAttr? attrs with
  | none => exact absurd (decide_eq_true hrest) (List.find?_eq_none.1 hfound a ha)
  | some b =>
    have hb : b ∈ attrs := List.mem_of_find?_eq_some hfound
    have htype : b.type = .rest := by
      rw [restAttr?] at hfound
      simpa using List.find?_some hfound
    have hsymm : Std.Symm fun a b : AttrSpec => ¬ (a.type = .rest ∧ b.type = .rest) :=
      ⟨fun _ _ h hboth => h hboth.symm⟩
    by_contra hne
    exact hrests.forall ha hb (fun heq => hne (congrArg some heq.symm)) ⟨hrest, htype⟩

/-- What meets a spec is bound as the spec promises. -/
theorem binds_apply {call : ComponentCall} (hmeets : call.Meets spec)
    (hrests : spec.attrs.Pairwise fun a b => ¬ (a.type = .rest ∧ b.type = .rest))
    {values : Record Value} (hvalues : (Assoc.keys values).Nodup)
    (hpassed : ∀ name, name ≠ parentName → name ∈ call.attributes.map RecordedAttribute.name ∨
      name ∈ call.slotNames → name ∈ Assoc.keys values)
    (honly : ∀ name ∈ Assoc.keys values, name ∈ call.attributes.map RecordedAttribute.name ∨
      name ∈ call.slotNames) :
    Maintains (fun _ => True) (fun made : Bindings => spec.Binds made.fields)
      (spec.apply values) := by
  intro n hn
  obtain ⟨slots, id, hslots, hheld⟩ := (spec.apply_held hvalues n hn).1
  have hnames := (spec.apply_names values n hn).1
  refine ⟨⟨fun a ha hpromised hname => ?_, fun s hs hname => ?_, fun name hname => ?_⟩, trivial⟩
  · rw [Assoc.mem_keys_iff, hheld _ hname]
    have hknown : a.name ∈ spec.knownNames :=
      List.mem_append_left _ (List.mem_append_left _ (List.mem_map_of_mem ha))
    refine isSome_held hknown ?_
    by_cases hrequired : a.required = true
    · have hgiven := hmeets.required a ha hrequired
      exact .inl (Assoc.mem_keys_iff.1 (hpassed _ hname (.inl hgiven)))
    · by_cases hrest : a.type = .rest
      · exact .inr (.inr (.inr ⟨a, restAttr?_eq_some hrests ha hrest, rfl⟩))
      · have hdefault : a.default.isSome = true :=
          (hpromised.resolve_left hrequired).resolve_right hrest
        refine .inr (.inr (.inl (Option.isSome_iff_ne_none.2 fun hnone => ?_)))
        rw [defaults_eq] at hnone
        have hsame := get?_defaults_eq_none.1 hnone a ha rfl
        rw [AttrSpec.default?, if_neg (not_or.2 ⟨hrequired, hrest⟩)] at hsame
        rw [hsame] at hdefault
        cases hdefault
  · rw [Assoc.mem_keys_iff, hheld _ hname]
    have hknown : s.name ∈ spec.knownNames :=
      List.mem_append_left _ (List.mem_append_right _ (List.mem_map_of_mem hs))
    refine isSome_held hknown ?_
    cases hrequired : s.required with
    | true =>
      have hfilled := hmeets.filled s hs hrequired
      exact .inl (Assoc.mem_keys_iff.1 (hpassed _ hname (.inr hfilled)))
    | false => exact .inr (.inl (hslots.isSome_get?_iff.2 ⟨s, hs, hrequired, rfl⟩))
  · obtain hattr | hslot | ⟨hvalue, hcollected⟩ := hnames name hname
    · exact .inl hattr
    · exact .inr (.inl hslot)
    · obtain hgiven | hfilled := honly name hvalue
      · obtain hattr | ⟨hrest, hglobal⟩ := hmeets.attrs name hgiven
        · exact .inl hattr
        · obtain hmem | hreserved := List.mem_append.1 (hcollected hrest)
          · exact (List.mem_append.1 hmem).imp_right .inl
          · -- the names that come with every slot entry are not attributes of elements
            have hnone : ∀ other ∈ [innerBlock, "__slot__"],
                GlobalAttribute.contains other = false := by decide
            exact absurd ((hnone name hreserved).symm.trans hglobal) Bool.false_ne_true
      · exact .inr (hmeets.slots name hfilled)

end ComponentSpec

/-! ### Evaluations that fail for a reason -/

/-- Wherever it starts, an evaluation comes to a result with a property, or it fails with an error
of a kind. -/
def Concludes {α : Type} (E : EvalError → Prop) (P : α → Prop) (x : Eval α) : Prop :=
  Maintains (fun _ => True) (Ends E P) x.run

namespace Concludes

variable {α β : Type} {E : EvalError → Prop} {P : α → Prop} {Q : β → Prop}

theorem pure {a : α} (h : P a) : Concludes E P (Pure.pure a : Eval α) := Maintains.pure h

theorem bind {x : Eval α} {f : α → Eval β} (hx : Concludes E P x)
    (hf : ∀ a, P a → Concludes E Q (f a)) : Concludes E Q (x >>= f) := by
  change Maintains _ _ (x.run >>= ExceptT.bindCont f)
  refine Maintains.bind hx fun result hresult => ?_
  cases result with
  | ok a => exact hf a hresult
  | error e => exact Maintains.pure hresult

theorem map {x : Eval α} {f : α → β} (hx : Concludes E P x) (hf : ∀ a, P a → Q (f a)) :
    Concludes E Q (f <$> x) := by
  rw [← bind_pure_comp]
  exact hx.bind fun a ha => pure (hf a ha)

theorem imp {P' : α → Prop} {x : Eval α} (hx : Concludes E P x) (hP : ∀ a, P a → P' a) :
    Concludes E P' x :=
  Maintains.imp hx fun _ h => h.imp (fun _ he => he) hP

theorem imp_error {E' : EvalError → Prop} {x : Eval α} (hx : Concludes E P x)
    (hE : ∀ e, E e → E' e) : Concludes E' P x :=
  Maintains.imp hx fun _ h => h.imp hE fun _ ha => ha

theorem lift {x : Fresh α} (hx : Maintains (fun _ => True) P x) :
    Concludes E P (liftM x : Eval α) := hx

theorem mapM {R : α → β → Prop} {f : α → Eval β} {xs : List α}
    (h : ∀ x ∈ xs, Concludes E (R x) (f x)) : Concludes E (List.Forall₂ R xs) (xs.mapM f) := by
  induction xs with
  | nil => exact pure .nil
  | cons x rest ih =>
    rw [List.forall_mem_cons] at h
    rw [List.mapM_cons]
    exact h.1.bind fun y hy => (ih h.2).bind fun ys hys => pure (.cons hy hys)

end Concludes

section Arguments
variable {frame : Frame} {E : EvalError → Prop}

/-- An argument cannot be evaluated, for this reason. -/
def Argument.Raises (frame : Frame) (arg : Argument) (e : EvalError) : Prop :=
  ∃ start, ((arg.assign frame {}).run.run start).1 = .error e

/-- What an argument writes is named as the argument is. -/
def Argument.Wrote (arg : Argument) (ws : Record Value) : Prop :=
  ∀ name, arg.name? = some name → Assoc.keys ws = [name]

/-- An argument writes the name it gives, or it cannot be evaluated. -/
theorem Argument.concludes_writes (arg : Argument) : Concludes (arg.Raises frame)
    arg.Wrote (arg.writes frame) := by
  intro start _
  refine ⟨?_, trivial⟩
  have hmap : ∀ {α β : Type} (f : α → β) (x : Eval α),
      ((f <$> x).run.run start).1 = ((x.run.run start).1).map f := by
    intro α β f x
    rw [ExceptT.run_map]
    rfl
  cases hrun : ((arg.writes frame).run.run start).1 with
  | error e =>
    refine ⟨start, ?_⟩
    rw [assign_eq, hmap, hrun]
    rfl
  | ok ws =>
    intro name hname
    cases arg with
    | spread => cases hname
    | named given value reads span =>
      obtain rfl := Option.some.inj hname
      rw [writes, bind_pure_comp, hmap, map_eq_ok] at hrun
      obtain ⟨v, -, rfl⟩ := hrun
      rfl

/-- Arguments that are not spread write the names they give, in their order. -/
theorem keys_flatten {args : List Argument} {wss : List (Record Value)}
    (h : List.Forall₂ Argument.Wrote args wss) (hnamed : ∀ arg ∈ args, arg.name?.isSome = true) :
    Assoc.keys wss.flatten = args.filterMap Argument.name? := by
  induction h with
  | nil => rfl
  | @cons arg ws _ _ hfirst _ ih =>
    rw [List.forall_mem_cons] at hnamed
    obtain ⟨name, hname⟩ := Option.isSome_iff_exists.1 hnamed.1
    have hkeys := hfirst name hname
    have hrest := ih hnamed.2
    rw [List.filterMap_cons_some hname, ← hrest, List.flatten_cons, Assoc.keys, List.map_append]
    rw [Assoc.keys] at hkeys
    rw [hkeys]
    rfl

theorem concludes_mapM_writes {args : List Argument}
    (hraises : ∀ arg ∈ args, ∀ e, arg.Raises frame e → E e) :
    Concludes E (List.Forall₂ Argument.Wrote args) (args.mapM (Argument.writes frame)) :=
  .mapM fun arg harg => arg.concludes_writes.imp_error (hraises arg harg)

theorem SlotPlan.concludes_entry {plan : SlotPlan} (tracked : Bool)
    (hraises : ∀ arg ∈ plan.attributes, ∀ e, arg.Raises frame e → E e) :
    Concludes E (fun _ => True) (plan.entry frame tracked) := by
  have hmade : ∀ fields, Concludes E (fun _ => True) (Eval.newRecord fields) :=
    fun _ => .lift (x := _ <$> freshId) fun _ _ => ⟨trivial, trivial⟩
  have hwrites : Concludes E (fun _ => True)
      (Argument.assignAll frame none plan.attributes {}) := by
    rw [Argument.assignAll_eq, Argument.writesWith_none]
    exact (concludes_mapM_writes hraises).map fun _ _ => trivial
  unfold SlotPlan.entry
  refine hwrites.bind fun attributes _ => ?_
  cases plan.body with
  | none => exact hmade _
  | some body =>
    have hid : Concludes E (fun _ => True) (liftM freshId : Eval Identity) :=
      .lift fun _ _ => ⟨trivial, trivial⟩
    exact hid.bind fun id _ => hmade _

theorem SlotPlan.concludes_entries {plans : List SlotPlan} (tracked : Bool)
    (hraises : ∀ plan ∈ plans, ∀ arg ∈ plan.attributes, ∀ e, arg.Raises frame e → E e)
    (slots : Assoc String (List Value)) : Concludes E (fun made => ∀ name, name ∈ Assoc.keys made ↔
      name ∈ plans.map SlotPlan.name ∨ name ∈ Assoc.keys slots)
      (SlotPlan.entries frame tracked plans slots) := by
  induction plans generalizing slots with
  | nil => exact .pure fun name => (or_iff_right List.not_mem_nil).symm
  | cons plan rest ih =>
    rw [List.forall_mem_cons] at hraises
    rw [SlotPlan.entries]
    refine (concludes_entry tracked hraises.1).bind fun e _ => ?_
    refine (ih hraises.2 _).imp fun made hmade name => ?_
    rw [hmade name, Assoc.mem_keys_set_iff, List.map_cons, List.mem_cons]
    tauto

namespace ComponentPlan

variable {plan : ComponentPlan} {spec : ComponentSpec}

/-- The arguments of a call cannot all be evaluated: this is why one of them cannot, or one of those
of its slot entries. -/
def Raises (plan : ComponentPlan) (frame : Frame) (e : EvalError) : Prop :=
  ∃ arg ∈ plan.attributes ++ plan.slots.flatMap SlotPlan.attributes, arg.Raises frame e

theorem concludes_slotFields (tracked : Bool) : Concludes (plan.Raises frame)
    (fun lists => ∀ name, name ∈ Assoc.keys lists ↔ name ∈ plan.slots.map SlotPlan.name)
    (plan.slotFields frame tracked) := by
  have hraises : ∀ slot ∈ plan.slots, ∀ arg ∈ slot.attributes, ∀ e, arg.Raises frame e →
      plan.Raises frame e := fun slot hslot arg harg e he =>
    ⟨arg, List.mem_append_right _ (List.mem_flatMap.2 ⟨slot, hslot, harg⟩), he⟩
  unfold slotFields
  refine (SlotPlan.concludes_entries tracked hraises []).bind fun slots hslots => ?_
  have hlist : ∀ items, Concludes (plan.Raises frame) (fun _ => True) (Eval.newList items) :=
    fun _ => .lift (x := _ <$> freshId) fun _ _ => ⟨trivial, trivial⟩
  have hlists : Concludes (plan.Raises frame)
      (List.Forall₂ (fun (s : String × List Value) (w : String × Value) => s.1 = w.1) slots)
      (slots.mapM fun s => do
        let v ← Eval.newList s.2
        return (s.1, v)) :=
    .mapM fun s _ => (hlist s.2).bind fun _ _ => .pure rfl
  refine hlists.imp fun lists h name => ?_
  have hkeys : Assoc.keys slots = Assoc.keys lists := map_eq_map_of_forall₂ h fun _ _ => id
  rw [← hkeys, hslots name]
  exact or_iff_left List.not_mem_nil

/-- A plan that has what its call tells binds what a spec promises, where the call meets the spec.
-/
theorem concludes_bindings (htold : plan.Told) (hspread : plan.call.hasSpread = false)
    (hmeets : plan.call.Meets spec)
    (hrests : spec.attrs.Pairwise fun a b => ¬ (a.type = .rest ∧ b.type = .rest)) :
    Concludes (plan.Raises frame) (fun made => spec.Binds made.fields)
      (plan.bindings frame spec none) := by
  have hraises : ∀ arg ∈ plan.attributes, ∀ e, arg.Raises frame e → plan.Raises frame e :=
    fun arg harg e he => ⟨arg, List.mem_append_left _ harg, he⟩
  unfold bindings
  rw [Argument.writesWith_none]
  refine (concludes_mapM_writes hraises).bind fun wss hwss => ?_
  refine (concludes_slotFields _).bind fun lists hlists => .lift ?_
  have hgiven : Assoc.keys wss.flatten = plan.call.attributes.map RecordedAttribute.name :=
    (keys_flatten hwss (htold.named hspread)).trans htold.attributes
  have hpassed : ∀ name, name ∈ Assoc.keys (wss.flatten ++ lists) ↔
      name ∈ plan.call.attributes.map RecordedAttribute.name ∨ name ∈ plan.call.slotNames := by
    intro name
    have hslots : plan.slots.map SlotPlan.name = plan.call.slotNames := htold.slots
    rw [← hgiven, ← hslots, ← hlists name, Assoc.keys, List.map_append, List.mem_append]
    rfl
  refine ComponentSpec.binds_apply hmeets hrests
    (Bindings.nodup_assignAll (b := {}) List.nodup_nil _) (fun name hname hmem => ?_)
    fun name hmem => (hpassed name).1
      ((Bindings.mem_keys_assignAll hmem).resolve_right List.not_mem_nil)
  have hmem := (hpassed name).2 hmem
  rw [Assoc.mem_keys_iff, Bindings.get?_assignAll hname, Option.isSome_or, Bool.or_eq_true,
    ← Assoc.mem_keys_iff, Assoc.keys, List.map_reverse, List.mem_reverse]
  exact .inl hmem

end ComponentPlan

end Arguments

/-- A template's calls are those of the plans in its fragment. Where checking a call without spread
attributes finds nothing, what its plan binds at the first mount is what the spec promises, unless
an argument of the call or of one of its slot entries cannot be evaluated. -/
theorem Template.binds_of_check {source : Source} {helpers : Assoc String Value} {unit : Option Nat}
    {trimmed : Bool} {t : Template} (h : ofSource source helpers unit trimmed = .ok t) :
    t.calls.Perm (t.fragment.componentPlans.map ComponentPlan.call) ∧
    ∀ plan ∈ t.fragment.componentPlans, plan.call.hasSpread = false → ∀ name declarations,
      let spec := (Declared.ofList declarations).spec name
      plan.call.check spec t.source = [] → ∀ (frame : Frame) (start : Identity),
        Ends (plan.Raises frame) (fun callee : CalleeAssigns => spec.Binds callee.assigns.fields)
          ((plan.calleeAssigns frame spec none).run.run start).1 := by
  obtain ⟨hperm, htold⟩ := calls_perm h
  refine ⟨hperm, fun plan hplan hspread name declarations => ?_⟩
  intro spec hcheck frame start
  have hwell : spec.WellFormed := Declared.wellFormed_ofList name declarations
  have hheld : frame.heldBy none = none := by
    rw [Frame.heldBy]
    split <;> rfl
  rw [ComponentPlan.calleeAssigns_eq, hheld]
  have hmeets := ComponentCall.meets_of_check hspread hcheck
  have hconcludes : Concludes (plan.Raises frame) (fun made => spec.Binds made.fields)
      (plan.bindings frame spec none) :=
    ComponentPlan.concludes_bindings (htold plan hplan) hspread hmeets hwell.attrs.rests
  exact ((hconcludes.map (Q := fun callee : CalleeAssigns => spec.Binds callee.assigns.fields)
    fun _ hmade => hmade) start trivial).1

/-- A card is given its title and its heading as they are passed, its size by default, an empty list
for the slot that is not filled, and the class with the rest. -/
theorem Template.binds_of_check_card :
    let source : Source :=
      ⟨"<.card title=\"Hi\" class=\"wide\"><:head>x</:head>y</.card>", "page"⟩
    let declarations : List Declaration := [.attr ⟨"title", .string, { required := some true }⟩,
      .attr ⟨"size", .string, { default := some (.text "m") }⟩, .attr ⟨"rest", .rest, {}⟩,
      .slot ⟨"head", true, none, []⟩, .slot ⟨"foot", false, none, []⟩]
    let spec := (Declared.ofList declarations).spec "card"
    ∃ t plan, ofSource source [] none true = .ok t ∧ plan ∈ t.fragment.componentPlans ∧
      plan.call.hasSpread = false ∧ plan.call.check spec t.source = [] ∧
      ∃ callee, ((plan.calleeAssigns (t.frame {} 0 none 0) spec none).run.run 1).1 = .ok callee ∧
        Assoc.keys callee.assigns.fields =
          ["size", "foot", "title", "inner_block", "head", "rest"] ∧
        spec.Binds callee.assigns.fields := by
  intro source declarations spec
  have hruns : (ofSource source [] none true).toOption.map (fun t =>
      t.fragment.componentPlans.map fun plan =>
        (plan.call.hasSpread, (plan.call.check spec t.source).length,
          ((plan.calleeAssigns (t.frame {} 0 none 0) spec none).run.run 1).1.toOption.map
            fun callee => Assoc.keys callee.assigns.fields)) =
      some [(false, 0, some ["size", "foot", "title", "inner_block", "head", "rest"])] := by
    decide +kernel
  obtain ⟨t, ht, hruns⟩ := Option.map_eq_some_iff.1 hruns
  obtain ⟨plan, hplans, hruns⟩ := List.map_eq_singleton_iff.1 hruns
  rw [Prod.mk.injEq, Prod.mk.injEq] at hruns
  obtain ⟨hspread, hcheck, hruns⟩ := hruns
  obtain ⟨callee, hcallee, hkeys⟩ := Option.map_eq_some_iff.1 hruns
  have ht := toOption_eq_some.1 ht
  have hplan : plan ∈ t.fragment.componentPlans := hplans ▸ List.mem_singleton_self plan
  have hcheck := List.eq_nil_of_length_eq_zero hcheck
  have hcallee := toOption_eq_some.1 hcallee
  have hends := (binds_of_check ht).2 plan hplan hspread "card" declarations hcheck
    (t.frame {} 0 none 0) 1
  rw [hcallee] at hends
  exact ⟨t, plan, ht, hplan, hspread, hcheck, callee, hcallee, hkeys, hends⟩

end LiveTemplate
