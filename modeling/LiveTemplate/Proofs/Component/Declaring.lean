import LiveTemplate.Component.Declaration
import Mathlib.Data.List.Nodup
import Mathlib.Tactic.SplitIfs

/-!
What declarations come to. Whatever is declared, the spec is well formed: one step keeps what is
there well formed and only adds to it. A declaration leaves in the spec what it says, or it leaves
an issue that names it.
-/

namespace LiveTemplate

set_option autoImplicit false

/-! ### Well-formed specs -/

/-- An attribute of a component, or of a slot, whose parts go together. -/
structure AttrSpec.Fits (inSlot : Bool) (a : AttrSpec) : Prop where
  unreserved : a.name ≠ innerBlock
  rest : a.type = .rest → a.required = false
  /-- What is required has no default. -/
  optional : a.default.isSome = true → a.required = false
  accepted : ∀ v, a.default = some v → a.type.accepts v = true
  /-- Attributes of slots have no default. -/
  plain : inSlot = true → a.default = none

/-- Attributes that can stand together. -/
structure AttrSpec.AllFit (inSlot : Bool) (attrs : List AttrSpec) : Prop where
  names : (attrs.map AttrSpec.name).Nodup
  each : ∀ a ∈ attrs, a.Fits inSlot
  /-- At most one of them collects what is not declared. -/
  rests : attrs.Pairwise fun a b => ¬ (a.type = .rest ∧ b.type = .rest)

/-- Slots that can stand together. -/
structure SlotSpec.AllFit (slots : List SlotSpec) : Prop where
  names : (slots.map SlotSpec.name).Nodup
  attrs : ∀ s ∈ slots, AttrSpec.AllFit true s.attrs
  /-- The default slot has no attributes. -/
  innerBlock : ∀ s ∈ slots, s.name = innerBlock → s.attrs = []

structure ComponentSpec.WellFormed (spec : ComponentSpec) : Prop where
  attrs : AttrSpec.AllFit false spec.attrs
  slots : SlotSpec.AllFit spec.slots

/-! ### What a declaration says -/

/-- The attribute as its declaration says it. -/
def AttrDeclaration.written (d : AttrDeclaration) : AttrSpec :=
  ⟨d.name, d.type, d.options.required.getD false, d.options.default, d.options.doc⟩

def SlotDeclaration.written (d : SlotDeclaration) : SlotSpec :=
  ⟨d.name, d.required, d.attrs.map AttrDeclaration.written, d.doc⟩

/-- What is declared later stays behind what is declared before. -/
structure Declared.Extends (d later : Declared) : Prop where
  attrs : d.attrs <+: later.attrs
  slots : d.slots <+: later.slots
  issues : d.issues <+: later.issues

/-- A declaration behind others stands in the result as it was written. -/
def Declaration.KeptIn (before final : Declared) : Declaration → Prop
  | .attr a => before.attrs ++ [a.written] <+: final.attrs
  | .slot s => before.slots ++ [s.written] <+: final.slots
  | .template _ => True

/-- An issue is about a declaration, or about one of the attributes in it. -/
def Issue.Names (i : Issue) : Declaration → Prop
  | .attr a => i.attr = some a.name ∧ i.slot = none
  | .slot s => i.slot = some s.name
  | .template _ => False

/-- Each attribute of a slot stands in the result as it was written, or one of the issues is about
it or about the whole slot. -/
def SlotDeclaration.AttrsReported (before final : Declared) (issues : List Issue)
    (s : SlotDeclaration) : Prop :=
  ∀ (ds : List AttrDeclaration) (d : AttrDeclaration) (more : List AttrDeclaration),
    s.attrs = ds ++ d :: more →
      (∃ t : SlotSpec, before.slots ++ [t] <+: final.slots ∧ t.name = s.name ∧
        (AttrDeclaration.addAll (some s.name) ds []).1 ++ [d.written] <+: t.attrs) ∨
      ∃ i ∈ issues, i.slot = some s.name ∧ (i.attr = some d.name ∨ i.attr = none)

/-- The issues that are recorded for a declaration; where there are none it is kept. -/
structure Declaration.Reported (before final : Declared) (issues : List Issue) (d : Declaration) :
    Prop where
  names : ∀ i ∈ issues, i.Names d
  kept : issues = [] → d.KeptIn before final
  attrs : ∀ s, d = .slot s → s.AttrsReported before final issues

namespace AttrDeclaration

variable {d : AttrDeclaration} {slot : Option String} {attrs : List AttrSpec}

/-! ### One attribute -/

theorem settle_name (d : AttrDeclaration) (inSlot : Bool) : (d.settle inSlot).1.name = d.name := rfl

theorem settle_type (d : AttrDeclaration) (inSlot : Bool) : (d.settle inSlot).1.type = d.type := rfl

/-- A default that is kept has no fault. -/
theorem settle_default {inSlot : Bool} {v : Value} (h : (d.settle inSlot).1.default = some v) :
    d.defaultFault? (d.settle inSlot).1.required inSlot v = none := by
  simp only [settle] at h ⊢
  split_ifs at h with hfault
  rw [h] at hfault
  exact Option.not_isSome_iff_eq_none.mp hfault

theorem fits_settle {inSlot : Bool} (hname : d.name ≠ innerBlock) :
    (d.settle inSlot).1.Fits inSlot := by
  have hfault : ∀ v, (d.settle inSlot).1.default = some v →
      (d.settle inSlot).1.required = false ∧ inSlot = false ∧ d.type.accepts v = true := by
    intro v hv
    have hnone := settle_default hv
    unfold defaultFault? at hnone
    split_ifs at hnone with hrequired hslot haccepts
    exact ⟨Bool.eq_false_iff.mpr hrequired, Bool.eq_false_iff.mpr hslot, haccepts⟩
  constructor
  case unreserved => exact hname
  case rest =>
    intro htype
    rw [settle_type] at htype
    simp [settle, htype]
  case optional =>
    intro hdefault
    obtain ⟨v, hv⟩ := Option.isSome_iff_exists.mp hdefault
    exact (hfault v hv).1
  case accepted => exact fun v hv => (hfault v hv).2.2
  case plain =>
    intro hslot
    refine Option.eq_none_iff_forall_ne_some.mpr fun v hv => ?_
    rw [hslot] at hfault hv
    cases (hfault v hv).2.1

/-- What was not corrected is as it was written. -/
theorem settle_eq_written {inSlot : Bool} (h : (d.settle inSlot).2 = []) :
    (d.settle inSlot).1 = d.written := by
  simp only [settle, List.append_eq_nil_iff, Option.toList_eq_nil_iff] at h ⊢
  obtain ⟨hrest, hfault⟩ := h
  have hrequired : (d.options.required.getD false && !decide (d.type = .rest)) =
      d.options.required.getD false := by
    by_cases htype : d.type = .rest
    · have hnone : d.options.required = none := by simpa [htype] using hrest
      simp [hnone]
    · simp [htype]
  rw [hrequired] at hfault ⊢
  simp [hfault, written]

/-- An attribute is refused, or it is settled and added. -/
theorem add_cases (d : AttrDeclaration) (slot : Option String) (attrs : List AttrSpec) :
    (∃ cause, d.add slot attrs = (attrs, [⟨cause, some d.name, slot⟩])) ∨
    d.refusal? attrs = none ∧ d.add slot attrs = (attrs ++ [(d.settle slot.isSome).1],
      (d.settle slot.isSome).2.map fun c => ⟨c, some d.name, slot⟩) := by
  unfold add
  cases d.refusal? attrs with
  | some cause => exact .inl ⟨cause, rfl⟩
  | none => exact .inr ⟨rfl, rfl⟩

theorem of_refusal?_eq_none (h : d.refusal? attrs = none) : d.name ≠ innerBlock ∧
    d.name ∉ attrs.map AttrSpec.name ∧ (d.type = .rest → ∀ a ∈ attrs, a.type ≠ .rest) := by
  unfold refusal? at h
  split_ifs at h with hname hused hrest
  · have hnone : restAttr? attrs = none := Option.map_eq_none_iff.mp h
    refine ⟨hname, by simpa using hused, fun _ a ha => ?_⟩
    simpa using List.find?_eq_none.mp hnone a ha
  · exact ⟨hname, by simpa using hused, fun htype => absurd htype hrest⟩

theorem allFit_add (h : AttrSpec.AllFit slot.isSome attrs) :
    AttrSpec.AllFit slot.isSome (d.add slot attrs).1 := by
  rcases d.add_cases slot attrs with ⟨cause, hadd⟩ | ⟨hrefusal, hadd⟩
  · rw [hadd]
    exact h
  · rw [hadd]
    obtain ⟨hname, hnew, hrest⟩ := of_refusal?_eq_none hrefusal
    refine ⟨?_, ?_, ?_⟩
    · rw [List.map_append, List.map_singleton, settle_name]
      exact h.names.append (List.nodup_singleton _) (by simpa using hnew)
    · exact List.forall_mem_append.mpr ⟨h.each, by simpa using fits_settle hname⟩
    · refine List.pairwise_append.mpr ⟨h.rests, List.pairwise_singleton _ _, ?_⟩
      rintro a ha b hb ⟨hfirst, hsecond⟩
      rw [List.mem_singleton.mp hb, settle_type] at hsecond
      exact hrest hsecond a ha hfirst

theorem prefix_add : attrs <+: (d.add slot attrs).1 := by
  rcases d.add_cases slot attrs with ⟨cause, hadd⟩ | ⟨-, hadd⟩
  · exact hadd ▸ List.prefix_rfl
  · rw [hadd]
    exact List.prefix_append _ _

/-- An attribute is added as it was written, or an issue names it. -/
theorem add_eq_written (h : (d.add slot attrs).2 = []) :
    (d.add slot attrs).1 = attrs ++ [d.written] := by
  rcases d.add_cases slot attrs with ⟨cause, hadd⟩ | ⟨-, hadd⟩
  · rw [hadd] at h
    cases h
  · rw [hadd] at h ⊢
    rw [settle_eq_written (List.map_eq_nil_iff.mp h)]

theorem add_names {i : Issue} (h : i ∈ (d.add slot attrs).2) :
    i.attr = some d.name ∧ i.slot = slot := by
  rcases d.add_cases slot attrs with ⟨cause, hadd⟩ | ⟨-, hadd⟩
  · rw [hadd] at h
    obtain rfl := List.mem_singleton.mp h
    exact ⟨rfl, rfl⟩
  · rw [hadd] at h
    obtain ⟨cause, -, rfl⟩ := List.mem_map.mp h
    exact ⟨rfl, rfl⟩

/-! ### Attributes in turn -/

theorem addAll_cons (d : AttrDeclaration) (rest : List AttrDeclaration) :
    addAll slot (d :: rest) attrs = ((addAll slot rest (d.add slot attrs).1).1,
      (d.add slot attrs).2 ++ (addAll slot rest (d.add slot attrs).1).2) := rfl

theorem allFit_addAll {ds : List AttrDeclaration} (h : AttrSpec.AllFit slot.isSome attrs) :
    AttrSpec.AllFit slot.isSome (addAll slot ds attrs).1 := by
  induction ds generalizing attrs with
  | nil => exact h
  | cons d rest ih => exact ih (allFit_add h)

theorem prefix_addAll (ds : List AttrDeclaration) : attrs <+: (addAll slot ds attrs).1 := by
  induction ds generalizing attrs with
  | nil => exact List.prefix_rfl
  | cons d rest ih => exact prefix_add.trans ih

theorem addAll_append (ds more : List AttrDeclaration) :
    addAll slot (ds ++ more) attrs = ((addAll slot more (addAll slot ds attrs).1).1,
      (addAll slot ds attrs).2 ++ (addAll slot more (addAll slot ds attrs).1).2) := by
  induction ds generalizing attrs with
  | nil => rfl
  | cons d rest ih => rw [List.cons_append, addAll_cons, ih, addAll_cons, List.append_assoc]

/-- Every attribute in a list stays as it was written, or an issue names it. -/
theorem addAll_reports (ds : List AttrDeclaration) (d : AttrDeclaration)
    (more : List AttrDeclaration) :
    (addAll slot ds attrs).1 ++ [d.written] <+: (addAll slot (ds ++ d :: more) attrs).1 ∨
      ∃ i ∈ (addAll slot (ds ++ d :: more) attrs).2, i.slot = slot ∧ i.attr = some d.name := by
  rw [addAll_append, addAll_cons]
  generalize (addAll slot ds attrs).1 = before
  cases hissues : (d.add slot before).2 with
  | nil =>
    left
    rw [← add_eq_written hissues]
    exact prefix_addAll more
  | cons i rest =>
    right
    have hmem : i ∈ (d.add slot before).2 := hissues ▸ List.mem_cons_self
    obtain ⟨hattr, hslot⟩ := add_names hmem
    exact ⟨i, by simp, hslot, hattr⟩

theorem addAll_eq_written {ds : List AttrDeclaration} (h : (addAll slot ds attrs).2 = []) :
    (addAll slot ds attrs).1 = attrs ++ ds.map written := by
  induction ds generalizing attrs with
  | nil => exact (List.append_nil attrs).symm
  | cons d rest ih =>
    rw [addAll_cons] at h ⊢
    obtain ⟨hd, hrest⟩ := List.append_eq_nil_iff.mp h
    dsimp only
    rw [ih hrest, add_eq_written hd, List.append_assoc]
    rfl

theorem addAll_names {ds : List AttrDeclaration} {i : Issue} (h : i ∈ (addAll slot ds attrs).2) :
    i.slot = slot := by
  induction ds generalizing attrs with
  | nil => cases h
  | cons d rest ih =>
    rw [addAll_cons] at h
    rcases List.mem_append.mp h with h | h
    · exact (add_names h).2
    · exact ih h

end AttrDeclaration

/-! ### Slots -/

namespace SlotDeclaration

variable {s : SlotDeclaration} {slots : List SlotSpec}

/-- A slot is refused, or it is added with what its attributes come to; to the default slot nothing
of them is left. -/
theorem add_cases (s : SlotDeclaration) (slots : List SlotSpec) :
    s.add slots = (slots, [⟨.duplicateSlot, none, some s.name⟩]) ∨
    s.name ∉ slots.map SlotSpec.name ∧ ∃ attrs issues,
      s.add slots = (slots ++ [⟨s.name, s.required, attrs, s.doc⟩], issues) ∧
      (s.name = innerBlock ∧ attrs = [] ∧ issues =
          (AttrDeclaration.addAll (some s.name) s.attrs []).2 ++
            [⟨.innerBlockAttrs, none, some s.name⟩] ∨
        (s.name = innerBlock → attrs = []) ∧
          AttrDeclaration.addAll (some s.name) s.attrs [] = (attrs, issues)) := by
  unfold add
  split
  · exact .inl rfl
  · rename_i hused
    have hnew : s.name ∉ slots.map SlotSpec.name := by simpa using hused
    generalize AttrDeclaration.addAll (some s.name) s.attrs [] = made
    obtain ⟨attrs, issues⟩ := made
    dsimp only
    split_ifs with hinner
    · exact .inr ⟨hnew, [], _, rfl, .inl ⟨hinner.1, rfl, rfl⟩⟩
    · refine .inr ⟨hnew, attrs, issues, rfl, .inr ⟨fun hname => ?_, rfl⟩⟩
      exact not_not.mp fun hattrs => hinner ⟨hname, hattrs⟩

theorem allFit_add (h : SlotSpec.AllFit slots) : SlotSpec.AllFit (s.add slots).1 := by
  rcases s.add_cases slots with hadd | ⟨hnew, attrs, issues, hadd, hattrs⟩
  · rw [hadd]
    exact h
  · rw [hadd]
    have hnone : AttrSpec.AllFit true [] := ⟨List.nodup_nil, by simp, .nil⟩
    have hfit : AttrSpec.AllFit true attrs := by
      rcases hattrs with ⟨-, rfl, -⟩ | ⟨-, hall⟩
      · exact hnone
      · have hfit : AttrSpec.AllFit (some s.name).isSome
            (AttrDeclaration.addAll (some s.name) s.attrs []).1 :=
          AttrDeclaration.allFit_addAll hnone
        rwa [hall] at hfit
    refine ⟨?_, List.forall_mem_append.mpr ⟨h.attrs, by simpa using hfit⟩,
      List.forall_mem_append.mpr ⟨h.innerBlock, ?_⟩⟩
    · rw [List.map_append, List.map_singleton]
      exact h.names.append (List.nodup_singleton _) (by simpa using hnew)
    · rw [List.forall_mem_singleton]
      exact hattrs.elim (fun hleft _ => hleft.2.1) And.left

theorem prefix_add : slots <+: (s.add slots).1 := by
  rcases s.add_cases slots with hadd | ⟨-, attrs, issues, hadd, -⟩
  · exact hadd ▸ List.prefix_rfl
  · rw [hadd]
    exact List.prefix_append _ _

theorem add_eq_written (h : (s.add slots).2 = []) : (s.add slots).1 = slots ++ [s.written] := by
  rcases s.add_cases slots with hadd | ⟨-, attrs, issues, hadd, ⟨-, -, rfl⟩ | ⟨-, hall⟩⟩
  · rw [hadd] at h
    cases h
  · rw [hadd] at h
    simp at h
  · rw [hadd] at h ⊢
    obtain rfl : issues = [] := h
    have hwritten : (AttrDeclaration.addAll (some s.name) s.attrs []).1 =
        [] ++ s.attrs.map AttrDeclaration.written :=
      AttrDeclaration.addAll_eq_written (by rw [hall])
    rw [hall, List.nil_append] at hwritten
    rw [written, ← hwritten]

theorem add_names {i : Issue} (h : i ∈ (s.add slots).2) : i.slot = some s.name := by
  rcases s.add_cases slots with hadd | ⟨-, attrs, issues, hadd, ⟨-, -, rfl⟩ | ⟨-, hall⟩⟩
  · rw [hadd] at h
    obtain rfl := List.mem_singleton.mp h
    rfl
  · rw [hadd] at h
    rcases List.mem_append.mp h with h | h
    · exact AttrDeclaration.addAll_names h
    · obtain rfl := List.mem_singleton.mp h
      rfl
  · rw [hadd] at h
    have hmem : i ∈ (AttrDeclaration.addAll (some s.name) s.attrs []).2 := hall ▸ h
    exact AttrDeclaration.addAll_names hmem

/-- Where a slot is added, its attributes are kept or reported one by one. -/
theorem attrsReported_add (d : Declared) :
    s.AttrsReported d { d with slots := (s.add d.slots).1 } (s.add d.slots).2 := by
  intro ds a more hattrs
  have hreports :
      (AttrDeclaration.addAll (some s.name) ds []).1 ++ [a.written] <+:
          (AttrDeclaration.addAll (some s.name) s.attrs []).1 ∨
        ∃ i ∈ (AttrDeclaration.addAll (some s.name) s.attrs []).2,
          i.slot = some s.name ∧ i.attr = some a.name := by
    rw [hattrs]
    exact AttrDeclaration.addAll_reports ds a more
  rcases s.add_cases d.slots with hadd | ⟨-, attrs, issues, hadd, ⟨-, -, rfl⟩ | ⟨-, hall⟩⟩
  · exact .inr ⟨_, by rw [hadd]; exact List.mem_cons_self, rfl, .inr rfl⟩
  · exact .inr ⟨_, by rw [hadd]; exact List.mem_append_right _ List.mem_cons_self, rfl, .inr rfl⟩
  · rw [hadd]
    rw [hall] at hreports
    rcases hreports with hkept | ⟨i, hi, hslot, hattr⟩
    · exact .inl ⟨_, List.prefix_rfl, rfl, hkept⟩
    · exact .inr ⟨i, hi, hslot, .inl hattr⟩

end SlotDeclaration

/-! ### All declarations -/

namespace Declared

variable {d later final : Declared} {x : Declaration}

theorem Extends.refl (d : Declared) : d.Extends d :=
  ⟨List.prefix_rfl, List.prefix_rfl, List.prefix_rfl⟩

theorem Extends.trans (h : d.Extends later) (h' : later.Extends final) : d.Extends final :=
  ⟨h.attrs.trans h'.attrs, h.slots.trans h'.slots, h.issues.trans h'.issues⟩

theorem extends_add (d : Declared) (x : Declaration) : d.Extends (d.add x) := by
  cases x with
  | attr a => exact ⟨AttrDeclaration.prefix_add, List.prefix_rfl, List.prefix_append _ _⟩
  | slot s => exact ⟨List.prefix_rfl, SlotDeclaration.prefix_add, List.prefix_append _ _⟩
  | template source => exact ⟨List.prefix_rfl, List.prefix_rfl, List.prefix_rfl⟩

theorem extends_foldl (d : Declared) (xs : List Declaration) : d.Extends (xs.foldl add d) := by
  induction xs generalizing d with
  | nil => exact .refl d
  | cons x rest ih => exact (d.extends_add x).trans (ih (d.add x))

theorem wellFormed_add {name : String} (h : (d.spec name).WellFormed) :
    ((d.add x).spec name).WellFormed := by
  cases x with
  | attr a =>
    have hfit : AttrSpec.AllFit (none : Option String).isSome (a.add none d.attrs).1 :=
      AttrDeclaration.allFit_add h.attrs
    exact ⟨hfit, h.slots⟩
  | slot s => exact ⟨h.attrs, SlotDeclaration.allFit_add h.slots⟩
  | template source => exact h

theorem wellFormed_ofList (name : String) (declarations : List Declaration) :
    ((ofList declarations).spec name).WellFormed := by
  have hempty : (({} : Declared).spec name).WellFormed :=
    ⟨⟨List.nodup_nil, by simp [spec], .nil⟩, ⟨List.nodup_nil, by simp [spec], by simp [spec]⟩⟩
  unfold ofList
  generalize ({} : Declared) = d at hempty
  induction declarations generalizing d with
  | nil => exact hempty
  | cons x rest ih => exact ih _ (wellFormed_add hempty)

theorem reported_add (d : Declared) (x : Declaration) : ∃ issues,
    (d.add x).issues = d.issues ++ issues ∧ x.Reported d (d.add x) issues := by
  cases x with
  | attr a =>
    refine ⟨_, rfl, fun i hi => AttrDeclaration.add_names hi, fun hissues => ?_, by simp⟩
    have hwritten : (d.add (.attr a)).attrs = d.attrs ++ [a.written] :=
      AttrDeclaration.add_eq_written hissues
    rw [Declaration.KeptIn]
    exact hwritten ▸ List.prefix_rfl
  | slot s =>
    refine ⟨_, rfl, fun i hi => SlotDeclaration.add_names hi, fun hissues => ?_, ?_⟩
    · have hwritten : (d.add (.slot s)).slots = d.slots ++ [s.written] :=
        SlotDeclaration.add_eq_written hissues
      rw [Declaration.KeptIn]
      exact hwritten ▸ List.prefix_rfl
    · rintro t heq
      obtain rfl := Declaration.slot.inj heq
      exact SlotDeclaration.attrsReported_add d
  | template source => exact ⟨[], (List.append_nil _).symm, by simp, fun _ => trivial, by simp⟩

/-- What is declared later changes nothing of what is kept. -/
theorem Extends.reported {issues : List Issue} (hext : later.Extends final)
    (h : x.Reported d later issues) : x.Reported d final issues := by
  refine ⟨h.names, fun hissues => ?_, fun s hs ds a more hattrs => ?_⟩
  · have hkept := h.kept hissues
    cases x with
    | attr a => exact List.IsPrefix.trans hkept hext.attrs
    | slot s => exact List.IsPrefix.trans hkept hext.slots
    | template source => trivial
  · exact (h.attrs s hs ds a more hattrs).imp_left fun ⟨t, ht, hrest⟩ =>
      ⟨t, ht.trans hext.slots, hrest⟩

/-- Whatever is declared, the spec is well formed, and for every declaration that is not kept as it
was written an issue is recorded that names it. -/
theorem ofList_wellFormed_reported (name : String) (declarations : List Declaration) :
    ((ofList declarations).spec name).WellFormed ∧
    ∀ before x after, declarations = before ++ x :: after → ∃ issues,
      (ofList before).issues ++ issues <+: (ofList declarations).issues ∧
        x.Reported (ofList before) (ofList declarations) issues := by
  refine ⟨wellFormed_ofList name declarations, ?_⟩
  rintro before x after rfl
  obtain ⟨issues, hissues, hreported⟩ := (ofList before).reported_add x
  have hext : ((ofList before).add x).Extends (ofList (before ++ x :: after)) := by
    rw [ofList, ofList, List.foldl_append]
    exact extends_foldl _ after
  exact ⟨issues, hissues ▸ hext.issues, hext.reported hreported⟩

/-- A collecting attribute that is said to be required, a required one with a default, an attribute
of a slot with a default, and the slot once more: two are corrected, one loses its default and one
is dropped. -/
theorem ofList_wellFormed_reported_label :
    let size : AttrDeclaration := ⟨"size", .integer, { default := some (.text "m") }⟩
    let before : List Declaration := [.attr ⟨"rest", .rest, { required := some true }⟩,
      .attr ⟨"kind", .string, { required := some true, default := some (.text "plain") }⟩]
    let icon : Declaration := .slot ⟨"icon", true, none, [size]⟩
    let after : List Declaration := [.slot ⟨"icon", false, none, []⟩]
    let all := before ++ icon :: after
    (ofList all).spec "label" = ⟨"label",
      [⟨"rest", .rest, false, none, none⟩, ⟨"kind", .string, true, none, none⟩],
      [⟨"icon", true, [⟨"size", .integer, false, none, none⟩], none⟩]⟩ ∧
      (ofList all).issues.map (fun i => (i.attr, i.slot)) =
        [(some "rest", none), (some "kind", none), (some "size", some "icon"),
          (none, some "icon")] ∧
      ((ofList all).spec "label").WellFormed ∧
      ∃ issues, (ofList before).issues ++ issues <+: (ofList all).issues ∧
        icon.Reported (ofList before) (ofList all) issues := by
  intro size before icon after all
  obtain ⟨hspec, hreported⟩ := ofList_wellFormed_reported "label" all
  exact ⟨rfl, rfl, hspec, hreported before icon after rfl⟩

end Declared

end LiveTemplate
